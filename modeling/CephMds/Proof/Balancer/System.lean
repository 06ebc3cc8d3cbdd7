import CephMds.Proof.Balancer.Amounts

/-!
# The system directories

The whole roots that `try_rebalance` considers are not those of ~mdsN, but the
drill-down searches all roots. `Stage.step` takes `try_rebalance` apart into its
steps, one for each root that is searched (`run_tryRebalance`). Nothing of ~mdsN
is exported as long as nothing below its dirfrag fits when it is searched
(`tryRebalance_spares`); a lucky find is exported.
-/

namespace CephMds.Rebalance

open DirFrags Rebalancing

variable {α : Type} [DecidableEq α] {T : DirFrags α} {cfg : Config} {roots l : List α} {s : Rebalancing α}
  {sel : Selection α} {amount : ℚ} {d m y : α} {t : ℤ × ℚ}

/-! ## The steps of a rebalance -/

/-- Between two targets, or in the drill-down for one, with the roots that are still to be searched. -/
inductive Stage (α : Type)
  | between (s : Rebalancing α)
  | drilling (t : ℤ × ℚ) (s : Rebalancing α) (sel : Selection α) (left : List α)
  deriving DecidableEq

inductive Move
  /-- The imports and the whole roots for a target. -/
  | serve (t : ℤ × ℚ)
  /-- The drill-down searches the next root. -/
  | visit
  /-- What has been chosen is exported. -/
  | finish

/-- What the drill-down does with a root. -/
def visitRoot (T : DirFrags α) (cfg : Config) (amount : ℚ) (pot : α) (sel : Selection α) : Selection α :=
  if pot ∈ sel.alreadyExporting ∨ pot ∈ sel.exports then sel else T.findExports cfg amount (T.height pot + 1) pot sel

/-- What is chosen for a target becomes its exports. -/
def exportSelection (t : ℤ × ℚ) (s : Rebalancing α) (sel : Selection α) : Rebalancing α :=
  { s with alreadyExporting := sel.alreadyExporting, exported := s.exported ++ sel.exports.map fun d => (d, t.1) }

def Stage.step (T : DirFrags α) (cfg : Config) (roots : List α) : Stage α → Move → Option (Stage α)
  | .between s, .serve t =>
    if t.2 < cfg.minOffload then some (.between s)
    else
      let r := searchImports T cfg t.1 t.2 (s.importsFrom t.1) (0, s)
      if t.2 - r.1 < cfg.minOffload then some (.between r.2)
      else
        let sel := selectRoots T cfg roots t.2 ⟨[], r.1, r.2.alreadyExporting⟩
        some (.drilling t r.2 sel (if sel.haveLoad < t.2 - cfg.minOffload then roots else []))
  | .drilling t s sel (pot :: left), .visit =>
    let sel := visitRoot T cfg t.2 pot sel
    some (.drilling t s sel (if t.2 - cfg.minOffload < sel.haveLoad then [] else left))
  | .drilling t s sel [], .finish => some (.between (exportSelection t s sel))
  | _, _ => none

/-- The drill-down is a run. -/
theorem run_visits (T : DirFrags α) (cfg : Config) (roots : List α) (t : ℤ × ℚ) (s : Rebalancing α) (l : List α)
    (sel : Selection α) : ∃ as, run (Stage.step T cfg roots) (.drilling t s sel l) as = some (.between
    (exportSelection t s (untilEnough (t.2 - cfg.minOffload) (visitRoot T cfg t.2) l sel).1)) := by
  induction l generalizing sel with
  | nil => exact ⟨[.finish], rfl⟩
  | cons pot left ih =>
    unfold untilEnough
    by_cases henough : t.2 - cfg.minOffload < (visitRoot T cfg t.2 pot sel).haveLoad
    · refine ⟨[.visit, .finish], ?_⟩
      simp only [run, Stage.step, Option.bind_some, if_pos henough]
    · obtain ⟨as, has⟩ := ih (visitRoot T cfg t.2 pot sel)
      refine ⟨.visit :: as, ?_⟩
      simp only [run, Stage.step, Option.bind_some, if_neg henough]
      exact has

theorem run_exportTo (T : DirFrags α) (cfg : Config) (roots : List α) (s : Rebalancing α) (t : ℤ × ℚ) :
    ∃ as, run (Stage.step T cfg roots) (.between s) (.serve t :: as) =
      some (.between (exportTo T cfg roots s t)) := by
  unfold exportTo
  by_cases hsmall : t.2 < cfg.minOffload
  · exact ⟨[], by simp only [run, Stage.step, if_pos hsmall, Option.bind_some]⟩
  rw [if_neg hsmall]
  dsimp only
  generalize hr : searchImports T cfg t.1 t.2 (s.importsFrom t.1) (0, s) = r
  by_cases henough : t.2 - r.1 < cfg.minOffload
  · exact ⟨[], by simp only [run, Stage.step, if_neg hsmall, hr, if_pos henough, Option.bind_some]⟩
  rw [if_neg henough]
  generalize hsel : selectRoots T cfg roots t.2 ⟨[], r.1, r.2.alreadyExporting⟩ = sel
  have hdrill : selectExports T cfg roots t.1 t.2 r = exportSelection t r.2 (drillDown T cfg roots t.2 sel) := by
    unfold selectExports
    rw [hsel]
    rfl
  rw [hdrill]
  obtain ⟨as, has⟩ := run_visits T cfg roots t r.2 (if sel.haveLoad < t.2 - cfg.minOffload then roots else []) sel
  refine ⟨as, ?_⟩
  simp only [run, Stage.step, if_neg hsmall, hr, if_neg henough, hsel, Option.bind_some]
  rw [has]
  unfold drillDown
  split
  · rfl
  · rfl

/-- A rebalance is a run of these steps. -/
theorem run_tryRebalance {whoami : ℤ} {myTargets : List (ℤ × ℚ)} :
    ∃ as, run (Stage.step T cfg roots) (.between (sortImports T cfg whoami roots)) as =
      some (.between (tryRebalance T cfg whoami roots myTargets)) := by
  unfold tryRebalance
  generalize sortImports T cfg whoami roots = s
  induction myTargets generalizing s with
  | nil => exact ⟨[], rfl⟩
  | cons t ts ih =>
    obtain ⟨as, has⟩ := run_exportTo T cfg roots s t
    obtain ⟨bs, hbs⟩ := ih (exportTo T cfg roots s t)
    exact ⟨(.serve t :: as) ++ bs, run_append.mpr ⟨_, has, hbs⟩⟩

/-! ## The directory ~mdsN -/

/-- `d` is the dirfrag `m` of ~mdsN, or below it. -/
def System (T : DirFrags α) (m d : α) : Prop := d = m ∨ T.Ancestor m d

/-- `m` is the dirfrag of the own ~mdsN, a fully authoritative subtree without another one in it. -/
structure Mdsdir (T : DirFrags α) (whoami : ℤ) (roots : List α) (m : α) : Prop where
  root : m ∈ roots
  base : T.inodeIsBase m = true
  authority : T.inodeAuthority m = whoami
  inMdsdir {d : α} : System T m d → T.inMdsdir d = true
  top (d : α) : m ∉ T.children d
  whole {r : α} : r ∈ roots → ¬T.Ancestor m r

omit [DecidableEq α] in
/-- The imports that are listed, and those that go back because they have been idle. -/
theorem sortImports_spec (T : DirFrags α) (cfg : Config) (whoami : ℤ) (roots : List α) :
    (∀ p ∈ (sortImports T cfg whoami roots).importFrom, p.2 ∈ roots) ∧
    ∀ p ∈ (sortImports T cfg whoami roots).exported, p.1 ∈ roots ∧ T.inodeAuthority p.1 ≠ whoami := by
  unfold sortImports
  refine List.foldlRecOn roots _ (motive := fun r : Rebalancing α => (∀ p ∈ r.importFrom, p.2 ∈ roots) ∧
    ∀ p ∈ r.exported, p.1 ∈ roots ∧ T.inodeAuthority p.1 ≠ whoami) ?_ fun r ⟨hlisted, hidle⟩ im him => ?_
  · exact ⟨fun p hp => absurd hp List.not_mem_nil, fun p hp => absurd hp List.not_mem_nil⟩
  unfold sortImport
  split
  · exact ⟨hlisted, hidle⟩
  split
  · rename_i hback
    refine ⟨hlisted, fun p hp => ?_⟩
    rcases List.mem_append.mp hp with hp | hp
    · exact hidle p hp
    · rw [List.mem_singleton.mp hp]
      exact ⟨him, hback.2.2.2⟩
  · refine ⟨fun p hp => ?_, hidle⟩
    rcases List.mem_append.mp hp with hp | hp
    · exact hlisted p hp
    · rw [List.mem_singleton.mp hp]
      exact him

section Mdsdir

variable {whoami : ℤ} {pot : α} (hm : Mdsdir T whoami roots m)
include hm

omit [DecidableEq α] in
theorem Mdsdir.not_ancestor : ¬T.Ancestor d m := by
  intro h
  cases h with
  | single h => exact hm.top _ h
  | tail _ h => exact hm.top _ h

omit [DecidableEq α] in
/-- What is below another root is not below `m`. -/
theorem Mdsdir.not_system (hp : pot ∈ roots) (hne : pot ≠ m) (h : T.Ancestor pot y) : ¬System T m y := by
  rintro (rfl | hy)
  · exact hm.not_ancestor h
  · rcases hy.total h with he | hlow | hup
    · exact hne he.symm
    · exact hm.whole hp hlow
    · exact hm.not_ancestor hup

omit [DecidableEq α] in
theorem Mdsdir.system_root (hr : d ∈ roots) (h : System T m d) : d = m := h.resolve_right (hm.whole hr)

/-- The imports that go back are not of ~mdsN. -/
theorem searchImports_free (cfg : Config) {r : Rebalancing α} (hr : ∀ p ∈ r.importFrom, p.2 ∈ roots) (target : ℤ)
    (amount : ℚ) :
    ∃ back : List α, (searchImports T cfg target amount (r.importsFrom target) (0, r)).2.exported =
        r.exported ++ back.map (fun d => (d, target)) ∧
      (searchImports T cfg target amount (r.importsFrom target) (0, r)).1 = (back.map T.pop).sum ∧
      (∀ d ∈ back, ¬System T m d) ∧
      ∀ p ∈ (searchImports T cfg target amount (r.importsFrom target) (0, r)).2.importFrom, p.2 ∈ roots := by
  obtain ⟨back, hback, hsum, hbase, hsub⟩ : ∃ new : List α,
      (searchImports T cfg target amount (r.importsFrom target) (0, r)).2.exported =
        r.exported ++ new.map (fun d => (d, target)) ∧
      (searchImports T cfg target amount (r.importsFrom target) (0, r)).1 = 0 + (new.map T.pop).sum ∧
      (∀ d ∈ new, d ∈ r.importsFrom target ∧ T.inodeIsBase d = false) ∧
      (searchImports T cfg target amount (r.importsFrom target) (0, r)).2.importFrom.Sublist r.importFrom :=
    searchImports_exported
  refine ⟨back, hback, hsum.trans (zero_add _), fun d hd hsys => ?_, fun p hp => hr p (hsub.subset hp)⟩
  obtain ⟨hin, hnot⟩ := hbase d hd
  obtain ⟨p, hp, rfl⟩ := List.mem_map.mp hin
  have hself := hm.system_root (hr p (List.mem_filter.mp hp).1) hsys
  rw [hself, hm.base] at hnot
  cases hnot

omit [DecidableEq α] in
/-- An import that goes back because it is idle is not of ~mdsN. -/
theorem free_sortImports : ∀ p ∈ (sortImports T cfg whoami roots).exported, ¬System T m p.1 := by
  intro p hp hsys
  obtain ⟨hroot, hother⟩ := (sortImports_spec T cfg whoami roots).2 p hp
  rw [hm.system_root hroot hsys] at hother
  exact hother hm.authority

/-- The whole roots are not of ~mdsN. -/
theorem not_system_wholeRoots {need : ℚ} {already : List α} (h : d ∈ wholeRoots T roots need already) : ¬System T m d := by
  intro hsys
  have hpath := (List.mem_filter.mp (mem_byPop.mp h)).2
  simp [hm.inMdsdir hsys] at hpath

end Mdsdir

/-! ## What is spared -/

/-- Nothing of ~mdsN is exported or chosen, and `have` counts what goes to the target. -/
def Stage.Spares (T : DirFrags α) (m : α) : Stage α → Prop
  | .between s => ∀ p ∈ s.exported, ¬System T m p.1
  | .drilling t s sel _ => (∀ p ∈ s.exported, ¬System T m p.1) ∧ (∀ d ∈ sel.exports, ¬System T m d) ∧
      ∃ back : List α, (∀ d ∈ back, (d, t.1) ∈ s.exported) ∧
        sel.haveLoad = (back.map T.pop).sum + (sel.exports.map T.pop).sum

/-- The imports and the roots that are still to be searched are fully authoritative subtrees. -/
def Stage.Listed (roots : List α) : Stage α → Prop
  | .between s => ∀ p ∈ s.importFrom, p.2 ∈ roots
  | .drilling _ s _ left => (∀ p ∈ s.importFrom, p.2 ∈ roots) ∧ left ⊆ roots

/-- When the dirfrag of ~mdsN is searched, nothing below it that can be exported fits. -/
def Stage.Harmless (T : DirFrags α) (cfg : Config) (m : α) : Stage α → Move → Prop
  | .drilling t _ sel (pot :: _), .visit => pot = m → ∀ x, T.Ancestor m x → T.isAuth x = true → T.isFrozen x = false →
      x ∉ sel.alreadyExporting → ¬Fits T cfg t.2 (t.2 - sel.haveLoad) x
  | _, _ => True

variable {whoami : ℤ} {pot : α}

/-- What a visit adds is below the root, and counted. -/
theorem visitRoot_exported (T : DirFrags α) (cfg : Config) (amount : ℚ) (pot : α) (sel : Selection α) :
    ∃ new, Exported T sel (visitRoot T cfg amount pot sel) new := by
  unfold visitRoot
  split
  · exact ⟨[], .refl sel⟩
  · obtain ⟨new, hnew, -⟩ : ∃ new, Exported T sel (T.findExports cfg amount (T.height pot + 1) pot sel) new ∧
      (T.findExports cfg amount (T.height pot + 1) pot sel).alreadyExporting = new.reverse ++ sel.alreadyExporting ∧
      ∀ y ∈ new, T.Ancestor pot y := findExports_exported _
    exact ⟨new, hnew⟩

/-- A search chooses nothing of ~mdsN, below another root or where nothing fits. -/
theorem spares_visitRoot (hm : Mdsdir T whoami roots m) (hp : pot ∈ roots)
    (hfits : pot = m → ∀ x, T.Ancestor m x → T.isAuth x = true → T.isFrozen x = false →
      x ∉ sel.alreadyExporting → ¬Fits T cfg amount (amount - sel.haveLoad) x)
    (hs : ∀ d ∈ sel.exports, ¬System T m d) : ∀ d ∈ (visitRoot T cfg amount pot sel).exports, ¬System T m d := by
  unfold visitRoot
  split
  · exact hs
  refine findExports_takes (P := fun u => ∀ d ∈ u.exports, ¬System T m d) _
    (fun c hc hf hauth hfrozen hnot u hu d hd => ?_) hs (le_refl sel.haveLoad) (List.Subset.refl sel.alreadyExporting)
  rcases List.mem_append.mp hd with hd | hd
  · exact hu d hd
  · rw [List.mem_singleton.mp hd]
    by_cases hself : pot = m
    · exact absurd hf (hfits hself c (hself ▸ hc) hauth hfrozen hnot)
    · exact hm.not_system hp hself hc

/-- The whole roots, and what they are worth. -/
theorem selectRoots_exported (hm : Mdsdir T whoami roots m) :
    ∃ new, Exported T sel (selectRoots T cfg roots amount sel) new ∧ ∀ d ∈ new, ¬System T m d := by
  have hstep : ∀ c ∈ wholeRoots T roots (amount - sel.haveLoad) sel.alreadyExporting, ∀ (u : Selection α),
      (∃ new, Exported T sel u new ∧ ∀ d ∈ new, ¬System T m d) → ∀ u', u'.exports = u.exports ++ [c] →
        u'.haveLoad = u.haveLoad + T.pop c → ∃ new, Exported T sel u' new ∧ ∀ d ∈ new, ¬System T m d := by
    rintro c hc u ⟨new, hnew, hfree⟩ u' hexp hload
    refine ⟨new ++ [c], ⟨?_, ?_⟩, fun d hd => ?_⟩
    · rw [hexp, (hnew.push c).exports.symm]
      rfl
    · rw [hload, (hnew.push c).haveLoad.symm]
      rfl
    · rcases List.mem_append.mp hd with hd | hd
      · exact hfree d hd
      · rw [List.mem_singleton.mp hd]
        exact not_system_wholeRoots hm hc
  have hnil : ∃ new, Exported T sel sel new ∧ ∀ d ∈ new, ¬System T m d :=
    ⟨[], .refl sel, fun d hd => absurd hd List.not_mem_nil⟩
  unfold selectRoots
  cases cfg.howmuch with
  | some hook =>
    exact luahook_invariant (P := fun u => ∃ new, Exported T sel u new ∧ ∀ d ∈ new, ¬System T m d)
      (fun c hc u hu => hstep c hc u hu _ rfl rfl) hnil
  | none =>
    exact untilEnough_invariant (P := fun u => ∃ new, Exported T sel u new ∧ ∀ d ∈ new, ¬System T m d)
      (fun c hc u hu => hstep c hc u hu _ rfl rfl) hnil

/-- The imports that go back for a target, and the whole roots. -/
theorem spares_serve (hm : Mdsdir T whoami roots m) {S : Stage α} (hl : (Stage.between s).Listed roots)
    (hs : (Stage.between s).Spares T m) (hstep : Stage.step T cfg roots (.between s) (.serve t) = some S) :
    S.Listed roots ∧ S.Spares T m := by
  obtain ⟨back, hback, hsum, hfree, hlisted⟩ := searchImports_free hm cfg hl t.1 t.2
  simp only [Stage.step] at hstep
  generalize searchImports T cfg t.1 t.2 (s.importsFrom t.1) (0, s) = r at hback hsum hlisted hstep
  have hexported : ∀ p ∈ r.2.exported, ¬System T m p.1 := by
    intro p hp
    rw [hback] at hp
    rcases List.mem_append.mp hp with hp | hp
    · exact hs p hp
    · obtain ⟨d, hd, rfl⟩ := List.mem_map.mp hp
      exact hfree d hd
  split at hstep
  · cases hstep
    exact ⟨hl, hs⟩
  split at hstep
  · cases hstep
    exact ⟨hlisted, hexported⟩
  · cases hstep
    obtain ⟨new, hnew, hsel⟩ : ∃ new, Exported T ⟨[], r.1, r.2.alreadyExporting⟩
        (selectRoots T cfg roots t.2 ⟨[], r.1, r.2.alreadyExporting⟩) new ∧ ∀ d ∈ new, ¬System T m d :=
      selectRoots_exported hm
    refine ⟨⟨hlisted, ?_⟩, hexported, fun d hd => ?_, back, fun d hd => ?_, ?_⟩
    · split
      · exact List.Subset.refl _
      · exact List.nil_subset _
    · rw [hnew.exports, List.nil_append] at hd
      exact hsel d hd
    · rw [hback]
      exact List.mem_append_right _ (List.mem_map_of_mem hd)
    · rw [hnew.haveLoad, hnew.exports, List.nil_append, hsum]

theorem spares_step (hm : Mdsdir T whoami roots m) {S S' : Stage α} {a : Move} (hl : S.Listed roots)
    (hs : S.Spares T m) (ha : S.Harmless T cfg m a) (hstep : Stage.step T cfg roots S a = some S') :
    S'.Listed roots ∧ S'.Spares T m := by
  cases S with
  | between s =>
    cases a with
    | serve t => exact spares_serve hm hl hs hstep
    | visit => cases hstep
    | finish => cases hstep
  | drilling t s sel left =>
    obtain ⟨hexported, hsel, back, hback, hload⟩ := hs
    cases a with
    | serve t => cases left <;> cases hstep
    | visit =>
      cases left with
      | nil => cases hstep
      | cons pot left =>
        cases hstep
        obtain ⟨new, hnew⟩ := visitRoot_exported T cfg t.2 pot sel
        have hp : pot ∈ roots := hl.2 List.mem_cons_self
        refine ⟨⟨hl.1, ?_⟩, hexported, spares_visitRoot hm hp ha hsel, back, hback, ?_⟩
        · split
          · exact List.nil_subset _
          · exact fun x hx => hl.2 (List.mem_cons_of_mem pot hx)
        · rw [hnew.haveLoad, hnew.exports, hload, List.map_append, List.sum_append, add_assoc]
    | finish =>
      cases left with
      | cons pot left => cases hstep
      | nil =>
        cases hstep
        refine ⟨hl.1, fun p hp => ?_⟩
        rcases List.mem_append.mp hp with hp | hp
        · exact hexported p hp
        · obtain ⟨d, hd, rfl⟩ := List.mem_map.mp hp
          exact hsel d hd

/-- A lucky find below the dirfrag of ~mdsN is chosen. -/
theorem not_spares_lucky {left : List α} {S : Stage α} (hnoted : ¬(m ∈ sel.alreadyExporting ∨ m ∈ sel.exports))
    (hgood : ¬t.2 - sel.haveLoad < t.2 * cfg.minStart)
    (hlucky : ∃ c ∈ T.subdirs cfg m (t.2 - sel.haveLoad) sel, T.lucky cfg (t.2 - sel.haveLoad) c = true)
    (hstep : Stage.step T cfg roots (.drilling t s sel (m :: left)) .visit = some S) : ¬S.Spares T m := by
  cases hstep
  cases hfind : (T.subdirs cfg m (t.2 - sel.haveLoad) sel).find? (T.lucky cfg (t.2 - sel.haveLoad)) with
  | none =>
    obtain ⟨c, hc, hl⟩ := hlucky
    exact absurd hl (List.find?_eq_none.mp hfind c hc)
  | some c =>
    have hrun : visitRoot T cfg t.2 m sel = T.take c sel := by
      unfold visitRoot findExports
      simp only [if_neg hnoted, if_neg hgood, hfind]
    rintro ⟨-, hsel, -⟩
    rw [hrun] at hsel
    refine hsel c (List.mem_append_right _ (List.mem_singleton_self c)) (.inr (.single ?_))
    exact (List.mem_filter.mp (List.mem_of_find?_eq_some hfind)).1

/-- A rebalance is a run of steps; in every run in which nothing below the dirfrag
of ~mdsN fits when it is searched, nothing of ~mdsN is exported or counted. Where
there is a lucky find, it is. -/
theorem tryRebalance_spares {myTargets : List (ℤ × ℚ)} (hm : Mdsdir T whoami roots m) :
    (∃ as, run (Stage.step T cfg roots) (.between (sortImports T cfg whoami roots)) as =
      some (.between (tryRebalance T cfg whoami roots myTargets))) ∧
    (∀ as S, Meets (Stage.step T cfg roots) (Stage.Harmless T cfg m) (.between (sortImports T cfg whoami roots)) as →
      run (Stage.step T cfg roots) (.between (sortImports T cfg whoami roots)) as = some S → S.Spares T m) ∧
    ∀ t s sel left S, ¬(m ∈ sel.alreadyExporting ∨ m ∈ sel.exports) → ¬t.2 - sel.haveLoad < t.2 * cfg.minStart →
      (∃ c ∈ T.subdirs cfg m (t.2 - sel.haveLoad) sel, T.lucky cfg (t.2 - sel.haveLoad) c = true) →
      Stage.step T cfg roots (.drilling t s sel (m :: left)) .visit = some S → ¬S.Spares T m := by
  refine ⟨run_tryRebalance, fun as S has hrun => ?_, fun t s sel left S => not_spares_lucky⟩
  have hinit : (Stage.between (sortImports T cfg whoami roots)).Listed roots ∧
      (Stage.between (sortImports T cfg whoami roots)).Spares T m :=
    ⟨(sortImports_spec T cfg whoami roots).1, free_sortImports hm⟩
  exact (run_invariant_of (fun _ _ _ h ha hs => spares_step hm h.1 h.2 ha hs) hinit has hrun).2

/-! ## A stray directory -/

local instance systemNeZero : NeZero 3 := ⟨by decide⟩

/-- The root, ~mds0, and a stray directory with a load of 9. -/
def withStray : DirFrags (Fin 3) where
  children d := if d = 1 then [2] else []
  height d := if d = 1 then 1 else 0
  height_lt := by decide
  nodup_children := by decide
  parent_unique := by decide
  isSubtreeRoot d := d != 2
  isAuth _ := true
  auth_child := by decide
  isFrozen _ := false
  isFreezing _ := false
  isRep _ := false
  inodeIsBase d := d != 2
  inodeIsRoot d := d == 0
  inodeIsStray d := d == 2
  inMdsdir d := d != 0
  inodeAuthority _ := 0
  pop := ![20, 9, 9]
  pop_nonneg := by decide +kernel

theorem system_withStray {d : Fin 3} (h : System withStray 1 d) : d ≠ 0 := by
  rintro rfl
  rcases h with h | h
  · exact absurd h (by decide)
  · have htop : ∀ d, (0 : Fin 3) ∉ withStray.children d := by decide
    cases h with
    | single h => exact htop _ h
    | tail _ h => exact htop _ h

theorem mdsdir_withStray : Mdsdir withStray 0 [0, 1] 1 where
  root := by decide
  base := rfl
  authority := rfl
  inMdsdir h := bne_iff_ne.mpr (system_withStray h)
  top := by decide
  whole {r} hr h := by
    have hlow := h.height
    rcases List.mem_pair.mp hr with rfl | rfl
    · exact system_withStray (.inr h) rfl
    · exact absurd hlow (lt_irrefl _)

/-- The stray directory is too big for a need of at most 5. -/
theorem harmless_withStray {s : Rebalancing (Fin 3)} {sel : Selection (Fin 3)} {left : List (Fin 3)} {t : ℤ × ℚ}
    (h : t.2 - sel.haveLoad ≤ 5) (a : Move) :
    (Stage.drilling t s sel left).Harmless withStray defaults 1 a := by
  cases left with
  | nil => cases a <;> trivial
  | cons pot left =>
    cases a with
    | serve t => trivial
    | finish => trivial
    | visit =>
      rintro - x hx - - - ⟨n, -, hn, -, hfit⟩
      have hlow : withStray.height x < 1 := hx.height
      have hpop : 9 ≤ withStray.pop x := by
        have hall : ∀ x : Fin 3, 9 ≤ withStray.pop x := by decide +kernel
        exact hall x
      have hmax : defaults.needMax = 6 / 5 := rfl
      rw [hmax] at hfit
      rcases hfit with hfit | hfit
      · linarith
      · linarith

/-- For an amount of 5 the dirfrag of ~mds0 is searched, and nothing is exported. -/
theorem tryRebalance_spares_withStray :
    run (Stage.step withStray defaults [0, 1]) (.between (sortImports withStray defaults 0 [0, 1]))
      [.serve (1, 5), .visit, .visit, .finish] = some (.between (tryRebalance withStray defaults 0 [0, 1] [(1, 5)])) ∧
    (Stage.between (tryRebalance withStray defaults 0 [0, 1] [(1, 5)])).Spares withStray 1 := by
  have hrun : run (Stage.step withStray defaults [0, 1]) (.between (sortImports withStray defaults 0 [0, 1]))
      [.serve (1, 5), .visit, .visit, .finish] = some (.between (tryRebalance withStray defaults 0 [0, 1] [(1, 5)])) := by
    decide +kernel
  have hserve : Stage.step withStray defaults [0, 1] (.between (sortImports withStray defaults 0 [0, 1])) (.serve (1, 5)) =
      some (.drilling (1, 5) ⟨[(0, 0), (0, 1)], [], []⟩ ⟨[], 0, []⟩ [0, 1]) := by decide +kernel
  have hroot : Stage.step withStray defaults [0, 1] (.drilling (1, 5) ⟨[(0, 0), (0, 1)], [], []⟩ ⟨[], 0, []⟩ [0, 1])
      .visit = some (.drilling (1, 5) ⟨[(0, 0), (0, 1)], [], []⟩ ⟨[], 0, []⟩ [1]) := by decide +kernel
  have hmds : Stage.step withStray defaults [0, 1] (.drilling (1, 5) ⟨[(0, 0), (0, 1)], [], []⟩ ⟨[], 0, []⟩ [1])
      .visit = some (.drilling (1, 5) ⟨[(0, 0), (0, 1)], [], []⟩ ⟨[], 0, []⟩ []) := by decide +kernel
  have hsmall : ((1, 5) : ℤ × ℚ).2 - (⟨[], 0, []⟩ : Selection (Fin 3)).haveLoad ≤ 5 := by decide +kernel
  refine ⟨hrun, (@tryRebalance_spares _ _ _ _ _ _ _ [(1, 5)] mdsdir_withStray).2.1 _ _ ?_ hrun⟩
  rw [meets_cons_of_some hserve, meets_cons_of_some hroot, meets_cons_of_some hmds]
  exact ⟨trivial, harmless_withStray hsmall _, harmless_withStray hsmall _, harmless_withStray hsmall _, fun _ _ => trivial⟩

/-- For an amount of 10 it is exported, and its load counted. -/
theorem not_tryRebalance_spares : (tryRebalance withStray defaults 0 [0, 1] [(1, 10)]).exported = [(2, 1)] ∧
    haveFor withStray defaults [0, 1] (sortImports withStray defaults 0 [0, 1]) (1, 10) = 9 ∧
    Mdsdir withStray 0 [0, 1] 1 ∧ withStray.inodeIsStray 2 = true ∧ System withStray 1 2 := by
  refine ⟨by decide +kernel, by decide +kernel, mdsdir_withStray, rfl, .inr (.single ?_)⟩
  decide

end CephMds.Rebalance
