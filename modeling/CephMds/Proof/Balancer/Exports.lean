import CephMds.Proof.Balancer.FindExports

/-!
# What one rebalance exports

A rebalance is a run over the targets. Whole roots and imports that go back are
not noted, and what has been noted does not keep the dirfrags above it from
being chosen; where neither matters to the next target (`Clear`), all that is
exported is apart (`tryRebalance_apart`).
-/

namespace CephMds.Rebalance

open DirFrags Rebalancing

variable {α : Type} [DecidableEq α] {T : DirFrags α} {cfg : Config} {c c' d e x y : α} {l : List α} {amount need : ℚ}
  {s s' s'' : Selection α} {C C' : α → Prop} {new new' : List α}

/-! ## One target -/

section Target

variable {roots : List α}

/-- The fully authoritative subtree roots: none is below another through
dirfrags of this rank. -/
structure Roots (T : DirFrags α) (roots : List α) : Prop where
  nodup : roots.Nodup
  root : ∀ d ∈ roots, T.isSubtreeRoot d = true ∧ T.isAuth d = true
  unrelated : roots.Pairwise T.Unrelated

omit [DecidableEq α] in
theorem untilEnough_push {enough : ℚ} : ∃ new, new <+: l ∧
    (untilEnough enough T.push l s).1 = new.foldl (fun s d => T.push d s) s := by
  induction l generalizing s with
  | nil => exact ⟨[], List.nil_prefix, rfl⟩
  | cons d ds ih =>
    unfold untilEnough
    split
    · exact ⟨[d], ⟨ds, rfl⟩, rfl⟩
    · obtain ⟨new, hnew, hrun⟩ := ih (s := T.push d s)
      exact ⟨d :: new, (List.prefix_cons_inj d).mpr hnew, hrun⟩

theorem selectRoots_adds (amount : ℚ) (hv : Valid cfg) (hr : Roots T roots) (hs : 0 ≤ s.haveLoad) :
    ∃ new, (∀ c ∈ new, c ∈ roots) ∧
      Adds T cfg amount (fun x => x ∈ new) s (selectRoots T cfg roots amount s) new := by
  have hmem : ∀ c ∈ wholeRoots T roots (amount - s.haveLoad) s.alreadyExporting,
      c ∈ roots ∧ (c ∉ s.alreadyExporting ∧ T.isFrozen c = false) ∧ Admits T cfg amount c := by
    intro c hc
    have hc := mem_byPop.mp hc
    simp only [List.mem_filter, Bool.and_eq_true, decide_eq_true_eq, Bool.not_eq_true'] at hc
    exact ⟨hc.1, ⟨hc.2.1.1.2, hc.2.1.2⟩, amount - s.haveLoad, by linarith, .inl hc.2.2.le⟩
  have hnd : (wholeRoots T roots (amount - s.haveLoad) s.alreadyExporting).Nodup := nodup_byPop.mpr (hr.nodup.filter _)
  have hadds : ∀ {new : List α} {f : α → Selection α → Selection α}, new.Nodup →
      (∀ c ∈ new, c ∈ wholeRoots T roots (amount - s.haveLoad) s.alreadyExporting) →
      (∀ c s, c ∉ s.alreadyExporting → Admits T cfg amount c → T.isAuth c = true ∧ T.isFrozen c = false →
        Adds T cfg amount (fun x => x = c) s (f c s) [c]) →
      (∀ c ∈ new, c ∈ roots) ∧ Adds T cfg amount (fun x => x ∈ new) s (new.foldl (fun s d => f d s) s) new := by
    intro new f hn hsub hf
    refine ⟨fun c hc => (hmem c (hsub c hc)).1, foldl_adds ?_ (fun c hc => (hmem c (hsub c hc)).2.1.1) fun c hc s hns =>
      hf c s hns (hmem c (hsub c hc)).2.2 ⟨(hr.root c (hmem c (hsub c hc)).1).2, (hmem c (hsub c hc)).2.1.2⟩⟩
    exact hn.imp_of_mem fun hc hc' hne => hr.unrelated.forall (hmem _ (hsub _ hc)).1 (hmem _ (hsub _ hc')).1 hne
  unfold selectRoots
  cases hh : cfg.howmuch with
  | some hook =>
    obtain ⟨new, hsub, hn, hrun⟩ := luahook_eq (T := T) (hv hook hh amount _).1 hnd s
    simp only [hrun]
    exact ⟨new, hadds hn hsub fun c s h₁ h₂ h₃ => take_adds h₁ h₂ h₃⟩
  | none =>
    obtain ⟨new, hpre, hrun⟩ : ∃ new, new <+: wholeRoots T roots (amount - s.haveLoad) s.alreadyExporting ∧
        (untilEnough (amount - cfg.minOffload) T.push
          (wholeRoots T roots (amount - s.haveLoad) s.alreadyExporting) s).1 = new.foldl (fun s d => T.push d s) s :=
      untilEnough_push
    simp only [hrun]
    exact ⟨new, hadds (hnd.sublist hpre.sublist) (fun c hc => hpre.subset hc) fun c s h₁ h₂ h₃ => push_adds h₁ h₂ h₃⟩

theorem drillDown_adds (amount : ℚ) (hv : Valid cfg) (hr : Roots T roots) (hs : 0 ≤ s.haveLoad) :
    ∃ new, Adds T cfg amount (fun x => x ∈ roots ∧ ¬(x ∈ s.alreadyExporting ∨ x ∈ s.exports)) s
      (drillDown T cfg roots amount s) new := by
  unfold drillDown
  split
  · refine untilEnough_adds (P := fun t => 0 ≤ t.haveLoad ∧
      ∀ c, c ∈ s.alreadyExporting ∨ c ∈ s.exports → c ∈ t.alreadyExporting ∨ c ∈ t.exports) hr.unrelated ?_ ?_ ?_
      ⟨hs, fun c hc => hc⟩ fun c _ hc => fun hn => hc (.inl hn)
    · rintro C t t' new ⟨ht, hD⟩ h
      refine ⟨ht.trans h.haveLoad, fun c hc => (hD c hc).imp h.already fun hc => ?_⟩
      rw [h.exports]
      exact List.mem_append_left _ hc
    · rintro c - hc t ⟨-, hD⟩
      rw [if_pos (hD c hc)]
    · rintro c - - t ⟨ht, -⟩ -
      split
      · exact ⟨[], .refl t⟩
      · exact findExports_adds hv _ (by linarith)
  · exact ⟨[], .refl s⟩

/-- The search for one target, below roots. -/
theorem select_adds (amount : ℚ) (already : List α) (hv : Valid cfg) (hr : Roots T roots) {have₀ : ℚ} (hs : 0 ≤ have₀) :
    ∃ C new, (∀ c, C c → c ∈ roots ∧ c ∉ already) ∧ Adds T cfg amount C ⟨[], have₀, already⟩
      (drillDown T cfg roots amount (selectRoots T cfg roots amount ⟨[], have₀, already⟩)) new := by
  obtain ⟨new, hnew, h⟩ := selectRoots_adds amount (s := ⟨[], have₀, already⟩) hv hr hs
  obtain ⟨new', h'⟩ := drillDown_adds amount hv hr (hs.trans h.haveLoad)
  refine ⟨_, _, ?_, h.trans h' ?_⟩
  · rintro c (hc | hc)
    · exact ⟨hnew c hc, h.unnoted hc⟩
    · exact ⟨hc.1, fun hn => hc.2 (.inl (h.already hn))⟩
  · rintro c c' hc ⟨hc', hn⟩
    refine hr.unrelated.forall (hnew c hc) hc' ?_
    rintro rfl
    refine hn (.inr ?_)
    rw [h.exports]
    exact List.mem_append_right _ hc

/-- Neither is exported twice, nor above the other in its subtree. -/
def Apart (T : DirFrags α) (x y : α) : Prop := x ≠ y ∧ ¬T.Within x y ∧ ¬T.Within y x

omit [DecidableEq α] in
theorem Apart.symm (h : Apart T x y) : Apart T y x := ⟨h.1.symm, h.2.2, h.2.1⟩

omit [DecidableEq α] in
theorem Roots.apart (hr : Roots T roots) (hc : c ∈ roots) (hc' : c' ∈ roots) (hne : c ≠ c') : Apart T c c' :=
  ⟨hne, not_within_root (hr.root c' hc').1, not_within_root (hr.root c hc).1⟩

omit [DecidableEq α] in
theorem Unrelated.apart (hx : T.isAuth x = true) (hy : T.isAuth y = true) (h : T.Unrelated x y) : Apart T x y := by
  refine ⟨?_, fun hw => h.1 (hw.below hx).1, fun hw => h.2 (hw.below hy).1⟩
  rintro rfl
  exact h.1 (.refl x)

/-- What the rebalance keeps: what has been exported is apart, and each import is listed once. -/
structure Good (T : DirFrags α) (roots : List α) (s : Rebalancing α) : Prop where
  apart : (s.exported.map Prod.fst).Pairwise (Apart T)
  auth : ∀ p ∈ s.exported, T.isAuth p.1 = true
  imports : ∀ p ∈ s.importFrom, p.2 ∈ roots
  nodup : (s.importFrom.map Prod.snd).Nodup

/-- The search for a target adds to what has been exported, where nothing of it
is left to be found, and nothing above it can be chosen. -/
theorem Good.selectExports {r : Rebalancing α} {target : ℤ} {have₀ : ℚ} (hv : Valid cfg) (hr : Roots T roots)
    (h : Good T roots r) (hs : 0 ≤ have₀)
    (hc : ∀ d ∈ roots, ∀ p ∈ r.exported, T.Below d p.1 →
      p.1 ∈ r.alreadyExporting ∧ ∀ a, T.Below d a → T.Below a p.1 → a ≠ p.1 → ¬Admits T cfg amount a) :
    Good T roots (Rebalancing.selectExports T cfg roots target amount (have₀, r)) := by
  obtain ⟨C, new, hC, hadds⟩ := select_adds amount r.alreadyExporting hv hr hs
  have hexp : (Rebalancing.selectExports T cfg roots target amount (have₀, r)).exported =
      r.exported ++ new.map fun d => (d, target) := by
    have := hadds.exports
    rw [List.nil_append] at this
    rw [Rebalancing.selectExports, this]
  refine ⟨?_, ?_, h.imports, h.nodup⟩
  · rw [hexp, List.map_append, List.map_map]
    have hid : new.map (Prod.fst ∘ fun d => (d, target)) = new := by
      simp [Function.comp_def]
    rw [hid]
    refine List.pairwise_append.mpr ⟨h.apart, hadds.unrelated.imp_of_mem fun hx hy hu =>
      Unrelated.apart (hadds.admits hx).2.1 (hadds.admits hy).2.1 hu, fun x hx y hy => ?_⟩
    obtain ⟨p, hp, rfl⟩ := List.mem_map.mp hx
    obtain ⟨c, hCc, hcy⟩ := hadds.below hy
    have hc := hc c (hC c hCc).1 p hp
    obtain ⟨hadm, hyA, -⟩ := hadds.admits hy
    have hxy : T.Below c p.1 → ¬T.Below p.1 y := fun hb =>
      hadds.avoids (hc hb).1 (fun hCp => (hC p.1 hCp).2 (hc hb).1) ⟨c, hCc, hb⟩ hy
    refine ⟨?_, fun hw => ?_, fun hw => ?_⟩
    · rintro rfl
      exact hxy hcy (.refl _)
    · exact hxy (hw.above (hr.root c (hC c hCc).1).1 hcy) (hw.below (h.auth p hp)).1
    · have hyx := (hw.below hyA).1
      refine (hc (hcy.trans hyx)).2 y hcy hyx ?_ hadm
      rintro rfl
      exact hxy (hcy.trans hyx) (.refl _)
  · intro p hp
    rw [hexp] at hp
    rcases List.mem_append.mp hp with hp | hp
    · exact h.auth p hp
    · obtain ⟨d, hd, rfl⟩ := List.mem_map.mp hp
      exact (hadds.admits hd).2.1

omit [DecidableEq α] in
/-- Another root is exported. -/
theorem Good.export {r : Rebalancing α} {imports : List (ℤ × α)} (target : ℤ) (hr : Roots T roots) (h : Good T roots r)
    (hd : d ∈ roots) (ha : ∀ p ∈ r.exported, Apart T p.1 d) (hi : imports.Sublist r.importFrom) :
    Good T roots { r with exported := r.exported ++ [(d, target)], importFrom := imports } := by
  refine ⟨?_, ?_, fun p hp => h.imports p (hi.subset hp), h.nodup.sublist (hi.map _)⟩
  · rw [List.map_append, List.map_singleton]
    refine List.pairwise_append.mpr ⟨h.apart, List.pairwise_singleton _ _, fun x hx y hy => ?_⟩
    obtain ⟨p, hp, rfl⟩ := List.mem_map.mp hx
    rw [List.mem_singleton.mp hy]
    exact ha p hp
  · intro p hp
    rcases List.mem_append.mp hp with hp | hp
    · exact h.auth p hp
    · rw [List.mem_singleton.mp hp]
      exact (hr.root d hd).2

/-- The import can go back to where it came from. -/
def Returnable (T : DirFrags α) (amount : ℚ) (d : α) : Prop :=
  ¬(T.inodeIsBase d = true ∨ T.inodeIsStray d = true ∨ T.isFreezing d = true ∨ T.isFrozen d = true) ∧ T.pop d ≤ amount

/-- The imports that go back are apart from what has been exported before. -/
theorem Good.searchImports (cfg : Config) (target : ℤ) (amount : ℚ) {dirs : List α} {r : ℚ × Rebalancing α} (hr : Roots T roots)
    (h : Good T roots r.2) (hs : 0 ≤ r.1) (hdirs : ∀ d ∈ dirs, d ∈ roots) (hnd : dirs.Nodup)
    (ha : ∀ d ∈ dirs, Returnable T amount d → ∀ p ∈ r.2.exported, Apart T p.1 d) :
    Good T roots (Rebalancing.searchImports T cfg target amount dirs r).2 ∧
      0 ≤ (Rebalancing.searchImports T cfg target amount dirs r).1 := by
  induction dirs generalizing r with
  | nil => exact ⟨h, hs⟩
  | cons d ds ih =>
    obtain ⟨hd, hds⟩ := List.nodup_cons.mp hnd
    have hdirs' := fun e he => hdirs e (List.mem_cons_of_mem d he)
    have ha' := fun e he => ha e (List.mem_cons_of_mem d he)
    unfold Rebalancing.searchImports
    split
    · exact ih h hs hdirs' hds ha'
    rename_i hskip
    by_cases hp : T.pop d ≤ amount - r.1
    · simp only [if_pos hp]
      have hg := h.export target hr (hdirs d List.mem_cons_self) (ha d List.mem_cons_self ⟨hskip, by linarith⟩)
        (List.erase_sublist (a := (target, d)))
      have hs' : 0 ≤ r.1 + T.pop d := add_nonneg hs (T.pop_nonneg d)
      split
      · exact ⟨hg, hs'⟩
      · refine ih hg hs' hdirs' hds fun e he hret p hp => ?_
        rcases List.mem_append.mp hp with hp | hp
        · exact ha' e he hret p hp
        · rw [List.mem_singleton.mp hp]
          refine hr.apart (hdirs d List.mem_cons_self) (hdirs' e he) ?_
          rintro rfl
          exact hd he
    · simp only [if_neg hp]
      split
      · exact ⟨h, hs⟩
      · exact ih h hs hdirs' hds ha'

omit [DecidableEq α] in
theorem good_sortImports {whoami : ℤ} (hr : Roots T roots) : Good T roots (sortImports T cfg whoami roots) := by
  have hsort : ∀ (l : List α) (r : Rebalancing α), l.Nodup → (∀ c ∈ l, c ∈ roots) → Good T roots r →
      (∀ p ∈ r.exported, p.1 ∈ roots ∧ p.1 ∉ l) → (∀ p ∈ r.importFrom, p.2 ∉ l) →
      Good T roots (l.foldl (sortImport T cfg whoami) r) := by
    intro l
    induction l with
    | nil => exact fun r _ _ h _ _ => h
    | cons d ds ih =>
      intro r hnd hl h he hi
      obtain ⟨hd, hds⟩ := List.nodup_cons.mp hnd
      have hl' := fun e he => hl e (List.mem_cons_of_mem d he)
      have he' : ∀ p ∈ r.exported, p.1 ∈ roots ∧ p.1 ∉ ds := fun p hp =>
        ⟨(he p hp).1, fun hm => (he p hp).2 (List.mem_cons_of_mem d hm)⟩
      have hi' : ∀ p ∈ r.importFrom, p.2 ∉ ds := fun p hp hm => hi p hp (List.mem_cons_of_mem d hm)
      rw [List.foldl_cons]
      unfold sortImport
      split
      · exact ih r hds hl' h he' hi'
      split
      · refine ih _ hds hl' (h.export _ hr (hl d List.mem_cons_self) (fun p hp => ?_) (List.Sublist.refl _)) (fun p hp => ?_) hi'
        · refine hr.apart (he p hp).1 (hl d List.mem_cons_self) ?_
          intro heq
          exact (he p hp).2 (heq ▸ List.mem_cons_self)
        · rcases List.mem_append.mp hp with hp | hp
          · exact he' p hp
          · rw [List.mem_singleton.mp hp]
            exact ⟨hl d List.mem_cons_self, hd⟩
      · refine ih _ hds hl' ⟨h.apart, h.auth, fun p hp => ?_, ?_⟩ he' fun p hp => ?_
        · rcases List.mem_append.mp hp with hp | hp
          · exact h.imports p hp
          · rw [List.mem_singleton.mp hp]
            exact hl d List.mem_cons_self
        · rw [List.map_append, List.map_singleton]
          refine List.nodup_append.mpr ⟨h.nodup, List.nodup_singleton _, fun x hx y hy => ?_⟩
          obtain ⟨p, hp, rfl⟩ := List.mem_map.mp hx
          rw [List.mem_singleton.mp hy]
          intro heq
          exact hi p hp (heq ▸ List.mem_cons_self)
        · rcases List.mem_append.mp hp with hp | hp
          · exact hi' p hp
          · rw [List.mem_singleton.mp hp]
            exact hd
  refine hsort roots _ hr.nodup (fun c hc => hc) ⟨.nil, ?_, ?_, .nil⟩ ?_ ?_ <;> intro p hp <;> cases hp

/-! ## The run over the targets -/

/-- Nothing that was exported for earlier targets is in an import that can go
back; and where dirfrags are chosen, what was exported before is noted, and
nothing above it is small enough for the amount. -/
def Clear (T : DirFrags α) (cfg : Config) (roots : List α) (s : Rebalancing α) (t : ℤ × ℚ) : Prop :=
  cfg.minOffload ≤ t.2 →
    (∀ d ∈ importsFrom s t.1, Returnable T t.2 d → ∀ p ∈ s.exported, ¬T.Below d p.1) ∧
      (cfg.minOffload ≤ t.2 - (searchImports T cfg t.1 t.2 (importsFrom s t.1) (0, s)).1 →
        ∀ d ∈ roots, ∀ p ∈ (searchImports T cfg t.1 t.2 (importsFrom s t.1) (0, s)).2.exported, T.Below d p.1 →
          p.1 ∈ (searchImports T cfg t.1 t.2 (importsFrom s t.1) (0, s)).2.alreadyExporting ∧
            ∀ a, T.Below d a → T.Below a p.1 → a ≠ p.1 → ¬Admits T cfg t.2 a)

theorem Good.exportTo {t : ℤ × ℚ} {r : Rebalancing α} (hv : Valid cfg) (hr : Roots T roots) (h : Good T roots r)
    (hc : Clear T cfg roots r t) : Good T roots (Rebalancing.exportTo T cfg roots r t) := by
  unfold Rebalancing.exportTo
  split
  · exact h
  rename_i ht
  obtain ⟨hc₁, hc₂⟩ := hc (not_lt.mp ht)
  have hroots : ∀ d ∈ importsFrom r t.1, d ∈ roots := by
    intro d hd
    obtain ⟨p, hp, rfl⟩ := List.mem_map.mp hd
    exact h.imports p (List.mem_filter.mp hp).1
  have hapart : ∀ d ∈ r.importsFrom t.1, Returnable T t.2 d → ∀ p ∈ r.exported, Apart T p.1 d := by
    intro d hd hret p hp
    have hb := hc₁ d hd hret p hp
    refine ⟨?_, not_within_root (hr.root d (hroots d hd)).1, fun hw => hb (hw.below (hr.root d (hroots d hd)).2).1⟩
    rintro rfl
    exact hb (.refl _)
  obtain ⟨hi, hs⟩ := h.searchImports cfg t.1 t.2 (r := (0, r)) hr le_rfl hroots
    (h.nodup.sublist (List.filter_sublist.map _)) hapart
  dsimp only
  split
  · exact hi
  · rename_i hm
    exact hi.selectExports hv hr hs (hc₂ (not_lt.mp hm))

/-- One rebalance, as a run over the targets. -/
def targetStep (T : DirFrags α) (cfg : Config) (roots : List α) (s : Rebalancing α) (t : ℤ × ℚ) :
    Option (Rebalancing α) :=
  some (exportTo T cfg roots s t)

theorem run_targetStep {ts : List (ℤ × ℚ)} {r : Rebalancing α} :
    run (targetStep T cfg roots) r ts = some (ts.foldl (exportTo T cfg roots) r) := by
  induction ts generalizing r with
  | nil => rfl
  | cons t ts ih => exact ih

/-- All that one rebalance exports is apart, if every target is served in a state that is clear for it. -/
theorem tryRebalance_apart {whoami : ℤ} {myTargets : List (ℤ × ℚ)} (hv : Valid cfg) (hr : Roots T roots)
    (hc : Meets (targetStep T cfg roots) (Clear T cfg roots) (sortImports T cfg whoami roots) myTargets) :
    ((tryRebalance T cfg whoami roots myTargets).exported.map Prod.fst).Pairwise (Apart T) := by
  have hgood : Good T roots (tryRebalance T cfg whoami roots myTargets) := by
    refine run_invariant_of (fun s t s' h hclear hs => ?_) (good_sortImports hr) hc run_targetStep
    cases hs
    exact h.exportTo hv hr hclear
  exact hgood.apart

end Target

/-! ## Two targets -/

local instance rootsNeZero : NeZero 3 := ⟨by decide⟩

theorem roots_twoDirs : Roots twoDirs [0] := ⟨by decide, by decide, List.pairwise_singleton _ _⟩

theorem above_twoDirs {a : Fin 3} (h : twoDirs.Below a 1) : a = 1 ∨ a = 0 := by
  have hchild : ∀ z c : Fin 3, c ∈ twoDirs.children z → z = 0 ∧ c ≠ 0 := by decide
  rcases Relation.ReflTransGen.cases_tail h with rfl | ⟨z, h, hz⟩
  · exact .inl rfl
  · rw [(hchild z 1 hz.1).1] at h
    rcases Relation.ReflTransGen.cases_tail h with rfl | ⟨z, -, hz⟩
    · exact .inr rfl
    · exact absurd rfl (hchild z 0 hz.1).2

theorem tryRebalance_apart_twoDirs :
    (tryRebalance twoDirs defaults 0 [0] [(1, 8), (2, 7)]).exported = [(1, 1), (2, 2)] ∧
      ((tryRebalance twoDirs defaults 0 [0] [(1, 8), (2, 7)]).exported.map Prod.fst).Pairwise (Apart twoDirs) := by
  have hv : Valid defaults := fun hook hh => by cases hh
  have h₁ : sortImports twoDirs defaults 0 [0] = ⟨[(0, 0)], [], []⟩ := rfl
  have h₂ : ∀ s', targetStep twoDirs defaults [0] ⟨[(0, 0)], [], []⟩ (1, 8) = some s' →
      s' = ⟨[(0, 0)], [1], [(1, 1)]⟩ := by
    rintro s' hs
    refine (Option.some.inj hs).symm.trans ?_
    decide +kernel
  refine ⟨by decide +kernel, tryRebalance_apart hv roots_twoDirs ?_⟩
  rw [h₁]
  refine ⟨fun _ => ⟨fun d hd => ?_, fun _ d _ p hp => ?_⟩, fun s' hs => ?_⟩
  · cases hd
  · cases hp
  · rw [h₂ s' hs]
    refine ⟨fun _ => ⟨fun d hd => ?_, fun _ d _ p hp _ => ?_⟩, fun _ _ => trivial⟩
    · cases hd
    · obtain rfl := List.mem_singleton.mp hp
      refine ⟨List.mem_singleton.mpr rfl, fun a _ ha hne => ?_⟩
      rcases above_twoDirs ha with rfl | rfl
      · exact absurd rfl hne
      · rintro ⟨need, hneed, h⟩
        have h15 : twoDirs.pop 0 = 15 := rfl
        rw [h15] at h
        simp only [defaults] at h
        rcases h with h | h <;> linarith

/-- The whole directory is small enough for either target, and goes to both. -/
theorem not_tryRebalance_apart : Valid defaults ∧ Roots twoDirs [0] ∧
    (tryRebalance twoDirs defaults 0 [0] [(1, 20), (2, 20)]).exported = [(0, 1), (0, 2)] :=
  ⟨(fun hook hh => by cases hh), roots_twoDirs, by decide +kernel⟩

end CephMds.Rebalance
