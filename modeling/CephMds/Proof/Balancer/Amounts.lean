import CephMds.Proof.Balancer.Exports

/-!
# How much is exported to a target

Every stage of `try_rebalance` adds to `have` the loads of what it exports, and
none starts with more than the amount, so that `have` ends at no more than twice
the amount (`exportTo_load`). `find_exports` compares `have` with what it needs
beyond `have`: when it stops early, `have` is more than `needmin`. `findExports_menu`
reads its loops as one over the candidates, and `FairBefore` and `FairAfter` say
where that loop does not end too early for what was there (`findExports_enough_iff`).
-/

namespace CephMds.Rebalance

open DirFrags Rebalancing

variable {α : Type} [DecidableEq α] {T : DirFrags α} {cfg : Config} {c d : α} {l roots : List α} {amount need enough : ℚ}
  {s s' : Selection α} {new : List α}

/-! ## The overshoot -/

/-- `have` is between 0 and a bound. -/
def Between (bound : ℚ) (s : Selection α) : Prop := 0 ≤ s.haveLoad ∧ s.haveLoad ≤ bound

omit [DecidableEq α] in
theorem Between.double (h : Between amount s) : Between (2 * amount) s := by
  obtain ⟨h₀, ha⟩ := h
  exact ⟨h₀, by linarith⟩

omit [DecidableEq α] in
/-- What a loop leaves: at most twice the amount, and no more than it if the loop has not ended early. -/
theorem untilEnough_between {f : α → Selection α → Selection α} (henough : enough ≤ amount)
    (hf : ∀ c ∈ l, ∀ s, Between amount s → Between (2 * amount) (f c s)) (hs : Between amount s) :
    Between (2 * amount) (untilEnough enough f l s).1 ∧
      ((untilEnough enough f l s).2 = false → Between amount (untilEnough enough f l s).1) := by
  induction l generalizing s with
  | nil => exact ⟨hs.double, fun _ => hs⟩
  | cons d ds ih =>
    have hd := hf d List.mem_cons_self s hs
    unfold untilEnough
    split
    · exact ⟨hd, fun h => absurd h Bool.noConfusion⟩
    · rename_i hle
      exact ih (fun c hc => hf c (List.mem_cons_of_mem d hc)) ⟨hd.1, (not_lt.mp hle).trans henough⟩

omit [DecidableEq α] in
theorem andThen_between {r : Selection α × Bool} {f : Selection α → Selection α × Bool}
    (hr : Between (2 * amount) r.1 ∧ (r.2 = false → Between amount r.1))
    (hf : ∀ s, Between amount s → Between (2 * amount) (f s).1 ∧ ((f s).2 = false → Between amount (f s).1)) :
    Between (2 * amount) (andThen r f).1 ∧ ((andThen r f).2 = false → Between amount (andThen r f).1) := by
  unfold andThen
  cases hb : r.2 with
  | true => exact ⟨hr.1, fun h => absurd (hb.symm.trans h) (by decide)⟩
  | false => exact hf r.1 (hr.2 hb)

omit [DecidableEq α] in
theorem take_between (hc : T.pop c ≤ amount) (hs : Between amount s) : Between (2 * amount) (T.take c s) := by
  have := T.pop_nonneg c
  obtain ⟨h₀, h₁⟩ := hs
  exact ⟨show 0 ≤ s.haveLoad + T.pop c by linarith, show s.haveLoad + T.pop c ≤ 2 * amount by linarith⟩

/-- The built-in selection, with the bounds on its settings. -/
structure BuiltIn (cfg : Config) : Prop where
  howmuch : cfg.howmuch = none
  needMin : cfg.needMin ≤ 1
  needMax : cfg.needMax ≤ 2
  minOffload : 0 ≤ cfg.minOffload

theorem findExports_between (hb : BuiltIn cfg) (h : ℕ) (hs : Between amount s) :
    Between (2 * amount) (T.findExports cfg amount h d s) := by
  induction h generalizing d s with
  | zero => exact hs.double
  | succ h ih =>
    obtain ⟨need, hneed⟩ : ∃ need, need = amount - s.haveLoad := ⟨_, rfl⟩
    have hn₀ : 0 ≤ need := by linarith [hs.2]
    have hna : need ≤ amount := by linarith [hs.1]
    have henough : need * cfg.needMin ≤ amount := (mul_le_of_le_one_right hn₀ hb.needMin).trans hna
    unfold findExports
    simp only [← hneed]
    split
    · exact hs.double
    split
    · rename_i c hc
      -- The lucky find is below `needmax`, at most twice the need.
      have hlucky := List.find?_some hc
      simp only [lucky, decide_eq_true_eq] at hlucky
      have hmax : need * cfg.needMax ≤ need * 2 := mul_le_mul_of_nonneg_left hb.needMax hn₀
      have hpop := T.pop_nonneg c
      have h₀ := hs.1
      exact ⟨show 0 ≤ s.haveLoad + T.pop c by linarith, show s.haveLoad + T.pop c ≤ 2 * amount by linarith⟩
    have hsmaller : ∀ c ∈ T.byPop ((T.subdirs cfg d need s).filter fun c => ¬need < T.pop c), T.pop c ≤ amount := by
      intro c hc
      have := (List.mem_filter.mp (mem_byPop.mp hc)).2
      simp only [not_lt, decide_eq_true_eq] at this
      linarith
    generalize T.byPop ((T.subdirs cfg d need s).filter fun c => ¬need < T.pop c) = S at hsmaller ⊢
    refine (andThen_between (andThen_between (andThen_between ?_ ?_) ?_) ?_).1
    · simp only [takeSmaller, hb.howmuch]
      exact untilEnough_between henough
        (fun c hc _ => take_between (hsmaller c ((List.takeWhile_sublist _).subset hc))) hs
    · exact fun s hs => untilEnough_between henough (fun c _ _ => ih) hs
    · intro s hs
      have hnone : cfg.howmuch.isSome = false := by rw [hb.howmuch]; rfl
      rw [takeMuchSmaller, if_neg (by simp [hnone])]
      exact untilEnough_between henough
        (fun c hc _ => take_between (hsmaller c ((List.dropWhile_sublist _).subset hc))) hs
    · exact fun s hs => untilEnough_between henough (fun c _ _ => ih) hs

/-! ## One target -/

/-- `have`, when the target has been served. -/
def Rebalancing.haveFor (T : DirFrags α) (cfg : Config) (roots : List α) (s : Rebalancing α) (t : ℤ × ℚ) : ℚ :=
  if t.2 < cfg.minOffload then 0
  else
    let r := searchImports T cfg t.1 t.2 (s.importsFrom t.1) (0, s)
    if t.2 - r.1 < cfg.minOffload then r.1
    else (drillDown T cfg roots t.2 (selectRoots T cfg roots t.2 ⟨[], r.1, r.2.alreadyExporting⟩)).haveLoad

/-- The imports that go back are exported with their loads; none of them belongs to a base inode. -/
theorem searchImports_exported {target : ℤ} {dirs : List α} {r : ℚ × Rebalancing α} :
    ∃ new : List α, (searchImports T cfg target amount dirs r).2.exported =
        r.2.exported ++ new.map (fun d => (d, target)) ∧
      (searchImports T cfg target amount dirs r).1 = r.1 + (new.map T.pop).sum ∧
      (∀ d ∈ new, d ∈ dirs ∧ T.inodeIsBase d = false) ∧
      (searchImports T cfg target amount dirs r).2.importFrom.Sublist r.2.importFrom := by
  induction dirs generalizing r with
  | nil => exact ⟨[], (List.append_nil _).symm, (add_zero _).symm, fun d hd => absurd hd List.not_mem_nil, .refl _⟩
  | cons d ds ih =>
    unfold searchImports
    split
    · obtain ⟨new, hexp, hsum, hnew, hsub⟩ := ih (r := r)
      exact ⟨new, hexp, hsum, fun x hx => ⟨List.mem_cons_of_mem d (hnew x hx).1, (hnew x hx).2⟩, hsub⟩
    rename_i hskip
    have hbase : T.inodeIsBase d = false := by
      rw [not_or, Bool.not_eq_true] at hskip
      exact hskip.1
    by_cases hp : T.pop d ≤ amount - r.1
    · simp only [if_pos hp]
      split
      · refine ⟨[d], rfl, by simp, fun x hx => ?_, List.erase_sublist⟩
        rw [List.mem_singleton.mp hx]
        exact ⟨List.mem_cons_self, hbase⟩
      · obtain ⟨new, hexp, hsum, hnew, hsub⟩ := ih
          (r := (r.1 + T.pop d, { r.2 with
            exported := r.2.exported ++ [(d, target)], importFrom := r.2.importFrom.erase (target, d) }))
        refine ⟨d :: new, ?_, ?_, fun x hx => ?_, hsub.trans List.erase_sublist⟩
        · rw [hexp, List.append_assoc, List.singleton_append, List.map_cons]
        · rw [hsum, List.map_cons, List.sum_cons]
          ring
        · rcases List.mem_cons.mp hx with rfl | hx
          · exact ⟨List.mem_cons_self, hbase⟩
          · exact ⟨List.mem_cons_of_mem d (hnew x hx).1, (hnew x hx).2⟩
    · simp only [if_neg hp]
      split
      · exact ⟨[], (List.append_nil _).symm, (add_zero _).symm, fun x hx => absurd hx List.not_mem_nil, .refl _⟩
      · obtain ⟨new, hexp, hsum, hnew, hsub⟩ := ih (r := r)
        exact ⟨new, hexp, hsum, fun x hx => ⟨List.mem_cons_of_mem d (hnew x hx).1, (hnew x hx).2⟩, hsub⟩

/-- They are worth at most the amount. -/
theorem searchImports_between {target : ℤ} {dirs : List α} {r : ℚ × Rebalancing α} (h₀ : 0 ≤ r.1) (ha : r.1 ≤ amount) :
    0 ≤ (searchImports T cfg target amount dirs r).1 ∧ (searchImports T cfg target amount dirs r).1 ≤ amount := by
  induction dirs generalizing r with
  | nil => exact ⟨h₀, ha⟩
  | cons d ds ih =>
    unfold searchImports
    split
    · exact ih h₀ ha
    by_cases hp : T.pop d ≤ amount - r.1
    · have hd := T.pop_nonneg d
      simp only [if_pos hp]
      split
      · exact ⟨by dsimp only; linarith, by dsimp only; linarith⟩
      · exact ih (by dsimp only; linarith) (by dsimp only; linarith)
    · simp only [if_neg hp]
      split
      · exact ⟨h₀, ha⟩
      · exact ih h₀ ha

/-- Of the own workload, `have` counts what is exported. -/
theorem drillDown_exported : ∃ new, Exported T s (drillDown T cfg roots amount (selectRoots T cfg roots amount s)) new := by
  have hsel : ∃ new, Exported T s (selectRoots T cfg roots amount s) new := by
    unfold selectRoots
    cases cfg.howmuch with
    | some hook =>
      exact luahook_invariant (P := fun t => ∃ new, Exported T s t new) (fun c _ t ⟨new, h⟩ => ⟨_, h.take c⟩) ⟨[], .refl s⟩
    | none =>
      exact untilEnough_invariant (P := fun t => ∃ new, Exported T s t new) (fun c _ t ⟨new, h⟩ => ⟨_, h.push c⟩) ⟨[], .refl s⟩
  unfold drillDown
  split
  · refine untilEnough_invariant (P := fun t => ∃ new, Exported T s t new) (fun pot _ t ht => ?_) hsel
    split
    · exact ht
    · exact findExports_invariant (P := fun t => ∃ new, Exported T s t new) _ (fun c _ t ⟨new, h⟩ => ⟨_, h.take c⟩) ht
  · exact hsel

theorem drillDown_between (hb : BuiltIn cfg) (hs : Between amount s) :
    Between (2 * amount) (drillDown T cfg roots amount (selectRoots T cfg roots amount s)) := by
  have hmin : (0 : ℚ) ≤ cfg.minOffload := by exact_mod_cast hb.minOffload
  have henough : amount - cfg.minOffload ≤ amount := by linarith
  have hsel : Between (2 * amount) (selectRoots T cfg roots amount s) := by
    simp only [selectRoots, hb.howmuch]
    refine (untilEnough_between henough (fun c hc t ht => ?_) hs).1
    -- A whole root is smaller than what was missing at first.
    have hpop := (List.mem_filter.mp (mem_byPop.mp hc)).2
    simp only [Bool.and_eq_true, decide_eq_true_eq] at hpop
    have h₀ := hs.1
    exact take_between (by linarith [hpop.2]) ht
  unfold drillDown
  split
  · rename_i hless
    refine (untilEnough_between henough (fun pot _ t ht => ?_) ⟨hsel.1, hless.le.trans henough⟩).1
    split
    · exact ht.double
    · exact findExports_between hb _ ht
  · exact hsel

/-- What is exported to a target has the load `have`, at most twice the amount. -/
theorem exportTo_load (hb : BuiltIn cfg) (roots : List α) (s : Rebalancing α) (t : ℤ × ℚ) :
    ∃ new : List α, (exportTo T cfg roots s t).exported = s.exported ++ new.map (fun d => (d, t.1)) ∧
      haveFor T cfg roots s t = (new.map T.pop).sum ∧ (0 ≤ t.2 → haveFor T cfg roots s t ≤ 2 * t.2) ∧
      (t.2 < cfg.minOffload → new = []) := by
  unfold exportTo haveFor
  split
  · exact ⟨[], (List.append_nil _).symm, rfl, fun h => by linarith, fun _ => rfl⟩
  rename_i ht
  have hmin : (0 : ℚ) ≤ cfg.minOffload := by exact_mod_cast hb.minOffload
  have hle : (0, s).1 ≤ t.2 := by dsimp only; linarith [not_lt.mp ht]
  obtain ⟨back, hback, hsum, -⟩ : ∃ new : List α,
      (searchImports T cfg t.1 t.2 (s.importsFrom t.1) (0, s)).2.exported = s.exported ++ new.map (fun d => (d, t.1)) ∧
      (searchImports T cfg t.1 t.2 (s.importsFrom t.1) (0, s)).1 = 0 + (new.map T.pop).sum ∧
      (∀ d ∈ new, d ∈ s.importsFrom t.1 ∧ T.inodeIsBase d = false) ∧
      (searchImports T cfg t.1 t.2 (s.importsFrom t.1) (0, s)).2.importFrom.Sublist s.importFrom := searchImports_exported
  obtain ⟨h₀, ha⟩ : 0 ≤ (searchImports T cfg t.1 t.2 (s.importsFrom t.1) (0, s)).1 ∧
      (searchImports T cfg t.1 t.2 (s.importsFrom t.1) (0, s)).1 ≤ t.2 := searchImports_between le_rfl hle
  generalize searchImports T cfg t.1 t.2 (s.importsFrom t.1) (0, s) = r at *
  dsimp only at hback hsum ⊢
  rw [zero_add] at hsum
  split
  · exact ⟨back, hback, hsum, fun _ => by linarith, fun h => absurd h ht⟩
  obtain ⟨own, hown⟩ : ∃ new, Exported T ⟨[], r.1, r.2.alreadyExporting⟩
      (drillDown T cfg roots t.2 (selectRoots T cfg roots t.2 ⟨[], r.1, r.2.alreadyExporting⟩)) new := drillDown_exported
  refine ⟨back ++ own, ?_, ?_, fun _ => ?_, fun h => absurd h ht⟩
  · rw [selectExports, hown.exports, hback, List.nil_append, List.map_append, List.append_assoc]
  · rw [hown.haveLoad, List.map_append, List.sum_append, hsum]
  · exact (drillDown_between hb ⟨h₀, ha⟩).2

theorem builtIn_defaults : BuiltIn defaults := ⟨rfl, by decide +kernel, by decide +kernel, le_rfl⟩

theorem exportTo_load_twoDirs : haveFor twoDirs defaults [0] ⟨[], [], []⟩ (1, 8) = 8 ∧
    ∃ new : List (Fin 3), (exportTo twoDirs defaults [0] ⟨[], [], []⟩ (1, 8)).exported = new.map (fun d => (d, 1)) ∧
      haveFor twoDirs defaults [0] ⟨[], [], []⟩ (1, 8) = (new.map twoDirs.pop).sum := by
  obtain ⟨new, hexp, hsum, -⟩ := exportTo_load (T := twoDirs) builtIn_defaults [0] ⟨[], [], []⟩ (1, 8)
  exact ⟨by decide +kernel, new, hexp, hsum⟩

/-! ## Stopping early -/

namespace DirFrags

omit [DecidableEq α] in
/-- The dirfrags that the loop runs for. -/
def ran (enough : ℚ) (f : α → Selection α → Selection α) : List α → Selection α → List α
  | [], _ => []
  | d :: ds, s => d :: if enough < (f d s).haveLoad then [] else ran enough f ds (f d s)

/-- The candidates in the order in which `find_exports` comes to them. -/
def menu (T : DirFrags α) (cfg : Config) (amount : ℚ) (dir : α) (s : Selection α) : List α :=
  let need := amount - s.haveLoad
  let subdirs := T.subdirs cfg dir need s
  let smaller := T.byPop (subdirs.filter fun c => ¬need < T.pop c)
  let bigger := subdirs.filter fun c => need < T.pop c
  (smaller.takeWhile fun c => ¬T.pop c < need * cfg.midchunk) ++ bigger.filter (fun c => !T.isRep c) ++
    (smaller.dropWhile fun c => ¬T.pop c < need * cfg.midchunk) ++ bigger.filter T.isRep

/-- A smaller one is taken, and a bigger one searched. -/
def serve (T : DirFrags α) (cfg : Config) (amount need : ℚ) (h : ℕ) (c : α) (s : Selection α) : Selection α :=
  if need < T.pop c then T.findExports cfg amount h c s else T.take c s

/-- The candidates that `find_exports` comes to before it returns. -/
def served (T : DirFrags α) (cfg : Config) (amount : ℚ) (h : ℕ) (dir : α) (s : Selection α) : List α :=
  ran ((amount - s.haveLoad) * cfg.needMin) (T.serve cfg amount (amount - s.haveLoad) h) (T.menu cfg amount dir s) s

/-- The bigger subdirectories that `find_exports` descends into. -/
def descended (T : DirFrags α) (cfg : Config) (amount : ℚ) (h : ℕ) (dir : α) (s : Selection α) : List α :=
  let need := amount - s.haveLoad
  if need < amount * cfg.minStart ∨ ((T.subdirs cfg dir need s).find? (T.lucky cfg need)).isSome then []
  else (T.served cfg amount h dir s).filter fun c => need < T.pop c

/-- Nothing below the dirfrag can be exported. -/
def Barren (T : DirFrags α) (noted : List α) (b : α) : Prop :=
  ∀ c ∈ T.children b, T.isAuth c = true → T.isFrozen c = true ∨ c ∈ noted

instance decidableBarren (T : DirFrags α) (noted : List α) (b : α) : Decidable (T.Barren noted b) :=
  inferInstanceAs (Decidable (∀ _ ∈ _, _))

/-- The load of the smaller ones, which are taken themselves. -/
def worth (T : DirFrags α) (need : ℚ) (l : List α) : ℚ := ((l.filter fun c => ¬need < T.pop c).map T.pop).sum

end DirFrags

omit [DecidableEq α] in
/-- Two loops, the second of which runs if the first has not ended early. -/
theorem untilEnough_append {f : α → Selection α → Selection α} {l' : List α} :
    andThen (untilEnough enough f l s) (untilEnough enough f l') = untilEnough enough f (l ++ l') s := by
  induction l generalizing s with
  | nil => rfl
  | cons d ds ih =>
    rw [List.cons_append, untilEnough, untilEnough]
    split
    · rfl
    · exact ih

omit [DecidableEq α] in
/-- What the loop has run for, and what comes after. -/
theorem untilEnough_ran {f : α → Selection α → Selection α} : ∃ ys, l = ran enough f l s ++ ys ∧
    (untilEnough enough f l s).1 = (ran enough f l s).foldl (fun s c => f c s) s ∧
    (ys ≠ [] → ran enough f l s ≠ [] ∧ enough < (untilEnough enough f l s).1.haveLoad) := by
  induction l generalizing s with
  | nil => exact ⟨[], rfl, rfl, fun h => absurd rfl h⟩
  | cons d ds ih =>
    unfold ran untilEnough
    by_cases he : enough < (f d s).haveLoad
    · rw [if_pos he, if_pos he]
      exact ⟨ds, rfl, rfl, fun _ => ⟨List.cons_ne_nil _ _, he⟩⟩
    · rw [if_neg he, if_neg he]
      obtain ⟨ys, hys, hrun, hstop⟩ := ih (s := f d s)
      exact ⟨ys, congrArg (d :: ·) hys, hrun, fun h => ⟨List.cons_ne_nil _ _, (hstop h).2⟩⟩

omit [DecidableEq α] in
/-- The loop ends where there is enough, if not before. -/
theorem ran_prefix {f : α → Selection α → Selection α} {xs : List α} (ys : List α) (hne : xs ≠ [])
    (he : enough < (xs.foldl (fun s c => f c s) s).haveLoad) : ∃ zs, xs = ran enough f (xs ++ ys) s ++ zs := by
  induction xs generalizing s with
  | nil => exact absurd rfl hne
  | cons x xs ih =>
    rw [List.cons_append, ran]
    by_cases hx : enough < (f x s).haveLoad
    · rw [if_pos hx]
      exact ⟨xs, rfl⟩
    · rw [if_neg hx]
      rcases eq_or_ne xs [] with rfl | hxs
      · exact absurd he hx
      · obtain ⟨zs, hzs⟩ := ih hxs he
        exact ⟨zs, congrArg (x :: ·) hzs⟩

/-! ### The candidates -/

variable {h : ℕ}

/-- Where nothing is lucky, the loops of `find_exports` are one over the candidates. -/
theorem findExports_menu (hn : cfg.howmuch = none) (hgood : ¬amount - s.haveLoad < amount * cfg.minStart)
    (hlucky : (T.subdirs cfg d (amount - s.haveLoad) s).find? (T.lucky cfg (amount - s.haveLoad)) = none) :
    T.findExports cfg amount (h + 1) d s =
      (untilEnough ((amount - s.haveLoad) * cfg.needMin) (T.serve cfg amount (amount - s.haveLoad) h)
        (T.menu cfg amount d s) s).1 := by
  unfold findExports menu
  simp only [if_neg hgood, hlucky]
  generalize amount - s.haveLoad = need
  have hsmall : ∀ p ⊆ T.byPop ((T.subdirs cfg d need s).filter fun c => ¬need < T.pop c),
      untilEnough (need * cfg.needMin) T.take p = untilEnough (need * cfg.needMin) (T.serve cfg amount need h) p := by
    refine fun p hp => funext fun t => untilEnough_congr fun c hc t => ?_
    have hc := (List.mem_filter.mp (mem_byPop.mp (hp hc))).2
    rw [serve, if_neg (by simpa using hc)]
  have hbig : ∀ p : α → Bool, untilEnough (need * cfg.needMin) (T.findExports cfg amount h)
        (((T.subdirs cfg d need s).filter fun c => need < T.pop c).filter p) =
      untilEnough (need * cfg.needMin) (T.serve cfg amount need h)
        (((T.subdirs cfg d need s).filter fun c => need < T.pop c).filter p) := by
    refine fun p => funext fun t => untilEnough_congr fun c hc t => ?_
    have hc := (List.mem_filter.mp (List.mem_filter.mp hc).1).2
    rw [serve, if_pos (by simpa using hc)]
  have hmuch : ∀ S : List α, T.takeMuchSmaller cfg need S = untilEnough (need * cfg.needMin) T.take
      (S.dropWhile fun c => ¬T.pop c < need * cfg.midchunk) := by
    refine fun S => funext fun t => ?_
    rw [takeMuchSmaller, if_neg (by simp [hn])]
  rw [← untilEnough_append, ← untilEnough_append, ← untilEnough_append, takeSmaller, hn, hmuch, hbig, hbig]
  simp only [hsmall _ (List.takeWhile_sublist _).subset, hsmall _ (List.dropWhile_sublist _).subset]

theorem menu_perm : (T.menu cfg amount d s).Perm (T.subdirs cfg d (amount - s.haveLoad) s) := by
  unfold menu
  dsimp only
  generalize amount - s.haveLoad = need
  obtain ⟨S, hS⟩ : ∃ S, S = T.byPop ((T.subdirs cfg d need s).filter fun c => ¬need < T.pop c) := ⟨_, rfl⟩
  have hperm : S.Perm ((T.subdirs cfg d need s).filter fun c => ¬need < T.pop c) :=
    hS ▸ (List.reverse_perm _).trans (List.perm_insertionSort _ _)
  rw [← hS]
  refine List.perm_iff_count.mpr fun a => ?_
  have happ := congrArg (List.count a)
    (List.takeWhile_append_dropWhile (p := fun c => decide ¬T.pop c < need * cfg.midchunk) (l := S))
  have hbig := (List.filter_append_perm T.isRep ((T.subdirs cfg d need s).filter fun c => need < T.pop c)).count_eq a
  have hall := (List.filter_append_perm (fun c => decide (need < T.pop c)) (T.subdirs cfg d need s)).count_eq a
  have hsmall := hperm.count_eq a
  simp only [List.count_append, ← decide_not] at happ hbig hall ⊢
  omega

theorem mem_menu : c ∈ T.menu cfg amount d s ↔ c ∈ T.subdirs cfg d (amount - s.haveLoad) s := menu_perm.mem_iff

theorem nodup_menu : (T.menu cfg amount d s).Nodup := menu_perm.nodup_iff.mpr ((T.nodup_children d).filter _)

/-! ### What the loop adds -/

omit [DecidableEq α] in
theorem worth_cons : T.worth need (c :: l) = (if need < T.pop c then 0 else T.pop c) + T.worth need l := by
  unfold worth
  split
  · rename_i hbig
    rw [List.filter_cons_of_neg (by simpa using hbig), zero_add]
  · rename_i hbig
    rw [List.filter_cons_of_pos (by simpa using hbig), List.map_cons, List.sum_cons]

omit [DecidableEq α] in
theorem worth_nonneg : 0 ≤ T.worth need l :=
  List.sum_nonneg fun p hp => by
    obtain ⟨c, -, rfl⟩ := List.mem_map.mp hp
    exact T.pop_nonneg c

omit [DecidableEq α] in
theorem worth_append {l' : List α} : T.worth need (l ++ l') = T.worth need l + T.worth need l' := by
  simp [worth, List.filter_append]

/-- A search takes nothing back. -/
theorem findExports_grows : s.haveLoad ≤ (T.findExports cfg amount h d s).haveLoad ∧
    s.exports ⊆ (T.findExports cfg amount h d s).exports ∧
    s.alreadyExporting ⊆ (T.findExports cfg amount h d s).alreadyExporting := by
  obtain ⟨new, hnew, hnoted, -⟩ : ∃ new, Exported T s (T.findExports cfg amount h d s) new ∧
    (T.findExports cfg amount h d s).alreadyExporting = new.reverse ++ s.alreadyExporting ∧
    ∀ y ∈ new, T.Ancestor d y := findExports_exported h
  refine ⟨?_, hnew.exports ▸ List.subset_append_left _ _, hnoted ▸ List.subset_append_right _ _⟩
  rw [hnew.haveLoad]
  exact le_add_of_nonneg_right (List.sum_nonneg fun p hp => by
    obtain ⟨c, -, rfl⟩ := List.mem_map.mp hp
    exact T.pop_nonneg c)

/-- What has been served is exported or searched, and adds at least what it is worth. -/
theorem foldl_serve (T : DirFrags α) (cfg : Config) (amount need : ℚ) (h : ℕ) (l : List α) (s : Selection α) :
    s.haveLoad + T.worth need l ≤ (l.foldl (fun s c => T.serve cfg amount need h c s) s).haveLoad ∧
    s.exports ⊆ (l.foldl (fun s c => T.serve cfg amount need h c s) s).exports ∧
    ∀ c ∈ l, ¬need < T.pop c → c ∈ (l.foldl (fun s c => T.serve cfg amount need h c s) s).exports := by
  induction l generalizing s with
  | nil => exact ⟨by simp [worth], List.Subset.refl _, fun c hc => absurd hc List.not_mem_nil⟩
  | cons d ds ih =>
    obtain ⟨h₁, h₂, h₃⟩ := ih (T.serve cfg amount need h d s)
    have hstep : s.haveLoad + (if need < T.pop d then 0 else T.pop d) ≤ (T.serve cfg amount need h d s).haveLoad ∧
        s.exports ⊆ (T.serve cfg amount need h d s).exports ∧
        (¬need < T.pop d → d ∈ (T.serve cfg amount need h d s).exports) := by
      unfold serve
      split
      · rename_i hbig
        obtain ⟨hle, hsub, -⟩ : s.haveLoad ≤ (T.findExports cfg amount h d s).haveLoad ∧
          s.exports ⊆ (T.findExports cfg amount h d s).exports ∧ _ := findExports_grows
        exact ⟨by rwa [add_zero], hsub, fun hno => absurd hbig hno⟩
      · exact ⟨le_rfl, List.subset_append_left _ _, fun _ => List.mem_append_right _ (List.mem_singleton_self d)⟩
    rw [List.foldl_cons]
    refine ⟨?_, List.Subset.trans hstep.2.1 h₂, fun c hc hno => ?_⟩
    · rw [worth_cons, ← add_assoc]
      exact (add_le_add_left hstep.1 _).trans h₁
    · rcases List.mem_cons.mp hc with rfl | hc
      · exact h₂ (hstep.2.2 hno)
      · exact h₃ c hc hno

/-- A search of a dirfrag below which nothing can be exported does nothing. -/
theorem findExports_barren (hn : cfg.howmuch = none) (hb : Barren T s.alreadyExporting d) :
    T.findExports cfg amount h d s = s := by
  cases h with
  | zero => rfl
  | succ h =>
    have hnone : ∀ need, T.subdirs cfg d need s = [] := by
      refine fun need => List.filter_eq_nil_iff.mpr fun c hc => ?_
      cases ha : T.isAuth c with
      | false => simp
      | true => rcases hb c hc ha with hf | hn <;> simp [*]
    by_cases hgood : amount - s.haveLoad < amount * cfg.minStart
    · unfold findExports
      exact if_pos hgood
    · have hmenu : T.menu cfg amount d s = [] := List.perm_nil.mp (hnone (amount - s.haveLoad) ▸ menu_perm)
      rw [findExports_menu hn hgood (by rw [hnone]; rfl), hmenu]
      rfl

/-- Where the bigger ones are barren, exactly the others are added. -/
theorem foldl_serve_barren (amount : ℚ) (h : ℕ) (hn : cfg.howmuch = none)
    (hb : ∀ b ∈ l, need < T.pop b → Barren T s.alreadyExporting b) :
    (l.foldl (fun s c => T.serve cfg amount need h c s) s).haveLoad = s.haveLoad + T.worth need l ∧
      (l.foldl (fun s c => T.serve cfg amount need h c s) s).exports =
        s.exports ++ l.filter fun c => ¬need < T.pop c := by
  induction l generalizing s with
  | nil => simp [worth]
  | cons d ds ih =>
    rw [List.foldl_cons, worth_cons, serve]
    by_cases hbig : need < T.pop d
    · rw [if_pos hbig, findExports_barren hn (hb d List.mem_cons_self hbig), if_pos hbig, zero_add,
        List.filter_cons_of_neg (by simpa using hbig)]
      exact ih fun b hb' => hb b (List.mem_cons_of_mem d hb')
    · rw [if_neg hbig, if_neg hbig, List.filter_cons_of_pos (by simpa using hbig)]
      obtain ⟨h₁, h₂⟩ := ih (s := T.take d s) fun b hb' hlt c hc ha =>
        (hb b (List.mem_cons_of_mem d hb') hlt c hc ha).imp_right (List.mem_cons_of_mem d)
      refine ⟨?_, ?_⟩
      · rw [h₁]
        exact add_assoc _ _ _
      · rw [h₂]
        exact List.append_assoc s.exports [d] _

/-! ### The claim and its condition -/

/-- A subdirectory that could be exported is neither exported nor descended into. -/
def Leaves (T : DirFrags α) (cfg : Config) (amount : ℚ) (d : α) (s : Selection α) (c : α) : Prop :=
  c ∈ T.subdirs cfg d (amount - s.haveLoad) s ∧ c ∉ (T.findExports cfg amount (T.height d + 1) d s).exports ∧
    c ∉ T.descended cfg amount (T.height d) d s

/-- A search that leaves something has added more than `needmin`, or was not needed. -/
def StopsEnough (T : DirFrags α) (cfg : Config) (amount : ℚ) (d : α) (s : Selection α) : Prop :=
  ∀ c, Leaves T cfg amount d s c →
    (amount - s.haveLoad) * cfg.needMin < (T.findExports cfg amount (T.height d + 1) d s).haveLoad - s.haveLoad ∨
      amount - s.haveLoad < amount * cfg.minStart

/-- The candidates `xs` are worth more than `needmin`, or none of those after them is left. -/
def Enough (T : DirFrags α) (cfg : Config) (amount : ℚ) (s : Selection α) (xs ys : List α) : Prop :=
  (amount - s.haveLoad) * cfg.needMin < T.worth (amount - s.haveLoad) xs ∨ ∀ y ∈ ys, y ∈ s.exports

/-- Where nothing can be found below the bigger ones so far: as soon as there is
more than `needmin` together with `have`, there is enough. -/
def FairBefore (T : DirFrags α) (cfg : Config) (amount : ℚ) (d : α) (s : Selection α) : Prop :=
  ∀ xs ys, T.menu cfg amount d s = xs ++ ys → xs ≠ [] →
    (∀ b ∈ xs, amount - s.haveLoad < T.pop b → Barren T s.alreadyExporting b) →
    (amount - s.haveLoad) * cfg.needMin < s.haveLoad + T.worth (amount - s.haveLoad) xs → Enough T cfg amount s xs ys

/-- As soon as something may be found below a bigger one, there is enough without it. -/
def FairAfter (T : DirFrags α) (cfg : Config) (amount : ℚ) (d : α) (s : Selection α) : Prop :=
  ∀ xs ys, T.menu cfg amount d s = xs ++ ys →
    (∃ b ∈ xs, amount - s.haveLoad < T.pop b ∧ ¬Barren T s.alreadyExporting b) → Enough T cfg amount s xs ys

/-- Nothing was there at entry, or nothing is needed, or a candidate is lucky, or the search is fair. -/
def Unbiased (T : DirFrags α) (cfg : Config) (amount : ℚ) (d : α) (s : Selection α) (fair : Prop) : Prop :=
  s.haveLoad ≤ 0 ∨ amount - s.haveLoad < amount * cfg.minStart ∨
    (∃ c ∈ T.subdirs cfg d (amount - s.haveLoad) s, T.lucky cfg (amount - s.haveLoad) c = true) ∨ fair

/-- What has been served, and what comes after. -/
theorem findExports_served (hn : cfg.howmuch = none) (hgood : ¬amount - s.haveLoad < amount * cfg.minStart)
    (hlucky : (T.subdirs cfg d (amount - s.haveLoad) s).find? (T.lucky cfg (amount - s.haveLoad)) = none) :
    ∃ ys, T.menu cfg amount d s = T.served cfg amount h d s ++ ys ∧
      T.findExports cfg amount (h + 1) d s =
        (T.served cfg amount h d s).foldl (fun t c => T.serve cfg amount (amount - s.haveLoad) h c t) s ∧
      (ys ≠ [] → T.served cfg amount h d s ≠ [] ∧
        (amount - s.haveLoad) * cfg.needMin < (T.findExports cfg amount (h + 1) d s).haveLoad) := by
  rw [findExports_menu hn hgood hlucky]
  exact untilEnough_ran

/-- Without luck, what has been served is exported or descended into, and the rest is left unless it was exported before. -/
theorem leaves_iff (hn : cfg.howmuch = none) (hgood : ¬amount - s.haveLoad < amount * cfg.minStart)
    (hlucky : (T.subdirs cfg d (amount - s.haveLoad) s).find? (T.lucky cfg (amount - s.haveLoad)) = none) :
    Leaves T cfg amount d s c ↔ c ∈ T.menu cfg amount d s ∧ c ∉ T.served cfg amount (T.height d) d s ∧
      c ∉ (T.findExports cfg amount (T.height d + 1) d s).exports := by
  obtain ⟨ys, -, hrun, -⟩ := findExports_served (T := T) (d := d) (s := s) (h := T.height d) hn hgood hlucky
  have hdesc : T.descended cfg amount (T.height d) d s =
      (T.served cfg amount (T.height d) d s).filter fun c => amount - s.haveLoad < T.pop c := by
    unfold descended
    exact if_neg (by rw [hlucky]; simp [hgood])
  unfold Leaves
  rw [mem_menu, hdesc, List.mem_filter]
  constructor
  · rintro ⟨hsub, hexp, hno⟩
    refine ⟨hsub, fun hserved => ?_, hexp⟩
    by_cases hbig : amount - s.haveLoad < T.pop c
    · exact hno ⟨hserved, decide_eq_true hbig⟩
    · rw [hrun] at hexp
      exact hexp ((foldl_serve _ _ _ _ _ _ _).2.2 c hserved hbig)
  · rintro ⟨hsub, hserved, hexp⟩
    exact ⟨hsub, hexp, fun hc => hserved hc.1⟩

theorem find?_lucky : (T.subdirs cfg d need s).find? (T.lucky cfg need) = none ↔
    ¬∃ c ∈ T.subdirs cfg d need s, T.lucky cfg need c = true := by
  simp [List.find?_eq_none]

/-- Where the condition holds, a search that leaves something has found enough. -/
theorem Unbiased.stopsEnough (hn : cfg.howmuch = none)
    (hc : Unbiased T cfg amount d s (FairBefore T cfg amount d s ∧ FairAfter T cfg amount d s)) :
    StopsEnough T cfg amount d s := by
  intro c hleaves
  by_cases hgood : amount - s.haveLoad < amount * cfg.minStart
  · exact .inr hgood
  refine .inl ?_
  cases hfind : (T.subdirs cfg d (amount - s.haveLoad) s).find? (T.lucky cfg (amount - s.haveLoad)) with
  | some e =>
    have hlucky := List.find?_some hfind
    simp only [lucky, decide_eq_true_eq] at hlucky
    have hrun : T.findExports cfg amount (T.height d + 1) d s = T.take e s := by
      unfold findExports
      simp only [if_neg hgood, hfind]
    rw [hrun]
    show _ < s.haveLoad + T.pop e - s.haveLoad
    linarith
  | none =>
    obtain ⟨ys, hys, hrun, hstop⟩ := findExports_served (T := T) (d := d) (s := s) (h := T.height d) hn hgood hfind
    obtain ⟨hmenu, hserved, hexp⟩ := (leaves_iff hn hgood hfind).mp hleaves
    have hc' : c ∈ ys := by
      rw [hys] at hmenu
      exact (List.mem_append.mp hmenu).resolve_left hserved
    obtain ⟨hne, hmin⟩ := hstop (List.ne_nil_of_mem hc')
    obtain ⟨hworth, hkept, -⟩ := foldl_serve T cfg amount (amount - s.haveLoad) (T.height d)
      (T.served cfg amount (T.height d) d s) s
    rw [← hrun] at hworth hkept
    rcases hc with h₀ | hgood' | hlucky | ⟨hbefore, hafter⟩
    · linarith
    · exact absurd hgood' hgood
    · exact absurd hlucky (find?_lucky.mp hfind)
    · -- either the worth of what was served is known, or more may lie below it
      have henough : Enough T cfg amount s (T.served cfg amount (T.height d) d s) ys := by
        by_cases hb : ∃ b ∈ T.served cfg amount (T.height d) d s,
            amount - s.haveLoad < T.pop b ∧ ¬Barren T s.alreadyExporting b
        · exact hafter _ ys hys hb
        · push Not at hb
          rw [hrun, (foldl_serve_barren _ _ hn hb).1] at hmin
          exact hbefore _ ys hys hne hb hmin
      rcases henough with hless | hnone
      · linarith
      · exact absurd (hkept (hnone c hc')) hexp

/-- Where it is not fair, and has come to nothing below which more may lie, it has ended too early. -/
theorem StopsEnough.unbiased (hn : cfg.howmuch = none) (hs : StopsEnough T cfg amount d s) :
    Unbiased T cfg amount d s (FairBefore T cfg amount d s) := by
  by_contra hc
  unfold Unbiased at hc
  rw [not_or, not_or, not_or] at hc
  obtain ⟨-, hgood, hlucky, hfair⟩ := hc
  have hlucky := find?_lucky.mpr hlucky
  obtain ⟨ys, -, hrun, -⟩ := findExports_served (T := T) (d := d) (s := s) (h := T.height d) hn hgood hlucky
  unfold FairBefore Enough at hfair
  push Not at hfair
  obtain ⟨xs, rest, hmenu, hne, hbarren, hmin, hless, y, hy, hexp⟩ := hfair
  have hadd := foldl_serve_barren amount (T.height d) hn hbarren
  rw [← hadd.1] at hmin
  -- the search has ended by then, and what it comes to later is left
  obtain ⟨zs, hzs⟩ := ran_prefix rest hne hmin
  have hserved_eq : ran ((amount - s.haveLoad) * cfg.needMin) (T.serve cfg amount (amount - s.haveLoad) (T.height d))
      (xs ++ rest) s = T.served cfg amount (T.height d) d s := by
    rw [← hmenu]
    rfl
  rw [hserved_eq] at hzs
  have hadd' := foldl_serve_barren amount (T.height d) hn
    (l := T.served cfg amount (T.height d) d s) fun b hb => hbarren b (hzs ▸ List.mem_append_left zs hb)
  rw [← hrun] at hadd'
  have hdisjoint : (T.menu cfg amount d s).Nodup := nodup_menu
  rw [hmenu] at hdisjoint
  have hno : y ∉ T.served cfg amount (T.height d) d s := fun hy' =>
    List.disjoint_of_nodup_append hdisjoint (hzs ▸ List.mem_append_left zs hy') hy
  have hleaves : Leaves T cfg amount d s y := by
    refine (leaves_iff hn hgood hlucky).mpr ⟨hmenu ▸ List.mem_append_right xs hy, hno, ?_⟩
    rw [hadd'.2]
    exact fun hmem => (List.mem_append.mp hmem).elim hexp fun hmem => hno (List.mem_filter.mp hmem).1
  have hworth : T.worth (amount - s.haveLoad) xs =
      T.worth (amount - s.haveLoad) (T.served cfg amount (T.height d) d s) + T.worth (amount - s.haveLoad) zs := by
    conv_lhs => rw [hzs]
    exact worth_append
  have hpos : 0 ≤ T.worth (amount - s.haveLoad) zs := worth_nonneg
  rcases hs y hleaves with hadded | hgood'
  · rw [hadd'.1] at hadded
    linarith
  · exact hgood hgood'

/-- A search that stops early has found enough if it is fair to what was there
at entry, and only if it is as long as it comes to nothing below which more may lie. -/
theorem findExports_enough_iff (hn : cfg.howmuch = none) :
    (Unbiased T cfg amount d s (FairBefore T cfg amount d s ∧ FairAfter T cfg amount d s) →
        StopsEnough T cfg amount d s) ∧
      (StopsEnough T cfg amount d s → Unbiased T cfg amount d s (FairBefore T cfg amount d s)) :=
  ⟨Unbiased.stopsEnough hn, StopsEnough.unbiased hn⟩

local instance pairNeZero : NeZero 3 := ⟨by decide⟩

/-- Two subdirectories of one load. -/
def pair (p : ℚ) (hp : 0 ≤ p) : DirFrags (Fin 3) :=
  { twoDirs with
    pop := fun d => if d = 0 then 2 * p else p
    pop_nonneg := fun d => by
      split
      · linarith
      · exact hp }

/-- Of 100, 50 is there: two subdirectories with a load of 45 are lucky, and of two with a load of 40 one is left. -/
theorem findExports_enough_pair : StopsEnough (pair 45 (by decide)) defaults 100 0 ⟨[], 50, []⟩ ∧
    ¬StopsEnough (pair 40 (by decide)) defaults 100 0 ⟨[], 50, []⟩ := by
  refine ⟨(findExports_enough_iff rfl).1 (.inr (.inr (.inl ⟨1, by decide +kernel, by decide +kernel⟩))), fun h => ?_⟩
  rcases (findExports_enough_iff rfl).2 h with h₀ | hgood | ⟨c, hc, hlucky⟩ | hfair
  · exact absurd h₀ (by decide +kernel)
  · exact absurd hgood (by decide +kernel)
  · have hno : ∀ c ∈ (pair 40 (by decide)).subdirs defaults 0 (100 - 50) ⟨[], 50, []⟩,
        (pair 40 (by decide)).lucky defaults (100 - 50) c = false := by decide +kernel
    exact absurd ((hno c hc).symm.trans hlucky) (by decide)
  · rcases hfair [2] [1] (by decide +kernel) (List.cons_ne_nil _ _) (by decide +kernel) (by decide +kernel) with hless | hnone
    · exact absurd hless (by decide +kernel)
    · exact absurd (hnone 1 (List.mem_singleton_self 1)) List.not_mem_nil

/-- Of 100, 50 is there. One of two subdirectories with a load of 40 is chosen, and there is more than 40. -/
theorem not_findExports_enough : ¬StopsEnough (pair 40 (by decide)) defaults 100 0 ⟨[], 50, []⟩ := by
  intro h
  have hleaves : Leaves (pair 40 (by decide)) defaults 100 0 ⟨[], 50, []⟩ 1 :=
    ⟨by decide +kernel, by decide +kernel, by decide +kernel⟩
  exact absurd (h 1 hleaves) (by decide +kernel)

end CephMds.Rebalance
