import CephMds.Framework.Rehang
import CephMds.Proof.Freeze.Tree

/-!
# A frozen fragment has no auth pins

Each action of a tree of fragments returns where the callers keep their
promises (`perform_ok`): the function of the fragment does, by the lemmas about
one fragment, and its calls are passed on (`Inv.settle`). `Steady` is the
invariant at the boundaries between actions.
-/

namespace CephMds.Freeze.System

open Checked Waiting

variable {δ ν κ ε : Type} [LinearOrder ν] {F : Forest δ} {I : InodeView δ ν κ ε}
  {s s' t : System δ ν κ ε} {d : δ} [Fintype δ] [DecidableEq δ]

structure Steady (F : Forest δ) (s : System δ ν κ ε) : Prop extends Inv F s where
  quiet : ∀ x, (s.dir x).calls = []

/-- From `s` to `s'` calls have been passed on. -/
structure Onward (s s' : System δ ν κ ε) : Prop where
  items : s'.items = s.items
  env : s'.env = s.env
  registered : s'.registered = s.registered
  same : ∀ x, Same (s.dir x) (s'.dir x)

/-- The calls of `d` are passed on. -/
theorem Inv.settle (ht : Inv F t) (hq : ∀ x, x ≠ d → (t.dir x).calls = [])
    (hnew : t.inodeNested d = 0 → (t.dir d).isSubtreeRoot = false →
      ∀ cs, (t.dir d).calls = .adjustNestedAuthPins 1 :: cs →
      ∀ q, F.parent d = some q → t.isFrozenTree F q = false) :
    ∃ s', (t.dir d).calls.foldlM (deliver F I (F.depth d + 1) d) t = .ok s' ∧ Steady F s' ∧ Onward t s' := by
  have hne : ∀ x, F.depth x < F.depth d → x ≠ d := by
    rintro x hx rfl
    exact lt_irrefl _ hx
  obtain ⟨s', h', hs', hf⟩ := (delivers F I (Nat.lt_succ_self (F.depth d))).orderly ht
    (fun x hx => hq x (hne x hx)) hnew
  refine ⟨s', h', ⟨hs', ?_⟩, ⟨hf.items, hf.env, hf.registered, ?_⟩⟩
  · intro x
    rcases lt_or_ge (F.depth x) (F.depth d) with hx | hx
    · exact hf.quiet x hx
    · rw [(hf.deep x hx).1]
      by_cases hxd : x = d
      · subst hxd
        simp [flush]
      · simp only [flush, Function.update_of_ne hxd]
        exact hq x hxd
  · intro x
    have hx := hf.same x
    rw [flush_dir] at hx
    exact ((Same.refl (t.dir x)).withCalls (t.dir x).calls _).trans hx

/-- A fragment changes, with the pins on its items. -/
theorem Inv.place {r : CDir ν κ} {k : ℕ} (hs : Inv F s) (hr : Tracked 0 (s.inodeNested d) (s.inodePins d) r)
    (hn : r.nestedAuthPins = (s.dir d).nestedAuthPins + (k - s.items d))
    (hp : r.dirAuthPins = (s.dir d).dirAuthPins + (k - s.items d)) (hz : r.frozenDir = true → k = 0) :
    Inv F (set { s with items := Function.update s.items d k } d r) := by
  refine ⟨?_, ?_, ?_, hs.nonneg, ?_⟩
  · intro x
    by_cases hx : x = d
    · subst hx
      simpa [set] using hr
    · simpa [set, hx] using hs.tracked x
  · intro q
    have hq := hs.nested q
    by_cases hqd : q = d
    · subst hqd
      simp only [set, Function.update_self]
      omega
    · simpa [set, hqd] using hq
  · intro q
    have hq := hs.dirPins q
    by_cases hqd : q = d
    · subst hqd
      simp only [set, Function.update_self]
      omega
    · simpa [set, hqd] using hq
  · intro x
    by_cases hx : x = d
    · subst hx
      simpa [set] using hz
    · simpa [set, hx] using hs.frozenDir x

theorem Inv.items_nonneg (hs : Inv F s) (h : (s.dir d).dirAuthPins = 0) : s.items d = 0 := by
  have hsum : 0 ≤ ∑ x with F.parent x = some d, s.inodePins x := Finset.sum_nonneg fun x _ => (hs.nonneg x).2
  have := hs.dirPins d
  omega

section Act

variable {f : Surroundings → CDir ν κ → Checked (CDir ν κ)} {r : CDir ν κ}

/-- A function of a fragment that returns, where the fragment is below no
frozen tree or does not begin to count. -/
theorem Steady.act {k : ℕ} (hs : Steady F s)
    (hf : f (surroundings F I { s with items := Function.update s.items d k } d) (s.dir d) = .ok r)
    (hr : Tracked 0 (s.inodeNested d) (s.inodePins d) r)
    (hn : r.nestedAuthPins = (s.dir d).nestedAuthPins + (k - s.items d))
    (hp : r.dirAuthPins = (s.dir d).dirAuthPins + (k - s.items d)) (hz : r.frozenDir = true → k = 0)
    (hauth : r.dirAuth = (s.dir d).dirAuth)
    (hup : s.isFrozenTree F d = false ∨ ∀ cs, r.calls ≠ .adjustNestedAuthPins 1 :: cs) :
    ∃ s', act F I { s with items := Function.update s.items d k } d f = .ok s' ∧ Steady F s' ∧
      Onward (set { s with items := Function.update s.items d k } d r) s' := by
  have hnew : r.isSubtreeRoot = false → ∀ cs, r.calls = .adjustNestedAuthPins 1 :: cs →
      ∀ q, F.parent d = some q →
      (set { s with items := Function.update s.items d k } d r).isFrozenTree F q = false := by
    intro hroot cs hcs q hq
    have hlt := F.depth_lt hq
    have hfree := hup.resolve_right (fun h => h cs hcs)
    rw [CDir.isSubtreeRoot, hauth] at hroot
    rw [isFrozenTree_eq, CDir.isSubtreeRoot, hroot, hq] at hfree
    rw [isFrozenTree_congr (s := s)]
    · simpa using (Bool.or_eq_false_iff.mp hfree).2
    · intro x hx
      rw [set_dir_of_ne (by rintro rfl; omega)]
      exact ⟨rfl, rfl⟩
  have hinv := hs.toInv.place hr hn hp hz
  obtain ⟨s', h', hs', ho⟩ := hinv.settle (I := I)
    (fun x hx => by rw [set_dir_of_ne hx]; exact hs.quiet x)
    (fun _ hroot cs hcs => hnew (by rwa [set_dir_self] at hroot) cs (by rwa [set_dir_self] at hcs))
  rw [set_dir_self] at h'
  exact ⟨s', bind_ok.mpr ⟨r, hf, h'⟩, hs', ho⟩

/-- The same for a function that leaves the nested pins alone. -/
theorem Steady.actKept (hs : Steady F s) (hf : f (s.surroundings F I d) (s.dir d) = .ok r)
    (hr : Tracked 0 (s.inodeNested d) (s.inodePins d) r) (hk : Kept (s.dir d) r)
    (hup : s.isFrozenTree F d = false ∨ ∀ cs, r.calls ≠ .adjustNestedAuthPins 1 :: cs) :
    ∃ s', s.act F I d f = .ok s' ∧ Steady F s' ∧ Onward (s.set d r) s' := by
  have hitems : Function.update s.items d (s.items d) = s.items := Function.update_eq_self ..
  have hz : r.frozenDir = true → s.items d = 0 := by
    intro h
    rcases hk.frozenDir h with h | h
    · exact hs.frozenDir d h
    · exact hs.items_nonneg (hk.dirPins.symm.trans h)
  have h := hs.act (f := f) (I := I) (k := s.items d) (by rw [hitems]; exact hf) hr (by rw [hk.nested]; omega)
    (by rw [hk.dirPins]; omega) hz hk.dirAuth hup
  rwa [hitems] at h

end Act

/-- Below a frozen tree there is no pin. -/
theorem Steady.not_frozen (hs : Steady F s) (h : 0 < (s.dir d).getCumAuthPins) : s.isFrozenTree F d = false :=
  hs.isFrozenTree_of_pinned (fun x _ => hs.quiet x) h

theorem Steady.not_frozen_of_authPins (hs : Steady F s) (h : 0 < (s.dir d).authPins) :
    s.isFrozenTree F d = false := by
  have := (hs.tracked d).nonneg
  exact hs.not_frozen (by rw [CDir.getCumAuthPins]; omega)

theorem Steady.not_frozen_of_items (hs : Steady F s) (h : 0 < s.items d) : s.isFrozenTree F d = false := by
  have := (hs.tracked d).nonneg
  have := hs.nested d
  have hsum : 0 ≤ ∑ x with F.parent x = some d, (s.inodeNested x + s.inodePins x) :=
    Finset.sum_nonneg fun x _ => add_nonneg (hs.nonneg x).1 (hs.nonneg x).2
  exact hs.not_frozen (by rw [CDir.getCumAuthPins]; omega)

omit [LinearOrder ν] [Fintype δ] [DecidableEq δ] in
theorem not_frozen_of_isFrozen (h : (s.dir d).isFrozen (s.surroundings F I d) = false) :
    s.isFrozenTree F d = false := by
  rw [← dir_isFrozenTree (I := I)]
  exact (Bool.or_eq_false_iff.mp h).2

/-! ## The actions -/

/-- Nothing of the waiters has changed but that some were handed out. -/
structure Passed (s s' : System δ ν κ ε) : Prop where
  registered : s'.registered = s.registered
  same : ∀ x, Same (s.dir x) (s'.dir x)

omit [LinearOrder ν] [Fintype δ] in
theorem Onward.passed {s₀ : System δ ν κ ε} {r : CDir ν κ} (h : Onward (s₀.set d r) s')
    (hreg : s₀.registered = s.registered) (hdir : s₀.dir = s.dir) (hr : Same (s.dir d) r) : Passed s s' := by
  refine ⟨h.registered.trans hreg, ?_⟩
  intro x
  have hx := h.same x
  by_cases hxd : x = d
  · subst hxd
    rw [set_dir_self] at hx
    exact hr.trans hx
  · rwa [set_dir_of_ne hxd, hdir] at hx

omit [LinearOrder ν] [Fintype δ] [DecidableEq δ] in
theorem Same.of_kept {x x' : CDir ν κ} (h : Kept x x') : Same x x' := ⟨h.isAuth, h.dirAuth, h.waiters, h.flagged⟩

/-- What an action does to the waiters. -/
def Effect (F : Forest δ) (s : System δ ν κ ε) : Action δ ν κ ε → System δ ν κ ε → Prop
  | .addWaiter d tag c, s' => ∃ x, F.nearest (s.accepts tag) d = some x ∧
      s' = set { s with registered := s.registered ++ [c] } x
        { s.dir x with waiters := (s.dir x).waiters.addWaiter tag c }
  | .addDentryWaiter d dname snapid c, s' =>
      s' = set { s with registered := s.registered ++ [c] } d
        { s.dir d with waiters := (s.dir d).waiters.addDentryWaiter dname snapid c }
  | .takeDentryWaiting d dname first last, s' =>
      ∃ w, (s.dir d).waiters.takeDentryWaiting dname first last = .ok w ∧
        s' = s.set d { s.dir d with waiters := w }
  | .takeSubWaiting d, s' =>
      ∃ w, (s.dir d).waiters.takeSubWaiting = .ok w ∧ s' = s.set d { s.dir d with waiters := w }
  | .takeWaiting d mask, s' =>
      ∃ w, (s.dir d).waiters.takeWaiting mask = .ok w ∧ s' = s.set d { s.dir d with waiters := w }
  | .unfreezeTree d, s' | .unfreezeDir d, s' =>
      Passed s s' ∧ ∀ p ∈ (s'.dir d).waiters.waiting, meets p.1 waitUnfreeze = false
  | _, s' => Passed s s'

theorem Steady.authPin (hs : Steady F s) {who : Holder} (ha : s.allowed F I (.authPin d who) = true) :
    ∃ s', s.perform F I (.authPin d who) = .ok s' ∧ Steady F s' ∧ Passed s s' := by
  simp only [allowed, Bool.and_eq_true, Bool.or_eq_true, decide_eq_true_eq] at ha
  have hslot : who.slot = 0 := if_neg ha.1
  have hfree : s.isFrozenTree F d = false ∧ ((s.dir d).frozenTree || (s.dir d).frozenDir) = false := by
    rcases ha.2 with h | h
    · simp only [CDir.canAuthPin, Bool.and_eq_true, Bool.not_eq_true', Bool.or_eq_false_iff] at h
      have hfz := not_frozen_of_isFrozen h.2.1
      rw [isFrozenTree_eq, Bool.or_eq_false_iff] at hfz
      rw [CDir.isFrozen, Bool.or_eq_false_iff] at h
      exact ⟨not_frozen_of_isFrozen (I := I) (by simp [CDir.isFrozen, h.2.1]), by simp [hfz.1, h.2.1.1]⟩
    · refine ⟨hs.not_frozen_of_authPins h, ?_⟩
      by_contra hz
      rw [Bool.not_eq_false] at hz
      have := (hs.tracked d).frozenPins hz
      omega
  obtain ⟨ht, hk⟩ := (hs.tracked d).authPin who hfree.2 (.inl (hs.quiet d))
  rw [hslot] at ht
  obtain ⟨s', h', hs', ho⟩ := hs.actKept (I := I) (f := fun _ x => pure (x.authPin who)) rfl ht hk (.inl hfree.1)
  exact ⟨s', h', hs', ho.passed rfl rfl (.of_kept hk)⟩

theorem Steady.authUnpin (hs : Steady F s) {who : Holder} (ha : s.allowed F I (.authUnpin d who) = true) :
    ∃ s', s.perform F I (.authUnpin d who) = .ok s' ∧ Steady F s' ∧ Passed s s' := by
  simp only [allowed, Bool.and_eq_true, decide_eq_true_eq] at ha
  have hslot : who.slot = 0 := if_neg ha.1
  have h1 := (hs.tracked d).one_le ha.2
  obtain ⟨r, hr, ht, hk⟩ := Tracked.authUnpin (e := s.surroundings F I d)
    (show Tracked (0 + who.slot) (s.inodeNested d) (s.inodePins d) (s.dir d) by
      rw [hslot]
      exact hs.tracked d) ha.2
  obtain ⟨s', h', hs', ho⟩ := hs.actKept (I := I) (f := fun e x => x.authUnpin e who) hr ht hk
    (.inl (hs.not_frozen_of_authPins h1))
  exact ⟨s', h', hs', ho.passed rfl rfl (.of_kept hk)⟩

/-- The number of pinned items changes by `i`. -/
theorem Steady.adjustItems (hs : Steady F s) {k : ℕ} {i : ℤ} (hk : (k : ℤ) = s.items d + i) (h0 : i ≠ 0)
    (hfree : s.isFrozenTree F d = false) (hz : (s.dir d).frozenDir = false ∨ k = 0) :
    ∃ s', System.act F I { s with items := Function.update s.items d k } d
      (fun e x => x.adjustNestedAuthPins e i i) = .ok s' ∧ Steady F s' ∧ Passed s s' := by
  have hnest := hs.nested d
  have hpins := hs.dirPins d
  have hsum : 0 ≤ ∑ x with F.parent x = some d, (s.inodeNested x + s.inodePins x) :=
    Finset.sum_nonneg fun x _ => add_nonneg (hs.nonneg x).1 (hs.nonneg x).2
  have hsum' : 0 ≤ ∑ x with F.parent x = some d, s.inodePins x := Finset.sum_nonneg fun x _ => (hs.nonneg x).2
  have hft : (s.dir d).frozenTree = false := by
    rw [isFrozenTree_eq, Bool.or_eq_false_iff] at hfree
    exact hfree.1
  obtain ⟨r, hr, ht, hkept⟩ := (hs.tracked d).adjustNestedAuthPins
    (e := surroundings F I { s with items := Function.update s.items d k } d) i i h0 (by omega) (by omega)
    (hs.quiet d) (fun h => by rw [hft] at h; cases h)
  have hnest' : r.nestedAuthPins = (s.dir d).nestedAuthPins + i := hkept.nested
  have hpins' : r.dirAuthPins = (s.dir d).dirAuthPins + i := hkept.dirPins
  have hzero : r.frozenDir = true → k = 0 := by
    intro h
    rcases hkept.frozenDir h with h' | h'
    · exact hz.resolve_left (by rw [show (s.dir d).frozenDir = true from h']; decide)
    · omega
  obtain ⟨s', h', hs', ho⟩ := hs.act (I := I) (f := fun e x => x.adjustNestedAuthPins e i i) (k := k)
    hr ht (by omega) (by omega) hzero hkept.dirAuth (.inl hfree)
  exact ⟨s', h', hs', ho.passed rfl rfl ⟨hkept.isAuth, hkept.dirAuth, hkept.waiters, hkept.flagged⟩⟩

theorem Steady.pinItem (hs : Steady F s) (ha : s.allowed F I (.pinItem d) = true) :
    ∃ s', s.perform F I (.pinItem d) = .ok s' ∧ Steady F s' ∧ Passed s s' := by
  simp only [allowed, Bool.or_eq_true, decide_eq_true_eq] at ha
  refine hs.adjustItems (k := s.items d + 1) (i := 1) (by omega) (by decide) ?_ (.inl ?_)
  · rcases ha with h | h
    · simp only [CDir.canAuthPin, Bool.and_eq_true, Bool.not_eq_true', Bool.or_eq_false_iff] at h
      exact not_frozen_of_isFrozen h.2.1
    · exact hs.not_frozen_of_items h
  · rcases ha with h | h
    · simp only [CDir.canAuthPin, Bool.and_eq_true, Bool.not_eq_true', Bool.or_eq_false_iff, CDir.isFrozen] at h
      exact h.2.1.1
    · by_contra hz
      have := hs.frozenDir d (by simpa using hz)
      omega

theorem Steady.unpinItem (hs : Steady F s) (ha : s.allowed F I (.unpinItem d) = true) :
    ∃ s', s.perform F I (.unpinItem d) = .ok s' ∧ Steady F s' ∧ Passed s s' := by
  simp only [allowed, decide_eq_true_eq] at ha
  refine hs.adjustItems (k := s.items d - 1) (i := -1) (by omega) (by decide) (hs.not_frozen_of_items ha) (.inl ?_)
  by_contra hz
  have := hs.frozenDir d (by simpa using hz)
  omega

/-- Freezing a fragment that is not frozen or freezing. -/
theorem Steady.freeze (hs : Steady F s) {f : Surroundings → CDir ν κ → Checked (CDir ν κ)}
    (hf : ∀ {n p : ℤ} {x : CDir ν κ} {e : Surroundings}, Tracked 0 n p x → x.calls = [] →
      x.isFrozen e = false → x.isFreezing e = false → ∃ r, f e x = .ok r ∧ Tracked 0 n p r ∧ Kept x r)
    (ha : (!(s.dir d).isFrozen (s.surroundings F I d) && !(s.dir d).isFreezing (s.surroundings F I d)) = true) :
    ∃ s', s.act F I d f = .ok s' ∧ Steady F s' ∧ Passed s s' := by
  simp only [Bool.and_eq_true, Bool.not_eq_true'] at ha
  obtain ⟨r, hr, ht, hk⟩ := hf (hs.tracked d) (hs.quiet d) ha.1 ha.2
  obtain ⟨s', h', hs', ho⟩ := hs.actKept (I := I) hr ht hk (.inl (not_frozen_of_isFrozen ha.1))
  exact ⟨s', h', hs', ho.passed rfl rfl (.of_kept hk)⟩

/-- Unfreezing, and those who wait for it are told. -/
theorem Steady.unfreeze (hs : Steady F s) {f : Surroundings → CDir ν κ → Checked (CDir ν κ)} {r : CDir ν κ}
    (hr : f (s.surroundings F I d) (s.dir d) = .ok r) (ht : Tracked 0 (s.inodeNested d) (s.inodePins d) r)
    (hk : Kept (s.dir d) r) (hw : ∀ p ∈ r.waiters.waiting, meets p.1 waitUnfreeze = false)
    (hcalls : ((s.dir d).frozenTree || (s.dir d).frozenDir) = true → (s.dir d).calls = [] →
      ∀ cs, r.calls ≠ .adjustNestedAuthPins 1 :: cs)
    (ha : ((s.dir d).frozenTree || (s.dir d).frozenDir) = true ∨
      ((s.dir d).freezingTree || (s.dir d).freezingDir) = true) :
    ∃ s', s.act F I d f = .ok s' ∧ Steady F s' ∧ Passed s s' ∧
      ∀ p ∈ (s'.dir d).waiters.waiting, meets p.1 waitUnfreeze = false := by
  have hup : s.isFrozenTree F d = false ∨ ∀ cs, r.calls ≠ .adjustNestedAuthPins 1 :: cs := by
    rcases ha with h | h
    · exact .inr (hcalls h (hs.quiet d))
    · -- A fragment that is freezing holds its own pin.
      refine .inl (hs.not_frozen_of_authPins ?_)
      have hown := (hs.tracked d).own
      have hmem : Holder.self ∈ (s.dir d).authPinSet := by
        rw [← List.count_pos_iff, hown, h]
        decide
      exact (hs.tracked d).one_le hmem
  obtain ⟨s', h', hs', ho⟩ := hs.actKept (I := I) hr ht hk hup
  refine ⟨s', h', hs', ho.passed rfl rfl (.of_kept hk), ?_⟩
  intro p hp
  have hsub := (ho.same d).waiters.waiting
  rw [set_dir_self] at hsub
  exact hw p (hsub.subset hp)

/-- The waiters of a fragment change. -/
theorem Steady.setWaiters (hs : Steady F s) {w : Waiters ν κ} (hw : w.Pinned) (reg : List κ) :
    Steady F (set { s with registered := reg } d { s.dir d with waiters := w }) := by
  have hdir : ∀ x, ∃ w' : Waiters ν κ, w'.Pinned ∧
      (set { s with registered := reg } d { s.dir d with waiters := w }).dir x =
        { s.dir x with waiters := w' } := by
    intro x
    by_cases hx : x = d
    · subst hx
      exact ⟨w, hw, set_dir_self⟩
    · exact ⟨(s.dir x).waiters, (hs.tracked x).pinned, set_dir_of_ne hx⟩
  refine ⟨⟨fun x => ?_, fun x => ?_, fun x => ?_, hs.nonneg, fun x => ?_⟩, fun x => ?_⟩
  all_goals obtain ⟨w', hw', he⟩ := hdir x
  all_goals rw [he]
  · exact { hs.tracked x with pinned := hw' }
  · exact hs.nested x
  · exact hs.dirPins x
  · exact hs.frozenDir x
  · exact hs.quiet x

omit [LinearOrder ν] [Fintype δ] in
/-- A fragment at or above which someone waits for an unfreeze is found. -/
theorem nearest_flagged (h : ((s.dir d).isFreezing (s.surroundings F I d) ||
    (s.dir d).isFrozen (s.surroundings F I d)) = true) :
    (F.nearest (fun x => (s.dir x).flagged) d).isSome = true := by
  have hself : (s.dir d).flagged = true → (F.nearest (fun x => (s.dir x).flagged) d).isSome = true := by
    intro h
    rw [F.nearest_of_marked h]
    rfl
  have hclimb : ∀ m : δ → Bool, (∀ x, m x = true → (s.dir x).flagged = true) →
      (F.nearest (fun x => m x || (s.dir x).isSubtreeRoot) d).any m = true →
      (F.nearest (fun x => (s.dir x).flagged) d).isSome = true := by
    intro m hm hany
    obtain ⟨x, hx, hmx⟩ := (Option.any_eq_true _ _).mp hany
    exact Forest.nearest_isSome (d := x) (hm x hmx) (Forest.contains_of_nearest hx)
  simp only [CDir.isFreezing, CDir.isFrozen, Bool.or_eq_true] at h
  rcases h with (h | h) | (h | h)
  · refine hclimb (fun x => (s.dir x).freezingTree) (fun x hx => by simp [CDir.flagged, hx]) ?_
    exact (isFreezingTree_eq F s d).trans h
  · exact hself (by simp [CDir.flagged, h])
  · exact hself (by simp [CDir.flagged, h])
  · refine hclimb (fun x => (s.dir x).frozenTree) (fun x hx => by simp [CDir.flagged, hx]) ?_
    exact (isFrozenTree_eq F s d).trans h

omit [LinearOrder ν] [Fintype δ] in
/-- The climb of `add_waiter` ends at a fragment. -/
theorem nearest_accepts {tag : UInt64} {c : κ} (ha : s.allowed F I (.addWaiter d tag c) = true) :
    ∃ x, F.nearest (s.accepts tag) d = some x := by
  simp only [allowed, mayWait, Bool.and_eq_true, Bool.or_eq_true, Bool.not_eq_true'] at ha
  rw [← Option.isSome_iff_exists]
  cases hu : meets tag waitUnfreeze with
  | false =>
    cases hr : meets tag waitSingleauth with
    | false =>
      rw [F.nearest_of_marked (by simp [accepts, hu, hr])]
      rfl
    | true =>
      have := ha.1.2.resolve_left (by simp [hr])
      refine Eq.trans ?_ this
      congr 2
      funext x
      simp [accepts, hu, hr]
  | true =>
    cases hr : meets tag waitSingleauth with
    | false =>
      have := nearest_flagged (I := I) (s := s) (d := d) (F := F) (by simpa [hu] using ha.1.1)
      refine Eq.trans ?_ this
      congr 2
      funext x
      simp [accepts, hu, hr]
    | true =>
      have := ha.2.resolve_left (by simp [hu, hr])
      refine Eq.trans ?_ this
      congr 2
      funext x
      simp [accepts, hu, hr]

/-- Each action returns where the callers keep their promises. -/
theorem perform_ok (hs : Steady F s) {a : Action δ ν κ ε} (ha : s.allowed F I a = true) :
    ∃ s', s.perform F I a = .ok s' ∧ Steady F s' ∧ Effect F s a s' := by
  cases a with
  | authPin d who => exact hs.authPin ha
  | authUnpin d who => exact hs.authUnpin ha
  | pinItem d => exact hs.pinItem ha
  | unpinItem d => exact hs.unpinItem ha
  | freezeTree d => exact hs.freeze (fun ht hc hz hf => ht.freezeTree hc hz hf) ha
  | freezeDir d => exact hs.freeze (fun ht hc hz hf => ht.freezeDir hc hz hf) ha
  | unfreezeTree d =>
    have ha' : (s.dir d).frozenTree = true ∨ (s.dir d).freezingTree = true := Bool.or_eq_true_iff.mp ha
    obtain ⟨r, hr, ht, hk, hw, hc⟩ := (hs.tracked d).unfreezeTree (e := s.surroundings F I d) ha'
    exact hs.unfreeze hr ht hk hw hc (ha'.imp (by simp +contextual) (by simp +contextual))
  | unfreezeDir d =>
    have ha' : (s.dir d).frozenDir = true ∨ (s.dir d).freezingDir = true := Bool.or_eq_true_iff.mp ha
    obtain ⟨r, hr, ht, hk, hw, hc⟩ := (hs.tracked d).unfreezeDir (e := s.surroundings F I d) ha'
    exact hs.unfreeze hr ht hk hw hc (ha'.imp (by simp +contextual) (by simp +contextual))
  | inodes env =>
    exact ⟨_, rfl, ⟨⟨hs.tracked, hs.nested, hs.dirPins, hs.nonneg, hs.frozenDir⟩, hs.quiet⟩, rfl, fun x => .refl _⟩
  | addWaiter d tag c =>
    obtain ⟨x, hx⟩ := nearest_accepts ha
    refine ⟨_, ?_, hs.setWaiters (Waiters.addWaiter_pinned (hs.tracked x).pinned) _, x, hx, rfl⟩
    simp [perform, addWaiter, wait, hx, deref, bind, Except.bind, pure, Except.pure]
  | addDentryWaiter d dname snapid c =>
    exact ⟨_, rfl, hs.setWaiters (Waiters.addDentryWaiter_pinned (hs.tracked d).pinned) _, rfl⟩
  | takeDentryWaiting d dname first last =>
    obtain ⟨w, hw, hp, -⟩ := Waiters.takeDentryWaiting_eq (hs.tracked d).pinned dname first last
    exact ⟨_, bind_ok.mpr ⟨w, hw, rfl⟩, hs.setWaiters hp s.registered, w, hw, rfl⟩
  | takeSubWaiting d =>
    have hw := Waiters.takeSubWaiting_eq (hs.tracked d).pinned
    refine ⟨_, bind_ok.mpr ⟨_, hw, rfl⟩, hs.setWaiters ?_ s.registered, _, hw, rfl⟩
    exact ⟨(hs.tracked d).pinned.waiter, rfl, .nil⟩
  | takeWaiting d mask =>
    obtain ⟨w, hw, hp, -⟩ := Waiters.takeWaiting_eq (hs.tracked d).pinned mask
    exact ⟨_, bind_ok.mpr ⟨w, hw, rfl⟩, hs.setWaiters hp s.registered, w, hw, rfl⟩

/-! ## Runs -/

theorem tracked_new (auth : Bool) (a : Auth) : Tracked 0 0 0 { (CDir.new auth : CDir ν κ) with dirAuth := a } :=
  ⟨⟨by simp [CDir.nests, CDir.nestedCalls, CDir.getCumAuthPins, CDir.new],
    by simp [CDir.holds, CDir.pinCalls, CDir.new], rfl, rfl, by simp [CDir.new], by simp [CDir.new]⟩,
    .inl trivial, rfl, rfl, fun _ => rfl, fun _ => rfl, Waiters.pinned_empty⟩

theorem steady_init (F : Forest δ) (auth : δ → Bool) (dirAuth : δ → Auth) (env : ε) :
    Steady F (init auth dirAuth env : System δ ν κ ε) := by
  refine ⟨⟨fun d => tracked_new (auth d) (dirAuth d), fun p => ?_, fun p => ?_, fun d => ⟨le_rfl, le_rfl⟩,
    fun d _ => rfl⟩, fun d => rfl⟩
  · simp [init, CDir.new]
  · simp [init, CDir.new]

theorem step_steady (hs : Steady F s) {a : Action δ ν κ ε} (h : step F I s a = some s') :
    Steady F s' ∧ Effect F s a s' := by
  rw [step] at h
  split at h
  · rename_i ha
    obtain ⟨t, ht, hst, he⟩ := perform_ok hs ha
    rw [ht] at h
    cases h
    exact ⟨hst, he⟩
  · cases h

theorem run_steady {auth : δ → Bool} {dirAuth : δ → Auth} {env : ε} {as : List (Action δ ν κ ε)}
    (h : run (step F I) (init auth dirAuth env) as = some s) : Steady F s :=
  run_invariant (fun _ _ _ hs hst => (step_steady hs hst).1) (steady_init F auth dirAuth env) h

/-- What freezing promises. A fragment `x` below a frozen one holds a dir auth
pin there only for its own freeze. -/
structure Excludes (F : Forest δ) (I : InodeView δ ν κ ε) (s : System δ ν κ ε) : Prop where
  frozenTree : ∀ d, (s.dir d).frozenTree = true → (s.dir d).authPins = 0 ∧ (s.dir d).nestedAuthPins = 0
  frozenDir : ∀ d, (s.dir d).frozenDir = true → (s.dir d).authPins = 0 ∧
    (s.dir d).dirAuthPins = ((Finset.univ.filter fun x => F.parent x = some d ∧
      ((s.dir x).frozenTree ∨ (s.dir x).frozenDir) ∧ (s.dir x).isAuth ∧ (s.dir x).isSubtreeRoot = false).card : ℤ)
  exclusive : ∀ d, (s.dir d).freezingTree.toNat + (s.dir d).frozenTree.toNat + (s.dir d).freezingDir.toNat +
    (s.dir d).frozenDir.toNat ≤ 1
  holders : ∀ d, (s.dir d).authPins = (s.dir d).authPinSet.length
  freezing : ∀ d, (s.dir d).freezingTree = true ∨ (s.dir d).freezingDir = true →
    (s.dir d).authPinSet.count .self = 1
  nonneg : ∀ d, 0 ≤ (s.dir d).authPins
  returns : ∀ a, s.allowed F I a = true → ∃ s', s.perform F I a = .ok s'

/-- Each fragment below holds a pin on its inode iff it is frozen, auth and not a subtree root. -/
theorem Steady.sum_pins (hs : Steady F s) : ∑ x with F.parent x = some d, s.inodePins x =
    ((Finset.univ.filter fun x => F.parent x = some d ∧
      ((s.dir x).frozenTree ∨ (s.dir x).frozenDir) ∧ (s.dir x).isAuth ∧
        (s.dir x).isSubtreeRoot = false).card : ℤ) := by
  have hx : ∀ x, s.inodePins x = if ((s.dir x).frozenTree ∨ (s.dir x).frozenDir) ∧ (s.dir x).isAuth ∧
      (s.dir x).isSubtreeRoot = false then 1 else 0 := by
    intro x
    have h := (hs.tracked x).pins
    rw [CDir.pinCalls, hs.quiet x] at h
    simpa [CDir.holds] using h
  simp only [hx]
  rw [Finset.sum_boole, Finset.filter_filter]

/-- Freezing excludes auth pins: in every state that a tree of fragments reaches
while the callers keep their promises. -/
theorem run_excludes {auth : δ → Bool} {dirAuth : δ → Auth} {env : ε} {as : List (Action δ ν κ ε)}
    (h : run (step F I) (init auth dirAuth env) as = some s) : Excludes F I s := by
  have hs := run_steady h
  refine ⟨?_, ?_, fun d => (hs.tracked d).exclusive, fun d => (hs.tracked d).counted, ?_, ?_, ?_⟩
  · intro d hz
    exact ⟨(hs.tracked d).frozenPins (by simp [hz]), (hs.tracked d).frozenNested hz⟩
  · intro d hz
    refine ⟨(hs.tracked d).frozenPins (by simp [hz]), ?_⟩
    rw [hs.dirPins d, hs.frozenDir d hz, hs.sum_pins]
    simp
  · intro d hf
    rw [(hs.tracked d).own]
    rcases hf with hf | hf <;> simp [hf]
  · intro d
    rw [(hs.tracked d).counted]
    omega
  · intro a ha
    obtain ⟨s', h', -⟩ := perform_ok hs ha
    exact ⟨s', h'⟩

/-! ## Two fragments -/

/-- A fragment and one below it. -/
inductive Pair
  | upper
  | lower
  deriving DecidableEq

instance : Fintype Pair := ⟨{.upper, .lower}, fun x => by cases x <;> decide⟩

def pairForest : Forest Pair where
  parent
    | .upper => none
    | .lower => some .upper
  depth
    | .upper => 0
    | .lower => 1
  depth_lt {d q} h := by
    cases d <;> cases h
    exact Nat.zero_lt_one

/-- The inodes answer with what they find above, and are not frozen themselves. -/
def inodesAbove (F : Forest δ) : InodeView δ ν κ ε where
  isAuth s d := (F.parent d).all fun p => (s.dir p).isAuth
  isFrozen s d := (F.parent d).any fun p => (s.dir p).frozenDir || s.isFrozenTree F p
  isFrozenDir s d := (F.parent d).any fun p => (s.dir p).frozenDir

/-- The upper fragment is a subtree root. -/
def pairInit : System Pair ℕ ℕ Unit :=
  init (fun _ => true) (fun | .upper => ⟨0, cdirAuthUnknown⟩ | .lower => cdirAuthDefault) ()

/-- A tree freezes when the last pin below it is released. -/
theorem run_excludes_pair : ∃ s, run (step pairForest (inodesAbove pairForest)) pairInit
    [.authPin .lower (.other 1), .freezeTree .upper, .authUnpin .lower (.other 1)] = some s ∧
    (s.dir .upper).frozenTree = true ∧ (s.dir .upper).nestedAuthPins = 0 := by
  have hrun : ∃ s, run (step pairForest (inodesAbove pairForest)) pairInit
      [.authPin .lower (.other 1), .freezeTree .upper, .authUnpin .lower (.other 1)] = some s ∧
      (s.dir .upper).frozenTree = true := ⟨_, rfl, rfl⟩
  obtain ⟨s, hs, hz⟩ := hrun
  exact ⟨s, hs, hz, ((run_excludes hs).frozenTree .upper hz).2⟩

/-- A fragment freezes below a frozen one and pins its inode there. -/
theorem not_dirAuthPins_eq_zero : ¬ ∀ (as : List (Action Pair ℕ ℕ Unit)) (s : System Pair ℕ ℕ Unit),
    run (step pairForest (inodesAbove pairForest)) pairInit as = some s →
      ∀ d, (s.dir d).frozenDir = true → (s.dir d).dirAuthPins = 0 := by
  intro h
  have hrun : ∃ s, run (step pairForest (inodesAbove pairForest)) pairInit
      [.freezeDir .upper, .freezeDir .lower] = some s ∧ (s.dir .upper).frozenDir = true ∧
      (s.dir .upper).dirAuthPins = 1 := ⟨_, rfl, rfl, rfl⟩
  obtain ⟨s, hs, hz, h1⟩ := hrun
  have h0 := h _ s hs .upper hz
  omega

end CephMds.Freeze.System
