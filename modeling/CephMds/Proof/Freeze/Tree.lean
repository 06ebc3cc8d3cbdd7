import CephMds.Proof.Freeze.Pins

/-!
# Freezing excludes auth pins

`Inv` is the invariant of a tree of fragments: each fragment is `Tracked`, its
nested auth pins are those that its inodes and their fragments pass on, and a
frozen one has no pinned items. A pin below a frozen tree cannot be taken, since
the climb of `is_frozen_tree` finds it (`isFrozenTree_of_pinned`), so no nested
auth pin arrives at one. A call is passed on to fragments of smaller depth
only, which gives the induction (`deliver_ok`).
-/

namespace CephMds.Freeze.System

open Checked Waiting

variable {δ ν κ ε : Type} [LinearOrder ν] {F : Forest δ} {I : InodeView δ ν κ ε}
  {s s' : System δ ν κ ε} {d p : δ} {c : InodeCall}

/-! ## The climb -/

omit [LinearOrder ν] in
theorem isFrozenTree_eq (F : Forest δ) (s : System δ ν κ ε) (d : δ) : s.isFrozenTree F d =
    ((s.dir d).frozenTree || !(s.dir d).isSubtreeRoot && (F.parent d).any (s.isFrozenTree F)) := by
  exact F.any_nearest_or (fun x => (s.dir x).frozenTree) (fun x => (s.dir x).isSubtreeRoot) d

omit [LinearOrder ν] in
theorem isFreezingTree_eq (F : Forest δ) (s : System δ ν κ ε) (d : δ) : s.isFreezingTree F d =
    ((s.dir d).freezingTree || !(s.dir d).isSubtreeRoot && (F.parent d).any (s.isFreezingTree F)) := by
  exact F.any_nearest_or (fun x => (s.dir x).freezingTree) (fun x => (s.dir x).isSubtreeRoot) d

omit [LinearOrder ν] in
/-- What the fragment finds is what the climb from it finds. -/
theorem dir_isFrozenTree : (s.dir d).isFrozenTree (s.surroundings F I d) = s.isFrozenTree F d :=
  (isFrozenTree_eq F s d).symm

omit [LinearOrder ν] in
/-- The climb reads fragments of smaller depth only. -/
theorem isFrozenTree_congr (h : ∀ x, F.depth x ≤ F.depth d → (s'.dir x).frozenTree = (s.dir x).frozenTree ∧
    (s'.dir x).isSubtreeRoot = (s.dir x).isSubtreeRoot) : s'.isFrozenTree F d = s.isFrozenTree F d := by
  induction d using F.downward with
  | _ d ih =>
    rw [isFrozenTree_eq, isFrozenTree_eq, (h d le_rfl).1, (h d le_rfl).2]
    cases hp : F.parent d with
    | none => rfl
    | some q =>
      have hlt := F.depth_lt hp
      rw [Option.any_some, Option.any_some, ih q hp fun x hx => h x (by omega)]

/-! ## The invariant -/

section

variable [Fintype δ] [DecidableEq δ]

structure Inv (F : Forest δ) (s : System δ ν κ ε) : Prop where
  tracked : ∀ d, Tracked 0 (s.inodeNested d) (s.inodePins d) (s.dir d)
  nested : ∀ p, (s.dir p).nestedAuthPins =
    ∑ x with F.parent x = some p, (s.inodeNested x + s.inodePins x) + s.items p
  dirPins : ∀ p, (s.dir p).dirAuthPins = ∑ x with F.parent x = some p, s.inodePins x + s.items p
  nonneg : ∀ d, 0 ≤ s.inodeNested d ∧ 0 ≤ s.inodePins d
  frozenDir : ∀ d, (s.dir d).frozenDir = true → s.items d = 0

/-- A change of what one fragment passes on is seen at its parent. -/
theorem sum_children_update (F : Forest δ) (g : δ → ℤ) (d p : δ) (v : ℤ) :
    ∑ x with F.parent x = some p, Function.update g d (g d + v) x =
      ∑ x with F.parent x = some p, g x + if F.parent d = some p then v else 0 := by
  have hx : ∀ x, Function.update g d (g d + v) x = g x + if x = d then v else 0 := by
    intro x
    by_cases h : x = d
    · rw [h, Function.update_self, if_pos rfl]
    · rw [Function.update_of_ne h, if_neg h, add_zero]
  simp only [hx, Finset.sum_add_distrib]
  congr 1
  rw [Finset.sum_ite_eq']
  simp

/-- What a fragment passes on is part of the nested auth pins of its parent. -/
theorem Inv.le_nested (hs : Inv F s) (hp : F.parent d = some p) :
    s.inodeNested d + s.inodePins d ≤ (s.dir p).nestedAuthPins := by
  have hle : s.inodeNested d + s.inodePins d ≤
      ∑ x with F.parent x = some p, (s.inodeNested x + s.inodePins x) := by
    refine Finset.single_le_sum (f := fun x => s.inodeNested x + s.inodePins x) (fun x _ => ?_) (by simp [hp])
    have := hs.nonneg x
    omega
  rw [hs.nested p]
  omega

theorem Inv.le_dirPins (hs : Inv F s) (hp : F.parent d = some p) : s.inodePins d ≤ (s.dir p).dirAuthPins := by
  have hle : s.inodePins d ≤ ∑ x with F.parent x = some p, s.inodePins x :=
    Finset.single_le_sum (f := s.inodePins) (fun x _ => (hs.nonneg x).2) (by simp [hp])
  rw [hs.dirPins p]
  omega

/-- Above a pin no tree is frozen, as far as the climb goes. -/
theorem Inv.isFrozenTree_of_pinned (hs : Inv F s) (hq : ∀ x, F.depth x ≤ F.depth d → (s.dir x).calls = [])
    (hc : 0 < (s.dir d).getCumAuthPins) : s.isFrozenTree F d = false := by
  induction d using F.downward with
  | _ d ih =>
    have ht := hs.tracked d
    have hcum : (s.dir d).getCumAuthPins = (s.dir d).authPins + (s.dir d).nestedAuthPins := rfl
    have hz : (s.dir d).frozenTree = false := by
      by_contra h
      rw [Bool.not_eq_false] at h
      have h₁ := ht.frozenNested h
      have h₂ := ht.frozenPins (by simp [h])
      simp only [Nat.cast_zero] at h₂
      omega
    rw [isFrozenTree_eq, hz, Bool.false_or]
    cases hr : (s.dir d).isSubtreeRoot with
    | true => rfl
    | false =>
      cases hp : F.parent d with
      | none => rfl
      | some q =>
        -- The fragment counts for 1 at its inode, and so at its parent.
        have hn := ht.nested
        rw [CDir.nestedCalls, hq d le_rfl, CDir.nests, if_pos ⟨hr, hc⟩] at hn
        simp only [List.map_nil, List.sum_nil, add_zero] at hn
        have hle := hs.le_nested hp
        have hnn := (hs.nonneg d).2
        have hqn := (hs.tracked q).nonneg
        have hlt := F.depth_lt hp
        rw [Option.any_some, ih q hp (fun x hx => hq x (by omega))
          (by rw [CDir.getCumAuthPins]; omega)]
        rfl

/-! ## Passing calls on -/

/-- What stays of a fragment whatever arrives from below. -/
structure Same (x x' : CDir ν κ) : Prop where
  isAuth : x'.isAuth = x.isAuth
  dirAuth : x'.dirAuth = x.dirAuth
  waiters : Waiters.Conserves x.waiters x'.waiters
  flagged : x.flagged = true → x'.flagged = true ∨ ∀ p ∈ x'.waiters.waiting, meets p.1 waitUnfreeze = false

omit [LinearOrder ν] in
theorem Same.refl (x : CDir ν κ) : Same x x := ⟨rfl, rfl, .refl _, .inl⟩

omit [LinearOrder ν] in
theorem Same.trans {x y z : CDir ν κ} (h : Same x y) (h' : Same y z) : Same x z where
  isAuth := h'.isAuth.trans h.isAuth
  dirAuth := h'.dirAuth.trans h.dirAuth
  waiters := h.waiters.trans h'.waiters
  flagged hf := by
    rcases h.flagged hf with hf | hf
    · exact h'.flagged hf
    · exact .inr fun p hp => hf p (h'.waiters.waiting.subset hp)

/-- From `s` to `s'` only fragments of depth below `m` have changed, and have
made all their calls. -/
structure Framed (F : Forest δ) (m : ℕ) (s s' : System δ ν κ ε) : Prop where
  items : s'.items = s.items
  env : s'.env = s.env
  registered : s'.registered = s.registered
  deep : ∀ x, m ≤ F.depth x →
    s'.dir x = s.dir x ∧ s'.inodeNested x = s.inodeNested x ∧ s'.inodePins x = s.inodePins x
  same : ∀ x, Same (s.dir x) (s'.dir x)
  quiet : ∀ x, F.depth x < m → (s'.dir x).calls = []

omit [LinearOrder ν] [Fintype δ] [DecidableEq δ] in
theorem Framed.trans {m : ℕ} {s₁ s₂ s₃ : System δ ν κ ε} (h : Framed F m s₁ s₂) (h' : Framed F m s₂ s₃) :
    Framed F m s₁ s₃ where
  items := h'.items.trans h.items
  env := h'.env.trans h.env
  registered := h'.registered.trans h.registered
  deep x hx := ⟨(h'.deep x hx).1.trans (h.deep x hx).1, (h'.deep x hx).2.1.trans (h.deep x hx).2.1,
    (h'.deep x hx).2.2.trans (h.deep x hx).2.2⟩
  same x := (h.same x).trans (h'.same x)
  quiet := h'.quiet

/-- The calls of `d` have all reached its inode. -/
def flush (s : System δ ν κ ε) (d : δ) : System δ ν κ ε := { s with
  dir := Function.update s.dir d { s.dir d with calls := [] }
  inodeNested := Function.update s.inodeNested d (s.inodeNested d + (s.dir d).nestedCalls)
  inodePins := Function.update s.inodePins d (s.inodePins d + (s.dir d).pinCalls) }

omit [LinearOrder ν] [Fintype δ] in
@[simp] theorem set_dir_self {r : CDir ν κ} : (s.set d r).dir d = r := Function.update_self ..

omit [LinearOrder ν] [Fintype δ] in
theorem set_dir_of_ne {r : CDir ν κ} {x : δ} (h : x ≠ d) : (s.set d r).dir x = s.dir x :=
  Function.update_of_ne h _ _

omit [LinearOrder ν] [Fintype δ] in
/-- A call changes nothing of the fragments but the list of their calls. -/
theorem count_dir (s : System δ ν κ ε) (d : δ) (c : InodeCall) (x : δ) :
    (s.count d c).dir x = { s.dir x with calls := ((s.count d c).dir x).calls } := by
  by_cases hx : x = d
  · subst hx
    simp [System.count]
  · simp [System.count, Function.update_of_ne hx]

omit [LinearOrder ν] [Fintype δ] in
theorem count_dir_of_depth {x : δ} (h : F.depth x < F.depth d) : (s.count d c).dir x = s.dir x := by
  refine Function.update_of_ne ?_ _ _
  rintro rfl
  exact lt_irrefl _ h

/-- A call of `d` has reached its inode: what it adds is counted at the parent,
and a fragment may have frozen. -/
theorem Inv.counted {t : System δ ν κ ε} {cs : List InodeCall} (hs : Inv F s) (hcalls : (s.dir d).calls = c :: cs)
    (hn : 0 ≤ s.inodeNested d + c.nested) (hp : 0 ≤ s.inodePins d + c.pins)
    (hrest : Admissible (s.inodeNested d + c.nested) (s.inodePins d + c.pins) cs)
    (hin : t.inodeNested = (s.count d c).inodeNested) (hip : t.inodePins = (s.count d c).inodePins)
    (hitems : t.items = s.items) (hd : t.dir d = (s.count d c).dir d)
    (htr : ∀ x, x ≠ d → Tracked 0 (s.inodeNested x) (s.inodePins x) (t.dir x))
    (hnest : ∀ q, (t.dir q).nestedAuthPins =
      (s.dir q).nestedAuthPins + if F.parent d = some q then c.inc else 0)
    (hdir : ∀ q, (t.dir q).dirAuthPins = (s.dir q).dirAuthPins + if F.parent d = some q then c.pins else 0)
    (hz : ∀ q, (t.dir q).frozenDir = true → (s.dir q).frozenDir = true ∨ (t.dir q).dirAuthPins = 0) :
    Inv F t := by
  have hnn : ∀ x, 0 ≤ t.inodeNested x ∧ 0 ≤ t.inodePins x := by
    intro x
    rw [hin, hip]
    by_cases hx : x = d
    · subst hx
      simp only [count, Function.update_self]
      exact ⟨hn, hp⟩
    · simp only [count, Function.update_of_ne hx]
      exact hs.nonneg x
  have hpins : ∀ q, (t.dir q).dirAuthPins = ∑ x with F.parent x = some q, t.inodePins x + t.items q := by
    intro q
    rw [hdir, hs.dirPins, hitems, hip]
    show _ = ∑ x with F.parent x = some q, Function.update s.inodePins d _ x + _
    rw [sum_children_update]
    omega
  refine ⟨?_, ?_, hpins, hnn, ?_⟩
  · intro x
    by_cases hx : x = d
    · subst hx
      rw [hin, hip, hd]
      simp only [count, Function.update_self]
      rw [hcalls]
      exact (hs.tracked x).pop hcalls hrest
    · rw [hin, hip]
      simp only [count, Function.update_of_ne hx]
      exact htr x hx
  · intro q
    rw [hnest, hs.nested, hitems, Finset.sum_add_distrib, Finset.sum_add_distrib, hin, hip]
    show _ = ∑ x with F.parent x = some q, Function.update s.inodeNested d _ x +
      ∑ x with F.parent x = some q, Function.update s.inodePins d _ x + _
    rw [sum_children_update, sum_children_update]
    split
    · rw [InodeCall.inc]
      omega
    · omega
  · intro q hq
    rcases hz q hq with h | h
    · rw [hitems]
      exact hs.frozenDir q h
    · have hsum : 0 ≤ ∑ x with F.parent x = some q, t.inodePins x :=
        Finset.sum_nonneg fun x _ => (hnn x).2
      have := hpins q
      omega

/-- A call that nothing above counts. -/
theorem Inv.count {cs : List InodeCall} (hs : Inv F s) (hcalls : (s.dir d).calls = c :: cs)
    (hn : 0 ≤ s.inodeNested d + c.nested) (hp : 0 ≤ s.inodePins d + c.pins)
    (hrest : Admissible (s.inodeNested d + c.nested) (s.inodePins d + c.pins) cs)
    (htop : F.parent d = none ∨ c = .addWaiter) : Inv F (s.count d c) := by
  have hnone : ∀ q, (if F.parent d = some q then c.inc else 0) = 0 ∧
      (if F.parent d = some q then c.pins else 0) = 0 := by
    intro q
    rcases htop with h | h
    · simp [h]
    · simp [h, InodeCall.inc, InodeCall.nested, InodeCall.pins]
  refine hs.counted hcalls hn hp hrest rfl rfl rfl rfl ?_ ?_ ?_ ?_
  · intro x hx
    simp only [System.count, Function.update_of_ne hx]
    exact hs.tracked x
  · intro q
    rw [(hnone q).1, add_zero, count_dir]
  · intro q
    rw [(hnone q).2, add_zero, count_dir]
  · intro q hq
    rw [count_dir] at hq
    exact .inl hq

/-- The parent counts a call. -/
theorem Inv.adjust {cs : List InodeCall} (hs : Inv F s) (hcalls : (s.dir d).calls = c :: cs)
    (hn : 0 ≤ s.inodeNested d + c.nested) (hp : 0 ≤ s.inodePins d + c.pins)
    (hrest : Admissible (s.inodeNested d + c.nested) (s.inodePins d + c.pins) cs)
    (hpar : F.parent d = some p) (hq : (s.dir p).calls = []) (h0 : c.inc ≠ 0)
    (hpos : 0 < c.inc → s.isFrozenTree F p = false) :
    ∃ r, ((s.count d c).dir p).adjustNestedAuthPins ((s.count d c).surroundings F I p) c.inc c.pins = .ok r ∧
      Inv F ((s.count d c).set p r) ∧ Same (s.dir p) r := by
  have hne : p ≠ d := by
    rintro rfl
    exact absurd (F.depth_lt hpar) (lt_irrefl _)
  have hdir : (s.count d c).dir p = s.dir p := Function.update_of_ne hne _ _
  have hle := hs.le_nested hpar
  have hle' := hs.le_dirPins hpar
  have hinc : c.inc = c.nested + c.pins := rfl
  have hz : (s.dir p).frozenTree = true → c.inc < 0 := by
    intro hz
    by_contra hlt
    have := hpos (by omega)
    rw [isFrozenTree_eq, hz] at this
    cases this
  rw [hdir]
  obtain ⟨r, hr, ht, hk⟩ := (hs.tracked p).adjustNestedAuthPins
    (e := (s.count d c).surroundings F I p) c.inc c.pins h0 (by omega) (by omega) hq hz
  refine ⟨r, hr, ?_, ⟨hk.isAuth, hk.dirAuth, hk.waiters, hk.flagged⟩⟩
  refine hs.counted hcalls hn hp hrest rfl rfl rfl (set_dir_of_ne hne.symm) ?_ ?_ ?_ ?_
  · intro x hx
    by_cases hxp : x = p
    · subst hxp
      rw [set_dir_self]
      exact ht
    · rw [set_dir_of_ne hxp]
      simp only [System.count, Function.update_of_ne hx]
      exact hs.tracked x
  · intro q
    by_cases hqp : q = p
    · subst hqp
      rw [set_dir_self, hk.nested, if_pos hpar]
      rfl
    · rw [set_dir_of_ne hqp, if_neg (by rw [hpar, Option.some.injEq]; exact Ne.symm hqp), add_zero, count_dir]
  · intro q
    by_cases hqp : q = p
    · subst hqp
      rw [set_dir_self, hk.dirPins, if_pos hpar]
      rfl
    · rw [set_dir_of_ne hqp, if_neg (by rw [hpar, Option.some.injEq]; exact Ne.symm hqp), add_zero, count_dir]
  · intro q hq'
    by_cases hqp : q = p
    · subst hqp
      rw [set_dir_self] at hq' ⊢
      exact hk.frozenDir hq'
    · rw [set_dir_of_ne hqp, count_dir] at hq'
      exact .inl hq'

/-- A call of `d` is passed on without a fault. -/
def Delivers (F : Forest δ) (I : InodeView δ ν κ ε) (fuel : ℕ) (d : δ) : Prop :=
  ∀ (s : System δ ν κ ε) (c : InodeCall) (cs : List InodeCall), Inv F s → (s.dir d).calls = c :: cs →
    (∀ x, F.depth x < F.depth d → (s.dir x).calls = []) →
    0 ≤ s.inodeNested d + c.nested → 0 ≤ s.inodePins d + c.pins → (c = .addWaiter ∨ c.inc ≠ 0) →
    (0 < c.inc → ∀ q, F.parent d = some q → s.isFrozenTree F q = false) →
    Admissible (s.inodeNested d + c.nested) (s.inodePins d + c.pins) cs →
    ∃ s', deliver F I fuel d s c = .ok s' ∧ Inv F s' ∧ Framed F (F.depth d) (s.count d c) s'

omit [LinearOrder ν] [Fintype δ] in
theorem Same.withCalls {x x' : CDir ν κ} (h : Same x x') (l l' : List InodeCall) :
    Same { x with calls := l } { x' with calls := l' } := ⟨h.isAuth, h.dirAuth, h.waiters, h.flagged⟩

omit [LinearOrder ν] [Fintype δ] in
theorem flush_dir (s : System δ ν κ ε) (d x : δ) :
    (s.flush d).dir x = { s.dir x with calls := ((s.flush d).dir x).calls } := by
  by_cases hx : x = d
  · subst hx
    simp [flush]
  · simp [flush, Function.update_of_ne hx]

omit [LinearOrder ν] [Fintype δ] in
/-- The first call and then the others are all calls. -/
theorem Framed.cons {s₁ : System δ ν κ ε} {cs : List InodeCall} (hcalls : (s.dir d).calls = c :: cs)
    (h : Framed F (F.depth d) (s.count d c) s₁) (h' : Framed F (F.depth d) (s₁.flush d) s') :
    Framed F (F.depth d) (s.flush d) s' := by
  refine ⟨h'.items.trans h.items, h'.env.trans h.env, h'.registered.trans h.registered, ?_, ?_, h'.quiet⟩
  · intro x hx
    obtain ⟨e₁, e₂, e₃⟩ := h.deep x hx
    obtain ⟨e₁', e₂', e₃'⟩ := h'.deep x hx
    rw [e₁', e₂', e₃']
    by_cases hxd : x = d
    · subst hxd
      simp only [flush, Function.update_self, CDir.nestedCalls, CDir.pinCalls, e₁, e₂, e₃, hcalls]
      simp [System.count, hcalls, add_assoc]
    · simp only [flush, Function.update_of_ne hxd, e₁, e₂, e₃, System.count, and_self]
  · intro x
    have h₁ := h.same x
    have h₂ := h'.same x
    rw [count_dir] at h₁
    rw [flush_dir] at h₂ ⊢
    exact (h₁.withCalls ((s.flush d).dir x).calls ((s₁.flush d).dir x).calls).trans h₂

omit [LinearOrder ν] [Fintype δ] in
/-- The calls of the parent are part of passing a call on. -/
theorem Framed.through {r : CDir ν κ} (hlt : F.depth p < F.depth d)
    (hq : ∀ x, F.depth x < F.depth d → (s.dir x).calls = []) (hr : Same (s.dir p) r)
    (h : Framed F (F.depth p) (((s.count d c).set p r).flush p) s') :
    Framed F (F.depth d) (s.count d c) s' := by
  have hset : ∀ x, x ≠ p → (((s.count d c).set p r).flush p).dir x = (s.count d c).dir x := by
    intro x hx
    simp only [flush, set, Function.update_of_ne hx]
  refine ⟨h.items, h.env, h.registered, ?_, ?_, ?_⟩
  · intro x hx
    have hxp : x ≠ p := by
      rintro rfl
      omega
    obtain ⟨e₁, e₂, e₃⟩ := h.deep x (by omega)
    rw [e₁, e₂, e₃, hset x hxp]
    simp only [flush, Function.update_of_ne hxp]
    exact ⟨trivial, rfl, rfl⟩
  · intro x
    have hx := h.same x
    by_cases hxp : x = p
    · subst hxp
      rw [count_dir_of_depth hlt]
      refine (Same.withCalls hr (s.dir x).calls []).trans ?_
      simpa only [flush, set, Function.update_self] using hx
    · rwa [hset x hxp] at hx
  · intro x hx
    rcases lt_or_ge (F.depth x) (F.depth p) with hxp | hxp
    · exact h.quiet x hxp
    · rw [(h.deep x hxp).1]
      by_cases he : x = p
      · subst he
        simp [flush]
      · rw [hset x he, count_dir_of_depth hx]
        exact hq x hx

/-- All the calls of a fragment are passed on, when they come in order and the
first may be counted above. -/
theorem Delivers.all {fuel : ℕ} (h : Delivers F I fuel d) {calls : List InodeCall} (hs : Inv F s)
    (hcalls : (s.dir d).calls = calls) (hq : ∀ x, F.depth x < F.depth d → (s.dir x).calls = [])
    (hadm : Admissible (s.inodeNested d) (s.inodePins d) calls) :
    ∃ s', calls.foldlM (deliver F I fuel d) s = .ok s' ∧ Inv F s' ∧ Framed F (F.depth d) (s.flush d) s' := by
  induction calls generalizing s with
  | nil =>
    refine ⟨s, rfl, hs, rfl, rfl, rfl, ?_, ?_, hq⟩
    · intro x _
      by_cases hx : x = d
      · subst hx
        simp only [flush, Function.update_self, CDir.nestedCalls, CDir.pinCalls, hcalls, List.map_nil,
          List.sum_nil, add_zero, and_self, and_true]
        rw [← hcalls]
      · simp [flush, Function.update_of_ne hx]
    · intro x
      rw [flush_dir]
      exact (Same.refl (s.dir x)).withCalls _ (s.dir x).calls
  | cons c cs ih =>
    obtain ⟨hn, hp, h0, hpos, hrest⟩ := hadm
    have hup : 0 < c.inc → ∀ q, F.parent d = some q → s.isFrozenTree F q = false := by
      intro hc q hpar
      have hlt := F.depth_lt hpar
      refine hs.isFrozenTree_of_pinned (fun x hx => hq x (by omega)) ?_
      have := hs.le_nested hpar
      have := hpos hc
      have := (hs.tracked q).nonneg
      rw [CDir.getCumAuthPins]
      omega
    obtain ⟨s₁, h₁, hs₁, hf₁⟩ := h s c cs hs hcalls hq hn hp h0 hup hrest
    obtain ⟨e₁, e₂, e₃⟩ := hf₁.deep d le_rfl
    simp only [System.count, Function.update_self] at e₁ e₂ e₃
    obtain ⟨s', h', hs', hf'⟩ := ih hs₁ (by rw [e₁, hcalls]; rfl) hf₁.quiet (by rw [e₂, e₃]; exact hrest)
    refine ⟨s', ?_, hs', hf₁.cons hcalls hf'⟩
    rw [List.foldlM_cons, bind_ok]
    exact ⟨s₁, h₁, h'⟩

/-- The same for the calls of a function of the fragment, where the first may
be that it begins to count. -/
theorem Delivers.orderly {fuel : ℕ} (h : Delivers F I fuel d) (hs : Inv F s)
    (hq : ∀ x, F.depth x < F.depth d → (s.dir x).calls = [])
    (hnew : s.inodeNested d = 0 → (s.dir d).isSubtreeRoot = false →
      ∀ cs, (s.dir d).calls = .adjustNestedAuthPins 1 :: cs →
      ∀ q, F.parent d = some q → s.isFrozenTree F q = false) :
    ∃ s', (s.dir d).calls.foldlM (deliver F I fuel d) s = .ok s' ∧ Inv F s' ∧
      Framed F (F.depth d) (s.flush d) s' := by
  rcases (hs.tracked d).orderly with hadm | ⟨hr, cs, hcs, hn, hf, hadm⟩
  · exact h.all hs rfl hq hadm
  · have hrest : Admissible (s.inodeNested d + 1) (s.inodePins d + 0) cs := by
      rw [hn, add_zero]
      exact hadm
    obtain ⟨s₁, h₁, hs₁, hf₁⟩ := h s _ cs hs hcs hq (by rw [hn]; decide) (by simpa [InodeCall.pins] using hf)
      (by decide) (fun _ => hnew hn hr cs hcs) hrest
    obtain ⟨e₁, e₂, e₃⟩ := hf₁.deep d le_rfl
    simp only [System.count, Function.update_self] at e₁ e₂ e₃
    obtain ⟨s', h', hs', hf'⟩ := h.all hs₁ (by rw [e₁, hcs, List.tail_cons]) hf₁.quiet (by rw [e₂, e₃]; exact hrest)
    refine ⟨s', ?_, hs', hf₁.cons hcs hf'⟩
    rw [hcs, List.foldlM_cons, bind_ok]
    exact ⟨s₁, h₁, h'⟩

/-- A fragment that begins to count is below no frozen tree. -/
theorem Inv.parent_not_frozen {q : δ} (hs : Inv F s) (hpar : F.parent d = some p) (hpq : F.parent p = some q)
    (h0 : c.inc ≠ 0) (hn : 0 ≤ s.inodeNested d + c.nested) (hp : 0 ≤ s.inodePins d + c.pins)
    (hcalls : (s.dir p).calls = []) (hnone : s.inodeNested p = 0) (hroot : (s.dir p).isSubtreeRoot = false)
    (hpos : 0 < c.inc → s.isFrozenTree F p = false) : s.isFrozenTree F q = false := by
  have hle := hs.le_nested hpar
  have hnests := (hs.tracked p).nested
  have hnn := (hs.tracked p).nonneg
  have hcum : (s.dir p).getCumAuthPins = (s.dir p).authPins + (s.dir p).nestedAuthPins := rfl
  have hinc : c.inc = c.nested + c.pins := rfl
  rw [CDir.nestedCalls, hcalls, hnone, CDir.nests] at hnests
  simp only [List.map_nil, List.sum_nil, add_zero, hroot, true_and] at hnests
  have hzero : ¬ 0 < (s.dir p).getCumAuthPins := by
    intro h
    rw [if_pos h] at hnests
    omega
  have hfree := hpos (by omega)
  rw [isFrozenTree_eq, hroot, hpq] at hfree
  simpa using (Bool.or_eq_false_iff.mp hfree).2

theorem delivers (F : Forest δ) (I : InodeView δ ν κ ε) {fuel : ℕ} {d : δ} (hf : F.depth d < fuel) :
    Delivers F I fuel d := by
  induction fuel generalizing d with
  | zero => omega
  | succ fuel ih =>
    intro s c cs hs hcalls hq hn hp h0 hpos hrest
    rw [deliver]
    cases hpar : F.parent d with
    | none =>
      refine ⟨_, rfl, hs.count hcalls hn hp hrest (.inl hpar), ⟨rfl, rfl, rfl, fun x _ => ⟨rfl, rfl, rfl⟩,
        fun x => .refl _, ?_⟩⟩
      intro x hx
      rw [count_dir_of_depth hx]
      exact hq x hx
    | some p =>
      have hlt := F.depth_lt hpar
      dsimp only
      split
      · rename_i hw
        refine ⟨_, rfl, hs.count hcalls hn hp hrest (.inr hw), ⟨rfl, rfl, rfl, fun x _ => ⟨rfl, rfl, rfl⟩,
          fun x => .refl _, ?_⟩⟩
        intro x hx
        rw [count_dir_of_depth hx]
        exact hq x hx
      · rename_i hw
        obtain ⟨r, hr, hs₁, hsame⟩ := hs.adjust (I := I) hcalls hn hp hrest hpar (hq p hlt) (h0.resolve_left hw)
          (fun hc => hpos hc p hpar)
        have hset' : ∀ x, x ≠ p → F.depth x < F.depth d → ((s.count d c).set p r).dir x = s.dir x :=
          fun x hx hxd => (set_dir_of_ne hx).trans (count_dir_of_depth hxd)
        have hnep : ∀ x, F.depth x < F.depth p → x ≠ p := by
          rintro x hx rfl
          exact lt_irrefl _ hx
        have hnew : ((s.count d c).set p r).inodeNested p = 0 → r.isSubtreeRoot = false →
            ∀ q, F.parent p = some q → ((s.count d c).set p r).isFrozenTree F q = false := by
          intro hn0 hroot q hpq
          have hltq := F.depth_lt hpq
          rw [isFrozenTree_congr (s := s)]
          · refine hs.parent_not_frozen hpar hpq (h0.resolve_left hw) hn hp (hq p hlt) ?_ ?_ (fun hc => hpos hc p hpar)
            · refine Eq.trans ?_ hn0
              exact (Function.update_of_ne (by rintro rfl; exact lt_irrefl _ hlt) _ _).symm
            · rw [← hroot, CDir.isSubtreeRoot, CDir.isSubtreeRoot, hsame.dirAuth]
          · intro x hx
            rw [hset' x (hnep x (by omega)) (by omega)]
            exact ⟨rfl, rfl⟩
        have hq₁ : ∀ x, F.depth x < F.depth p → (((s.count d c).set p r).dir x).calls = [] := by
          intro x hx
          rw [hset' x (hnep x hx) (by omega)]
          exact hq x (by omega)
        obtain ⟨s', h', hs', hf'⟩ := (ih (by omega)).orderly hs₁ hq₁
          (fun hn0 hroot _ _ => hnew hn0 (by rwa [set_dir_self] at hroot))
        rw [set_dir_self] at h'
        exact ⟨s', bind_ok.mpr ⟨r, hr, h'⟩, hs', hf'.through hlt hq hsame⟩

end

end CephMds.Freeze.System
