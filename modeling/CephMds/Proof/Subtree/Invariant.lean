import CephMds.Model.Subtree

/-!
# The subtree map follows the delegations

The subtree map is a cache of something simpler: the function `dirAuth` on the
forest of directory fragments. `Inv` says that it is: the keys are the
fragments with a `dirAuth` of their own, each is pinned once, and the bounds
of a key are the keys whose nearest key strictly above is that key.
`adjustSubtreeAuth` then is an update of `dirAuth` at one fragment
(`adjustSubtreeAuth_spec`), and `trySubtreeMergeAt` an update to the default
or nothing (`trySubtreeMergeAt_spec`). Every later result about the map uses
these two and never opens the map again.
-/

namespace CephMds.Cache

variable {ι α L : Type} {c c' c₁ c₂ : Cache ι α L} {d r r' s x p : α} {a : Auth}

open Checked

/-- `get_subtree_root(d->get_parent_dir())`. -/
def rootAbove (c : Cache ι α L) (d : α) : Option α := c.tree.forest.above c.isSubtreeRoot d

/-- The keys and pins of the subtree map are those of `dirAuth`, and each key
`s` is listed as a bound of `own s` and of nothing else. -/
structure Owned (own : α → Option α) (c : Cache ι α L) : Prop where
  key (d : α) : (c.subtrees d).isSome = c.isSubtreeRoot d
  pin (d : α) : c.pinSubtree d = if c.isSubtreeRoot d then 1 else 0
  mem_bounds (r s : α) : s ∈ c.bounds r ↔ c.isSubtreeRoot s = true ∧ own s = some r
  rooted {s q : α} : c.isSubtreeRoot s = true → c.getParentDir s = some q →
    (c.getSubtreeRoot q).isSome
  cached {d : α} : c.isSubtreeRoot d = true → (c.tree.inode d).isSome

/-- The invariant of the subtree map: a key is a bound of the nearest key
strictly above it. -/
abbrev Inv (c : Cache ι α L) : Prop := Owned c.rootAbove c

theorem Owned.congr {own own' : α → Option α} {c : Cache ι α L} (h : Owned own c)
    (ho : ∀ s, c.isSubtreeRoot s = true → own s = own' s) : Owned own' c :=
  ⟨h.key, h.pin, fun r s => (h.mem_bounds r s).trans (and_congr_right fun hs => by rw [ho s hs]),
    h.rooted, h.cached⟩

/-- What the subtree functions leave alone. -/
structure Frame (c c' : Cache ι α L) : Prop where
  tree : c'.tree = c.tree
  exportBound : c'.exportBound = c.exportBound
  isAuth : c'.isAuth = c.isAuth
  renames : c'.projectedSubtreeRenames = c.projectedSubtreeRenames

theorem Frame.refl (c : Cache ι α L) : Frame c c := ⟨rfl, rfl, rfl, rfl⟩

theorem Frame.trans (h : Frame c c₁) (h' : Frame c₁ c₂) : Frame c c₂ :=
  ⟨h'.tree.trans h.tree, h'.exportBound.trans h.exportBound, h'.isAuth.trans h.isAuth,
    h'.renames.trans h.renames⟩

/-! ## Reading -/

theorem isSubtreeRoot_iff : c.isSubtreeRoot d = true ↔ c.dirAuth d ≠ cdirAuthDefault := by
  simp [isSubtreeRoot]

theorem isSubtreeRoot_eq (h : c'.dirAuth = c.dirAuth) : c'.isSubtreeRoot = c.isSubtreeRoot := by
  funext x
  simp [isSubtreeRoot, h]

theorem getSubtreeRoot_eq (ht : c'.tree = c.tree) (h : c'.dirAuth = c.dirAuth) :
    c'.getSubtreeRoot = c.getSubtreeRoot := by
  funext x
  rw [getSubtreeRoot, getSubtreeRoot, ht, isSubtreeRoot_eq h]

theorem rootAbove_of_parent {q : α} (h : c.getParentDir d = some q) :
    c.rootAbove d = c.getSubtreeRoot q :=
  c.tree.forest.above_of_parent h

theorem rootAbove_eq_some :
    c.rootAbove d = some r ↔ ∃ q, c.getParentDir d = some q ∧ c.getSubtreeRoot q = some r :=
  c.tree.forest.above_eq_some

theorem getSubtreeRoot_of_root (h : c.isSubtreeRoot d = true) : c.getSubtreeRoot d = some d :=
  c.tree.forest.nearest_of_marked h

theorem getSubtreeRoot_of_not (h : c.isSubtreeRoot d = false) :
    c.getSubtreeRoot d = c.rootAbove d :=
  c.tree.forest.nearest_of_not h

theorem getSubtreeRoot_isRoot (h : c.getSubtreeRoot d = some r) : c.isSubtreeRoot r = true :=
  c.tree.forest.nearest_marked h

theorem rootAbove_isRoot (h : c.rootAbove d = some r) : c.isSubtreeRoot r = true :=
  c.tree.forest.above_marked h

theorem getParentDir_inode {q : α} (h : c.getParentDir d = some q) :
    ∃ i, c.tree.inode d = some i ∧ c.tree.parentDir i = some q :=
  Option.bind_eq_some_iff.mp h

/-- The authority at the root that `d` is delegated by. -/
def rootAuth (c : Cache ι α L) (d : α) : Option Auth := (c.getSubtreeRoot d).map c.dirAuth

theorem rootAuth_of_root (h : c.isSubtreeRoot d = true) : c.rootAuth d = some (c.dirAuth d) := by
  rw [rootAuth, getSubtreeRoot_of_root h]; rfl

theorem rootAuth_of_not {q : α} (h : c.isSubtreeRoot d = false) (hq : c.getParentDir d = some q) :
    c.rootAuth d = c.rootAuth q := by
  rw [rootAuth, getSubtreeRoot_of_not h, rootAbove_of_parent hq]; rfl

theorem Inv.mem_bounds' (hI : Inv c) (h : s ∈ c.bounds r) :
    c.isSubtreeRoot r = true ∧ c.isSubtreeRoot s = true ∧ ∃ q, c.getParentDir s = some q ∧
      c.getSubtreeRoot q = some r := by
  obtain ⟨hs, hr⟩ := (hI.mem_bounds r s).mp h
  exact ⟨rootAbove_isRoot hr, hs, rootAbove_eq_some.mp hr⟩

/-- A fragment that is no root is no bound and has none. -/
theorem Inv.ne_of_bounds (hI : Inv c) (hd : c.isSubtreeRoot d = false) (h : s ∈ c.bounds r) : s ≠ d ∧ r ≠ d := by
  obtain ⟨hr, hs, -⟩ := hI.mem_bounds' h
  exact ⟨fun h => by simp [h, hd] at hs, fun h => by simp [h, hd] at hr⟩

/-- The root above some roots is the one that they bound. -/
theorem Inv.rootAbove_iff {l : List α} {o : Option α} (hI : Inv c) (hroot : ∀ s ∈ l, c.isSubtreeRoot s = true)
    (habove : ∀ s ∈ l, c.rootAbove s = o) (hs : s ∈ l) : o = some r ↔ ∃ d ∈ l, d ∈ c.bounds r := by
  constructor
  · intro hr
    exact ⟨s, hs, (hI.mem_bounds r s).mpr ⟨hroot s hs, (habove s hs).trans hr⟩⟩
  · rintro ⟨d, hd, h⟩
    exact (habove d hd).symm.trans ((hI.mem_bounds r d).mp h).2

/-- Above every root that is not at the top of the tree there is another. -/
theorem Inv.rootAbove_isSome {q : α} (hI : Inv c) (h : c.isSubtreeRoot d = true)
    (hq : c.getParentDir d = some q) : ∃ r, c.rootAbove d = some r := by
  rw [rootAbove_of_parent hq]
  exact Option.isSome_iff_exists.mp (hI.rooted h hq)

theorem mergeParent_spec (h : c.mergeParent d = .ok r) :
    r = d ∧ c.rootAbove d = none ∨ c.rootAbove d = some r := by
  obtain ⟨i, hi, h⟩ := bind_ok.mp h
  rw [deref_ok] at hi
  rcases ite_ok.mp h with ⟨hb, h⟩ | ⟨-, h⟩
  · rw [pure_ok] at h
    have hp : c.tree.forest.parent d = none := by simp [DirTree.forest, hi, c.tree.base_parent hb]
    exact .inl ⟨h.symm, by simp [rootAbove, Forest.above, hp]⟩
  · obtain ⟨q, hq, h⟩ := bind_ok.mp h
    rw [deref_ok] at hq h
    exact .inr (rootAbove_eq_some.mpr ⟨q, hq, h⟩)

theorem mergeParent_returns (hr : c.rootAbove d = some r) : c.mergeParent d = .ok r := by
  obtain ⟨q, hq, hqr⟩ := rootAbove_eq_some.mp hr
  obtain ⟨i, hi, hp⟩ := getParentDir_inode hq
  have hb : ¬ c.tree.isBase i = true := fun hb => by
    rw [c.tree.base_parent hb] at hp
    cases hp
  refine bind_ok.mpr ⟨i, deref_ok.mpr hi, ?_⟩
  rw [if_neg hb]
  exact bind_ok.mpr ⟨q, deref_ok.mpr hq, deref_ok.mpr hqr⟩

theorem Owned.bounds_of_not {own : α → Option α} (hI : Owned own c) (hd : c.isSubtreeRoot d = false) : c.bounds d = ∅ := by
  have := hI.key d
  rw [hd, Option.isSome_eq_false_iff, Option.isNone_iff_eq_none] at this
  simp [bounds, this]

/-- The bounds `M` went from `r` to `r'`, and nothing else changed. -/
structure Moved (r r' : α) (M : α → Prop) (c c' : Cache ι α L) : Prop where
  rest : c' = { c with subtrees := c'.subtrees }
  key (x : α) : (c'.subtrees x).isSome = (c.subtrees x).isSome
  mem (x s : α) : s ∈ c'.bounds x ↔ s ∈ c.bounds x ∧ ¬ (x = r ∧ M s) ∨ x = r' ∧ M s

namespace Moved

theorem refl (r r' : α) (c : Cache ι α L) : Moved r r' (fun _ => False) c c :=
  ⟨rfl, fun _ => rfl, fun _ _ => by simp⟩

theorem trans {M M' : α → Prop} (h : Moved r r' M c c₁) (h' : Moved r r' M' c₁ c₂) (hne : r ≠ r') :
    Moved r r' (fun s => M s ∨ M' s) c c₂ := by
  refine ⟨by rw [h'.rest, h.rest], fun x => (h'.key x).trans (h.key x), fun x s => ?_⟩
  rw [h'.mem, h.mem]
  by_cases hx : x = r
  · subst hx
    simp only [hne, true_and, false_and, or_false]
    tauto
  · simp only [hx, false_and, not_false_eq_true, and_true]
    tauto

theorem congr {M M' : α → Prop} (h : Moved r r' M c c') (hM : ∀ s, M s ↔ M' s) :
    Moved r r' M' c c' := by
  obtain rfl : M = M' := funext fun s => propext (hM s)
  exact h

theorem frame {M : α → Prop} (h : Moved r r' M c c') : Frame c c' := by
  rw [h.rest]; exact ⟨rfl, rfl, rfl, rfl⟩

theorem dirAuth {M : α → Prop} (h : Moved r r' M c c') : c'.dirAuth = c.dirAuth := by rw [h.rest]

theorem pinSubtree {M : α → Prop} (h : Moved r r' M c c') : c'.pinSubtree = c.pinSubtree := by
  rw [h.rest]

end Moved

/-- The loop over a list of bounds moves those that satisfy the test. -/
theorem foldlM_moved {f : Cache ι α L → α → Checked (Cache ι α L)} {P : α → Prop} {l : List α}
    (hne : r ≠ r')
    (hf : ∀ c₁ c₂ p, p ∈ l → Frame c c₁ → c₁.dirAuth = c.dirAuth → (c₁.subtrees r).isSome →
      (c₁.subtrees r').isSome → f c₁ p = .ok c₂ → Moved r r' (fun s => s = p ∧ P s) c₁ c₂)
    (hr : (c.subtrees r).isSome) (hr' : (c.subtrees r').isSome) (h : l.foldlM f c = .ok c') :
    Moved r r' (fun s => s ∈ l ∧ P s) c c' := by
  induction l generalizing c with
  | nil =>
    rw [List.foldlM_nil, pure_ok] at h
    subst h
    exact (Moved.refl r r' c).congr (by simp)
  | cons p l ih =>
    rw [List.foldlM_cons, bind_ok] at h
    obtain ⟨c₁, h₁, h₂⟩ := h
    have m₁ := hf c c₁ p List.mem_cons_self (Frame.refl c) rfl hr hr' h₁
    have m₂ := ih (fun c₂ c₃ q hq hF hA => hf c₂ c₃ q (List.mem_cons_of_mem _ hq)
      (m₁.frame.trans hF) (hA.trans m₁.dirAuth)) ((m₁.key r).trans hr) ((m₁.key r').trans hr') h₂
    refine (m₁.trans m₂ hne).congr fun s => ?_
    rw [List.mem_cons]
    tauto

/-! ## Elementary changes -/

variable [LinearOrder α] {b : Finset α}

@[simp] theorem setBounds_tree : (c.setBounds r b).tree = c.tree := rfl
@[simp] theorem setBounds_dirAuth : (c.setBounds r b).dirAuth = c.dirAuth := rfl
@[simp] theorem setBounds_pinSubtree : (c.setBounds r b).pinSubtree = c.pinSubtree := rfl
@[simp] theorem insertBound_dirAuth : (c.insertBound r p).dirAuth = c.dirAuth := rfl
@[simp] theorem insertBound_tree : (c.insertBound r p).tree = c.tree := rfl
@[simp] theorem eraseBound_dirAuth : (c.eraseBound r p).dirAuth = c.dirAuth := rfl
@[simp] theorem eraseBound_tree : (c.eraseBound r p).tree = c.tree := rfl

theorem setBounds_bounds : (c.setBounds r b).bounds x = if x = r then b else c.bounds x := by
  by_cases h : x = r <;> simp [setBounds, bounds, h]

theorem setBounds_key (h : (c.subtrees r).isSome) :
    ((c.setBounds r b).subtrees x).isSome = (c.subtrees x).isSome := by
  by_cases hx : x = r <;> simp [setBounds, hx, h]

theorem mem_insertBound : s ∈ (c.insertBound r p).bounds x ↔ s ∈ c.bounds x ∨ x = r ∧ s = p := by
  rw [insertBound, setBounds_bounds]
  split
  · subst x; simp [or_comm]
  · simp [*]

theorem mem_eraseBound : s ∈ (c.eraseBound r p).bounds x ↔ s ∈ c.bounds x ∧ ¬ (x = r ∧ s = p) := by
  rw [eraseBound, setBounds_bounds]
  split
  · subst x; simp [and_comm]
  · simp [*]

theorem Moved.one (hr : (c.subtrees r).isSome) (hr' : (c.subtrees r').isSome)
    (p : α) :
    Moved r r' (· = p) c ((c.eraseBound r p).insertBound r' p) := by
  refine ⟨rfl, fun x => ?_, fun x s => by rw [mem_insertBound, mem_eraseBound]⟩
  rw [insertBound, setBounds_key, eraseBound, setBounds_key hr]
  rw [eraseBound, setBounds_key hr]
  exact hr'

/-- The source inserts and erases in either order. -/
theorem eraseBound_insertBound_comm (hne : r ≠ r') :
    (c.insertBound r' p).eraseBound r p = (c.eraseBound r p).insertBound r' p := by
  simp only [insertBound, eraseBound, setBounds, bounds, Function.update_of_ne hne,
    Function.update_of_ne hne.symm]
  rw [Function.update_comm hne]

/-! ## A new subtree root -/

theorem isSubtreeRoot_setDirAuth (ha : a ≠ cdirAuthDefault) (h : c'.dirAuth = Function.update c.dirAuth d a) :
    c'.isSubtreeRoot = Function.update c.isSubtreeRoot d true := by
  funext x
  by_cases hx : x = d <;> simp [isSubtreeRoot, h, hx, ha]

theorem claimBounds_moved (hne : r ≠ d) (hr : (c.subtrees r).isSome) (hd : (c.subtrees d).isSome)
    (h : c.claimBounds r d = .ok c') :
    Moved r d (fun s => s ∈ c.bounds r ∧ c.rootAbove s = some d) c c' := by
  refine (foldlM_moved (P := fun s => c.rootAbove s = some d) hne ?_ hr hd h).congr
    fun s => by rw [mem_ascending]
  intro c₁ c₂ p _ hF hA hr₁ hd₁ h₁
  obtain ⟨q, hq, h₁⟩ := bind_ok.mp h₁
  rw [deref_ok, getParentDir, hF.tree] at hq
  have hR := getSubtreeRoot_eq hF.tree hA
  have hP : c.rootAbove p = c.getSubtreeRoot q := rootAbove_of_parent hq
  rw [hR] at h₁
  split at h₁
  · rename_i hroot
    rw [pure_ok, eraseBound_insertBound_comm hne] at h₁
    subst h₁
    refine (Moved.one hr₁ hd₁ p).congr fun s => ⟨?_, And.left⟩
    rintro rfl
    exact ⟨rfl, hP.trans hroot⟩
  · rename_i hroot
    rw [pure_ok] at h₁
    subst h₁
    refine (Moved.refl r d c₁).congr fun s => ⟨False.elim, ?_⟩
    rintro ⟨rfl, hs⟩
    exact hroot (hP.symm.trans hs)

theorem claimBounds_returns (h : ∀ p ∈ c.bounds r, (c.getParentDir p).isSome) :
    ∃ c', c.claimBounds r d = .ok c' := by
  unfold claimBounds
  refine (foldlM_returns (P := fun c₁ : Cache ι α L => c₁.tree = c.tree) ?_ rfl).imp fun _ h => h.1
  intro c₁ p hp hc₁
  obtain ⟨q, hq⟩ := Option.isSome_iff_exists.mp (h p (mem_ascending.mp hp))
  rw [getParentDir, ← hc₁] at hq
  by_cases hr : c₁.getSubtreeRoot q = some d
  · exact ⟨_, bind_ok.mpr ⟨q, deref_ok.mpr hq, if_pos hr⟩, hc₁⟩
  · exact ⟨_, bind_ok.mpr ⟨q, deref_ok.mpr hq, if_neg hr⟩, hc₁⟩

/-- Marking `d` in a state that satisfies the invariant: the nearest root above
changes only for what is now below `d`, and was the root above `d` before. -/
theorem rootAbove_mark (ht : c'.tree = c.tree)
    (hm : c'.isSubtreeRoot = Function.update c.isSubtreeRoot d true) (hd : c.isSubtreeRoot d = false)
    (s : α) : c'.rootAbove s = c.rootAbove s ∨
      c'.rootAbove s = some d ∧ c.rootAbove s = c.rootAbove d := by
  rw [rootAbove, rootAbove, ht, hm]
  exact c.tree.forest.above_mark hd (Function.update_self ..)
    (fun x hx => Function.update_of_ne hx ..) s

theorem rootAbove_mark_self (ht : c'.tree = c.tree)
    (hm : c'.isSubtreeRoot = Function.update c.isSubtreeRoot d true) :
    c'.rootAbove d = c.rootAbove d := by
  rw [rootAbove, rootAbove, ht, hm]
  exact c.tree.forest.above_congr fun x hx => Function.update_of_ne hx ..

theorem getSubtreeRoot_mark (ht : c'.tree = c.tree)
    (hm : c'.isSubtreeRoot = Function.update c.isSubtreeRoot d true) (hd : c.isSubtreeRoot d = false)
    (s : α) : c'.getSubtreeRoot s = c.getSubtreeRoot s ∨
      c'.getSubtreeRoot s = some d ∧ c.getSubtreeRoot s = c.rootAbove d := by
  rw [getSubtreeRoot, getSubtreeRoot, ht, hm]
  exact c.tree.forest.nearest_mark hd (Function.update_self ..)
    (fun x hx => Function.update_of_ne hx ..) s

section Mark

variable (hI : Inv c) (ht : c'.tree = c.tree)
  (hm : c'.isSubtreeRoot = Function.update c.isSubtreeRoot d true)
include hI ht hm

theorem Inv.mark_cached (hi : (c.tree.inode d).isSome) (hs : c'.isSubtreeRoot s = true) :
    (c'.tree.inode s).isSome := by
  rw [ht]
  by_cases hsd : s = d
  · exact hsd ▸ hi
  · rw [hm, Function.update_of_ne hsd] at hs
    exact hI.cached hs

variable (hd : c.isSubtreeRoot d = false)
include hd

theorem Inv.mark_rooted (hr : ∀ q, c.getParentDir d = some q → (c.getSubtreeRoot q).isSome) {q : α}
    (hs : c'.isSubtreeRoot s = true) (hq : c'.getParentDir s = some q) :
    (c'.getSubtreeRoot q).isSome := by
  rw [getParentDir, ht] at hq
  rcases getSubtreeRoot_mark ht hm hd q with h | ⟨h, -⟩
  · rw [h]
    by_cases hsd : s = d
    · subst hsd
      exact hr q hq
    · rw [hm, Function.update_of_ne hsd] at hs
      exact hI.rooted hs hq
  · rw [h]; rfl

/-- A new root `d` takes the bounds of the root above it that now resolve to
`d`, and becomes one itself. -/
theorem Inv.mark (hr : c.rootAbove d = some r)
    (hk : ∀ x, (c'.subtrees x).isSome = c'.isSubtreeRoot x)
    (hp : ∀ x, c'.pinSubtree x = if c'.isSubtreeRoot x then 1 else 0)
    (hb : ∀ x s, s ∈ c'.bounds x ↔
      (s ∈ c.bounds x ∧ ¬ (x = r ∧ s ∈ c.bounds r ∧ c'.rootAbove s = some d) ∨
        x = d ∧ s ∈ c.bounds r ∧ c'.rootAbove s = some d) ∨ x = r ∧ s = d) : Inv c' := by
  obtain ⟨q, hq, hqr⟩ := rootAbove_eq_some.mp hr
  refine ⟨hk, hp, fun x s => ?_, hI.mark_rooted ht hm hd ?_, hI.mark_cached ht hm ?_⟩
  · rw [hb, hI.mem_bounds, hI.mem_bounds, hm]
    have h1 := rootAbove_mark ht hm hd s
    have h2 := rootAbove_mark_self ht hm
    by_cases hs : s = d
    · subst hs
      simp [hd, h2, hr, eq_comm]
    · rw [Function.update_of_ne hs]
      rw [hr] at h1
      grind
  · rintro q' hq'
    obtain rfl : q = q' := Option.some.inj (hq.symm.trans hq')
    rw [hqr]; rfl
  · obtain ⟨i, hi, -⟩ := getParentDir_inode hq
    rw [hi]; rfl

/-- A new root at the top of its tree has no bounds: what is below it has no
root above. -/
theorem Inv.mark_top (hr : c.getParentDir d = none) (hi : (c.tree.inode d).isSome)
    (hk : ∀ x, (c'.subtrees x).isSome = c'.isSubtreeRoot x)
    (hp : ∀ x, c'.pinSubtree x = if c'.isSubtreeRoot x then 1 else 0)
    (hb : ∀ x, c'.bounds x = c.bounds x) : Inv c' := by
  refine ⟨hk, hp, fun x s => ?_, hI.mark_rooted ht hm hd (by simp [hr]), hI.mark_cached ht hm hi⟩
  rw [hb, hI.mem_bounds, hm]
  have hdn : c.rootAbove d = none := by simp [rootAbove, Forest.above, show c.tree.forest.parent d = none from hr]
  by_cases hs : s = d
  · subst hs
    rw [rootAbove_mark_self ht hm, hdn]
    simp
  · rw [Function.update_of_ne hs]
    refine and_congr_right fun hsr => ?_
    rcases rootAbove_mark ht hm hd s with h | ⟨h, hn⟩
    · rw [h]
    · obtain ⟨q, hq, -⟩ := rootAbove_eq_some.mp h
      rw [getParentDir, ht] at hq
      obtain ⟨r, hr⟩ := hI.rootAbove_isSome hsr hq
      rw [hn, hdn] at hr
      cases hr

end Mark

theorem Owned.newSubtree_key {own : α → Option α} (hI : Owned own c) :
    ((c.newSubtree d).subtrees x).isSome = Function.update c.isSubtreeRoot d true x := by
  by_cases hx : x = d <;> simp [newSubtree, getPin, setBounds, hx, hI.key]

theorem newSubtree_bounds (hd : c.bounds d = ∅) : (c.newSubtree d).bounds x = c.bounds x := by
  rw [show (c.newSubtree d).bounds x = (c.setBounds d ∅).bounds x from rfl, setBounds_bounds]
  split <;> simp_all

theorem Owned.newSubtree_pin {own : α → Option α} (hI : Owned own c) (hd : c.isSubtreeRoot d = false)
    (hm : c'.isSubtreeRoot = Function.update c.isSubtreeRoot d true) :
    (c.newSubtree d).pinSubtree x = if c'.isSubtreeRoot x then 1 else 0 := by
  have := hI.pin x
  rw [hm]
  by_cases hx : x = d
  · subst hx
    simp [newSubtree, getPin, setBounds, this, hd]
  · simp [newSubtree, getPin, setBounds, hx, this]

/-- The branch "i am a new subtree". -/
theorem Inv.newRoot (hI : Inv c) (ha : a ≠ cdirAuthDefault) (hd : c.isSubtreeRoot d = false)
    (hr : c.rootAbove d = some r)
    (h : ((c.newSubtree d).setDirAuth d a).claimBounds r d = .ok c₁) :
    Inv (c₁.insertBound r d) ∧ (c₁.insertBound r d).dirAuth = Function.update c.dirAuth d a ∧
      Frame c (c₁.insertBound r d) := by
  have hrr := rootAbove_isRoot hr
  have hne : r ≠ d := c.tree.forest.above_ne hr
  have hkr : (((c.newSubtree d).setDirAuth d a).subtrees r).isSome :=
    hI.newSubtree_key.trans (by rw [Function.update_of_ne hne, hrr])
  have hkd : (((c.newSubtree d).setDirAuth d a).subtrees d).isSome :=
    hI.newSubtree_key.trans (Function.update_self ..)
  have m := claimBounds_moved hne hkr hkd h
  have hb₀ : ∀ x, ((c.newSubtree d).setDirAuth d a).bounds x = c.bounds x := fun x =>
    newSubtree_bounds (hI.bounds_of_not hd)
  have hA : (c₁.insertBound r d).dirAuth = Function.update c.dirAuth d a := m.dirAuth
  have hm := isSubtreeRoot_setDirAuth ha hA
  have ht : (c₁.insertBound r d).tree = c.tree := m.frame.tree
  have hra : ∀ s, ((c.newSubtree d).setDirAuth d a).rootAbove s = (c₁.insertBound r d).rootAbove s := by
    intro s
    rw [rootAbove, rootAbove, ht, hm, isSubtreeRoot_setDirAuth (c := c) ha rfl]; rfl
  refine ⟨hI.mark ht hm hd hr ?_ ?_ ?_, hA, ht, m.frame.exportBound, m.frame.isAuth, m.frame.renames⟩
  · intro x
    rw [hm, insertBound, setBounds_key ((m.key r).trans hkr), m.key]
    exact hI.newSubtree_key
  · intro x
    rw [show (c₁.insertBound r d).pinSubtree = c₁.pinSubtree from rfl, m.pinSubtree]
    exact hI.newSubtree_pin hd hm
  · intro x s
    rw [mem_insertBound, m.mem, hb₀, hb₀, hra]

theorem Inv.setDirAuth (hI : Inv c) (ha : a ≠ cdirAuthDefault) (hd : c.isSubtreeRoot d = true) :
    Inv (c.setDirAuth d a) := by
  have hm : (c.setDirAuth d a).isSubtreeRoot = c.isSubtreeRoot := by
    rw [isSubtreeRoot_setDirAuth ha rfl]
    exact Function.update_eq_self_iff.mpr hd.symm
  have hr : (c.setDirAuth d a).rootAbove = c.rootAbove := by
    funext s
    rw [rootAbove, rootAbove, hm]; rfl
  have hg : (c.setDirAuth d a).getSubtreeRoot = c.getSubtreeRoot := by
    funext s
    rw [getSubtreeRoot, getSubtreeRoot, hm]; rfl
  refine ⟨fun x => ?_, fun x => ?_, fun x s => ?_, fun hs hq => ?_, fun hs => ?_⟩
  · rw [hm]; exact hI.key x
  · rw [hm]; exact hI.pin x
  · rw [hm, hr]; exact hI.mem_bounds x s
  · rw [hm] at hs
    rw [hg]
    exact hI.rooted hs hq
  · rw [hm] at hs
    exact hI.cached hs

/-- The bootstrap of a base fragment that is not a root yet. -/
theorem Inv.bootstrap (hI : Inv c) (ha : a ≠ cdirAuthDefault) (hd : c.isSubtreeRoot d = false)
    (hp : c.getParentDir d = none) (hi : (c.tree.inode d).isSome) :
    Inv ((c.newSubtree d).setDirAuth d a) := by
  have hm : ((c.newSubtree d).setDirAuth d a).isSubtreeRoot = Function.update c.isSubtreeRoot d true :=
    isSubtreeRoot_setDirAuth ha rfl
  refine hI.mark_top rfl hm hd hp hi (fun x => ?_) (fun x => ?_) fun x => ?_
  · rw [hm]
    exact hI.newSubtree_key
  · exact hI.newSubtree_pin hd hm
  · exact newSubtree_bounds (hI.bounds_of_not hd)

section Delegate

variable {bootstrap : ι → Bool} {new : Bool}

/-- `delegate` updates `dirAuth` and keeps the invariant. -/
theorem delegate_spec (hb : ∀ i, bootstrap i = true → c.tree.isBase i = true) (hI : Inv c)
    (ha : a ≠ cdirAuthDefault) (h : c.delegate bootstrap d a = .ok (new, c')) :
    Inv c' ∧ c'.dirAuth = Function.update c.dirAuth d a ∧ Frame c c' := by
  obtain ⟨⟨r, c₁⟩, hroot, h⟩ := bind_ok.mp h
  obtain ⟨i, hi, hr⟩ := bind_ok.mp hroot
  rw [deref_ok] at hi
  obtain ⟨_, -, h⟩ := bind_ok.mp h
  split at hr
  · rename_i hbi
    rw [pure_ok, Prod.mk.injEq] at hr
    obtain ⟨rfl, rfl⟩ := hr
    rw [if_pos rfl, pure_ok, Prod.mk.injEq] at h
    obtain ⟨-, rfl⟩ := h
    have hp : c.getParentDir d = none := by
      simp [getParentDir, DirTree.forest, hi, c.tree.base_parent (hb i hbi)]
    cases hd : c.isSubtreeRoot d with
    | true =>
      rw [if_pos ((hI.key d).trans hd)]
      exact ⟨hI.setDirAuth ha hd, rfl, rfl, rfl, rfl, rfl⟩
    | false =>
      rw [if_neg (by rw [hI.key, hd]; exact Bool.false_ne_true)]
      exact ⟨hI.bootstrap ha hd hp (by rw [hi]; rfl), rfl, rfl, rfl, rfl, rfl⟩
  · simp only [bind_ok, deref_ok, pure_ok, Prod.mk.injEq] at hr
    obtain ⟨-, -, _, hr, rfl, rfl⟩ := hr
    split at h
    · rename_i hrd
      subst hrd
      rw [pure_ok, Prod.mk.injEq] at h
      obtain ⟨-, rfl⟩ := h
      exact ⟨hI.setDirAuth ha (getSubtreeRoot_isRoot hr), rfl, rfl, rfl, rfl, rfl⟩
    · simp only [bind_ok, assert_ok, pure_ok, Prod.mk.injEq] at h
      obtain ⟨-, hd, c₂, h₂, -, rfl⟩ := h
      have hd' : c.isSubtreeRoot d = false := by
        rw [← hI.key, Option.isSome_eq_false_iff]
        exact hd
      rw [getSubtreeRoot_of_not hd'] at hr
      exact hI.newRoot ha hd' hr h₂

/-- A fragment of a base inode is its own root ("bootstrap hack"). -/
theorem delegate_bootstrap {i : ι} (hi : c.tree.inode d = some i) (hb : bootstrap i = true) :
    ∃ c', c.delegate bootstrap d a = .ok (false, c') := by
  refine ⟨_, bind_ok.mpr ⟨_, bind_ok.mpr ⟨i, deref_ok.mpr hi, if_pos hb⟩, bind_ok.mpr ⟨(), assert_ok.mpr ?_, if_pos rfl⟩⟩⟩
  split
  · assumption
  · simp [newSubtree, getPin, setBounds]

/-- It returns where a root is to be found. -/
theorem delegate_returns (bootstrap : ι → Bool) (hI : Inv c) (hi : (c.tree.inode d).isSome)
    (hr : (c.getSubtreeRoot d).isSome) : ∃ new c', c.delegate bootstrap d a = .ok (new, c') := by
  obtain ⟨i, hi⟩ := Option.isSome_iff_exists.mp hi
  obtain ⟨r, hr⟩ := Option.isSome_iff_exists.mp hr
  have hkr : (c.subtrees r).isSome = true := (hI.key r).trans (getSubtreeRoot_isRoot hr)
  cases hb : bootstrap i with
  | true => exact ⟨false, delegate_bootstrap hi hb⟩
  | false =>
    have hroot : c.currentRoot bootstrap d = .ok (r, c) := by
      refine bind_ok.mpr ⟨i, deref_ok.mpr hi, ?_⟩
      rw [if_neg (by rw [hb]; exact Bool.false_ne_true)]
      exact bind_ok.mpr ⟨(), assert_ok.mpr (by rw [hr]; rfl),
        bind_ok.mpr ⟨r, deref_ok.mpr hr, rfl⟩⟩
    by_cases hrd : r = d
    · exact ⟨false, _, bind_ok.mpr ⟨_, hroot, bind_ok.mpr ⟨(), assert_ok.mpr hkr, if_pos hrd⟩⟩⟩
    · have hd : c.isSubtreeRoot d = false := by
        by_contra hd
        rw [Bool.not_eq_false] at hd
        rw [getSubtreeRoot_of_root hd, Option.some.injEq] at hr
        exact hrd hr.symm
      obtain ⟨c₁, h₁⟩ := claimBounds_returns (c := (c.newSubtree d).setDirAuth d a) (r := r) (d := d)
        fun p hp => by
          rw [show ((c.newSubtree d).setDirAuth d a).bounds r = c.bounds r from
            newSubtree_bounds (hI.bounds_of_not hd)] at hp
          obtain ⟨-, -, q, hq, -⟩ := hI.mem_bounds' hp
          rw [show ((c.newSubtree d).setDirAuth d a).getParentDir p = some q from hq]; rfl
      refine ⟨true, c₁.insertBound r d, bind_ok.mpr ⟨_, hroot, bind_ok.mpr ⟨(), assert_ok.mpr hkr, ?_⟩⟩⟩
      rw [if_neg hrd]
      refine bind_ok.mpr ⟨(), assert_ok.mpr ?_, bind_ok.mpr ⟨c₁, h₁, rfl⟩⟩
      rw [← Option.isSome_eq_false_iff, hI.key, hd]

/-- A root is found for `d`, which belongs to an inode that needs none or is below one. -/
def Delegable (bootstrap : ι → Bool) (c : Cache ι α L) (d : α) : Prop :=
  ∃ i, c.tree.inode d = some i ∧ (bootstrap i = true ∨ (c.getSubtreeRoot d).isSome = true)

theorem Delegable.returns (hI : Inv c) (h : Delegable bootstrap c d) :
    ∃ new c', c.delegate bootstrap d a = .ok (new, c') := by
  obtain ⟨i, hi, hb | hr⟩ := h
  · exact ⟨false, delegate_bootstrap hi hb⟩
  · exact delegate_returns bootstrap hI (by rw [hi]; rfl) hr

end Delegate

/-! ## `adjust_subtree_auth` -/

theorem adjustPop_rest (f : L → L) (n : ℕ) (o : Option α) (c : Cache ι α L) :
    adjustPop f n o c = { c with popAuthSubtree := (adjustPop f n o c).popAuthSubtree } := by
  induction n generalizing o c with
  | zero => rfl
  | succ n ih =>
    cases o with
    | none => rfl
    | some p =>
      simp only [adjustPop]
      split
      · rfl
      · rw [ih]

theorem Owned.adjustPop {own : α → Option α} (hI : Owned own c) (f : L → L) (n : ℕ) (o : Option α) :
    Owned own (adjustPop f n o c) := by
  rw [adjustPop_rest]
  exact ⟨hI.key, hI.pin, hI.mem_bounds, hI.rooted, hI.cached⟩

theorem Inv.adjustPop (hI : Inv c) (f : L → L) (n : ℕ) (o : Option α) :
    Inv (Cache.adjustPop f n o c) :=
  (Owned.adjustPop hI f n o).congr fun s _ => by rw [adjustPop_rest]; rfl

theorem adjustPop_dirAuth (f : L → L) (n : ℕ) (o : Option α) (c : Cache ι α L) :
    (Cache.adjustPop f n o c).dirAuth = c.dirAuth := by
  rw [adjustPop_rest]

theorem adjustPop_frame (f : L → L) (n : ℕ) (o : Option α) (c : Cache ι α L) :
    Frame c (Cache.adjustPop f n o c) := by
  rw [adjustPop_rest]
  exact ⟨rfl, rfl, rfl, rfl⟩

section AdjustSubtreeAuth

variable [AddCommGroup L]

/-- `adjustSubtreeAuth` is an update of `dirAuth`. -/
theorem adjustSubtreeAuth_spec (hI : Inv c) (ha : a ≠ cdirAuthDefault)
    (h : c.adjustSubtreeAuth d a = .ok c') :
    Inv c' ∧ c'.dirAuth = Function.update c.dirAuth d a ∧ Frame c c' := by
  obtain ⟨⟨new, c₁⟩, h₁, h⟩ := bind_ok.mp h
  obtain ⟨hI₁, hA₁, hF₁⟩ := delegate_spec (fun _ h => h) hI ha h₁
  rcases ite_ok.mp h with ⟨-, h⟩ | ⟨-, h⟩
  · rw [pure_ok] at h
    subst h
    exact ⟨Inv.adjustPop hI₁ _ _ _, (adjustPop_dirAuth _ _ _ _).trans hA₁,
      hF₁.trans (adjustPop_frame _ _ _ _)⟩
  · rw [pure_ok] at h
    subst h
    exact ⟨hI₁, hA₁, hF₁⟩

theorem adjustSubtreeAuth_delegable (hI : Inv c) (h : Delegable c.tree.isBase c d) :
    ∃ c', c.adjustSubtreeAuth d a = .ok c' := by
  obtain ⟨new, c₁, h₁⟩ := h.returns (a := a) hI
  by_cases hn : (new && c₁.isAuth d) = true
  · exact ⟨_, bind_ok.mpr ⟨_, h₁, if_pos hn⟩⟩
  · exact ⟨_, bind_ok.mpr ⟨_, h₁, if_neg hn⟩⟩

theorem adjustSubtreeAuth_returns (hI : Inv c) (hi : (c.tree.inode d).isSome)
    (hr : (c.getSubtreeRoot d).isSome) : ∃ c', c.adjustSubtreeAuth d a = .ok c' := by
  obtain ⟨i, hi⟩ := Option.isSome_iff_exists.mp hi
  exact adjustSubtreeAuth_delegable hI ⟨i, hi, .inr hr⟩

end AdjustSubtreeAuth

/-! ## `try_subtree_merge_at` -/

/-- The condition of `try_subtree_merge_at`: `d` has a root above it with the
same unambiguous authority, and is not an export bound. -/
def Mergeable (c : Cache ι α L) (d : α) : Prop :=
  ∃ r, c.rootAbove d = some r ∧ c.dirAuth r = c.dirAuth d ∧
    (c.dirAuth d).second = cdirAuthUnknown ∧ c.exportBound d = false

theorem foldl_insertBound (l : List α) (hr : (c.subtrees r).isSome) :
    l.foldl (fun c p => c.insertBound r p) c =
        { c with subtrees := (l.foldl (fun c p => c.insertBound r p) c).subtrees } ∧
      (∀ x, ((l.foldl (fun c p => c.insertBound r p) c).subtrees x).isSome = (c.subtrees x).isSome) ∧
      ∀ x s, s ∈ (l.foldl (fun c p => c.insertBound r p) c).bounds x ↔
        s ∈ c.bounds x ∨ x = r ∧ s ∈ l := by
  induction l generalizing c with
  | nil => simp
  | cons p l ih =>
    have hk : ∀ x, ((c.insertBound r p).subtrees x).isSome = (c.subtrees x).isSome :=
      fun x => setBounds_key hr
    obtain ⟨h1, h2, h3⟩ := ih ((hk r).trans hr)
    refine ⟨?_, fun x => (h2 x).trans (hk x), fun x s => ?_⟩
    · simp only [List.foldl_cons]
      rw [h1]
      rfl
    · simp only [List.foldl_cons]
      rw [h3, mem_insertBound, List.mem_cons]
      tauto

/-- Unmarking `d`: what `d` owned goes to its own owner. -/
theorem Owned.unmark {own : α → Option α} (hI : Owned own c) (ht : c'.tree = c.tree)
    (hm : c.isSubtreeRoot = Function.update c'.isSubtreeRoot d true)
    (hd : c'.isSubtreeRoot d = false) (hr : c.rootAbove d = some r) (ho : own d = some r)
    (hk : ∀ x, (c'.subtrees x).isSome = c'.isSubtreeRoot x)
    (hp : ∀ x, c'.pinSubtree x = if c'.isSubtreeRoot x then 1 else 0)
    (hb : ∀ x s, s ∈ c'.bounds x ↔
      x ≠ d ∧ (s ∈ c.bounds x ∨ x = r ∧ s ∈ c.bounds d) ∧ ¬ (x = r ∧ s = d)) :
    Owned (fun s => if own s = some d then some r else own s) c' := by
  have hne : r ≠ d := c.tree.forest.above_ne hr
  have hroot : ∀ {s}, c'.isSubtreeRoot s = true → s ≠ d ∧ c.isSubtreeRoot s = true := by
    intro s hs
    have hsd : s ≠ d := fun e => by rw [e, hd] at hs; cases hs
    exact ⟨hsd, by rw [hm, Function.update_of_ne hsd, hs]⟩
  refine ⟨hk, hp, fun x s => ?_, fun {s q} hs hq => ?_, fun hs => ?_⟩
  · rw [hb, hI.mem_bounds, hI.mem_bounds]
    by_cases hs : s = d
    · subst hs
      rw [hd]
      grind
    · have : c.isSubtreeRoot s = c'.isSubtreeRoot s := by rw [hm, Function.update_of_ne hs]
      rw [this]
      grind
  · obtain ⟨-, hs⟩ := hroot hs
    rw [getParentDir, ht] at hq
    rcases getSubtreeRoot_mark ht.symm hm hd q with h | ⟨-, h⟩
    · rw [← h]
      exact hI.rooted hs hq
    · rw [h, ← rootAbove_mark_self ht.symm hm, hr]; rfl
  · rw [ht]
    exact hI.cached (hroot hs).2

/-- What the owner of the remaining roots becomes when `d` is unmarked. -/
theorem rootAbove_unmark (ht : c'.tree = c.tree)
    (hm : c.isSubtreeRoot = Function.update c'.isSubtreeRoot d true)
    (hd : c'.isSubtreeRoot d = false) (s : α) :
    c'.rootAbove s = if c.rootAbove s = some d then c.rootAbove d else c.rootAbove s := by
  have h2 : c'.rootAbove s ≠ some d := by
    intro h
    rw [rootAbove_isRoot h] at hd
    cases hd
  have hself := rootAbove_mark_self ht.symm hm
  rcases rootAbove_mark ht.symm hm hd s with h | ⟨h, h'⟩
  · rw [if_neg (by rwa [h]), h]
  · rw [if_pos h, hself, h']

theorem isSubtreeRoot_clear (hd : c.isSubtreeRoot d = true)
    (h : c'.dirAuth = Function.update c.dirAuth d cdirAuthDefault) :
    c'.isSubtreeRoot d = false ∧ c.isSubtreeRoot = Function.update c'.isSubtreeRoot d true := by
  refine ⟨by simp [isSubtreeRoot, h], funext fun x => ?_⟩
  by_cases hx : x = d
  · rw [hx, hd, Function.update_self]
  · simp [isSubtreeRoot, h, hx]

/-- The branch "merge with parent". -/
theorem Owned.mergeMap {own : α → Option α} (hI : Owned own c) (hd : c.isSubtreeRoot d = true)
    (hr : c.rootAbove d = some r) (ho : own d = some r)
    (h : ((ascending (c.bounds d)).foldl (fun c p => c.insertBound r p)
      (c.setDirAuth d cdirAuthDefault)).putPin d = .ok c₁) :
    Owned (fun s => if own s = some d then some r else own s) ((c₁.eraseSubtree d).eraseBound r d) ∧
      ((c₁.eraseSubtree d).eraseBound r d).dirAuth = Function.update c.dirAuth d cdirAuthDefault ∧
      Frame c ((c₁.eraseSubtree d).eraseBound r d) := by
  have hne : r ≠ d := c.tree.forest.above_ne hr
  have hkr : (c.subtrees r).isSome := (hI.key r).trans (rootAbove_isRoot hr)
  obtain ⟨h1, h2, h3⟩ := foldl_insertBound (c := c.setDirAuth d cdirAuthDefault)
    (ascending (c.bounds d)) hkr
  obtain ⟨_, -, h⟩ := bind_ok.mp h
  rw [pure_ok] at h
  have hA : ((c₁.eraseSubtree d).eraseBound r d).dirAuth =
      Function.update c.dirAuth d cdirAuthDefault := by
    rw [← h, h1]; rfl
  have hF : Frame c ((c₁.eraseSubtree d).eraseBound r d) := by
    rw [← h, h1]
    exact ⟨rfl, rfl, rfl, rfl⟩
  obtain ⟨hd', hm⟩ := isSubtreeRoot_clear hd hA
  have hs₁ : c₁.subtrees = ((ascending (c.bounds d)).foldl (fun c p => c.insertBound r p)
      (c.setDirAuth d cdirAuthDefault)).subtrees := by rw [← h]
  refine ⟨hI.unmark hF.tree hm hd' hr ho (fun x => ?_) (fun x => ?_) (fun x s => ?_), hA, hF⟩
  · have hke : ((c₁.eraseSubtree d).subtrees r).isSome := by
      simp only [eraseSubtree, Function.update_of_ne hne, hs₁, h2]
      exact hkr
    rw [eraseBound, setBounds_key hke]
    by_cases hx : x = d
    · subst hx
      rw [show ((c₁.eraseSubtree x).setBounds r _).isSubtreeRoot x = false from hd']
      simp [eraseSubtree]
    · simp only [eraseSubtree, Function.update_of_ne hx, hs₁, h2]
      rw [show ((c.setDirAuth d cdirAuthDefault).subtrees x) = c.subtrees x from rfl, hI.key x, hm,
        Function.update_of_ne hx]
      rfl
  · have hp := hI.pin x
    have hpin : ((c₁.eraseSubtree d).eraseBound r d).pinSubtree =
        Function.update c.pinSubtree d (c.pinSubtree d - 1) := by
      rw [← h, h1]; rfl
    rw [hpin]
    by_cases hx : x = d
    · subst hx
      rw [hd', Function.update_self, hp, hd]
      rfl
    · rw [Function.update_of_ne hx, hp, hm, Function.update_of_ne hx]
  · have hbe : (c₁.eraseSubtree d).bounds x = if x = d then ∅ else c₁.bounds x := by
      by_cases hx : x = d <;> simp [eraseSubtree, bounds, hx]
    have hb₁ : c₁.bounds x = ((ascending (c.bounds d)).foldl (fun c p => c.insertBound r p)
      (c.setDirAuth d cdirAuthDefault)).bounds x := by simp only [bounds, hs₁]
    rw [mem_eraseBound, hbe]
    by_cases hx : x = d
    · simp [hx]
    · rw [if_neg hx, hb₁, h3, mem_ascending]
      simp only [hx, ne_eq, not_false_eq_true, true_and]
      rfl

section TrySubtreeMergeAt

variable [AddCommGroup L] {own : α → Option α}

theorem mergeInto_spec (hI : Owned own c) (hd : c.isSubtreeRoot d = true)
    (hr : c.rootAbove d = some r) (ho : own d = some r) (h : c.mergeInto d r = .ok c') :
    Owned (fun s => if own s = some d then some r else own s) c' ∧ Frame c c' ∧
      c'.dirAuth = Function.update c.dirAuth d cdirAuthDefault := by
  obtain ⟨c₁, h₁, h⟩ := bind_ok.mp h
  obtain ⟨hI₁, hA₁, hF₁⟩ := hI.mergeMap hd hr ho h₁
  rcases ite_ok.mp h with ⟨-, h⟩ | ⟨-, h⟩
  · rw [pure_ok] at h
    subst h
    exact ⟨hI₁.adjustPop _ _ _, hF₁.trans (adjustPop_frame _ _ _ _),
      (adjustPop_dirAuth _ _ _ _).trans hA₁⟩
  · rw [pure_ok] at h
    subst h
    exact ⟨hI₁, hF₁, hA₁⟩

theorem mergeInto_returns (hI : Owned own c) (hd : c.isSubtreeRoot d = true)
    (hr : c.rootAbove d = some r) : ∃ c', c.mergeInto d r = .ok c' := by
  have hkr := (hI.key r).trans (rootAbove_isRoot hr)
  have hpin : 0 < ((ascending ((c.setDirAuth d cdirAuthDefault).bounds d)).foldl
      (fun c p => c.insertBound r p) (c.setDirAuth d cdirAuthDefault)).pinSubtree d := by
    rw [(foldl_insertBound (c := c.setDirAuth d cdirAuthDefault) _ hkr).1]
    exact (hI.pin d).trans (if_pos hd) ▸ Nat.one_pos
  obtain ⟨c₁, h₁⟩ : ∃ c₁, ((ascending ((c.setDirAuth d cdirAuthDefault).bounds d)).foldl
      (fun c p => c.insertBound r p) (c.setDirAuth d cdirAuthDefault)).putPin d = .ok c₁ :=
    ⟨_, bind_ok.mpr ⟨(), assert_ok.mpr (decide_eq_true hpin), rfl⟩⟩
  by_cases ha : ((c₁.eraseSubtree d).eraseBound r d).isAuth d = true
  · exact ⟨_, bind_ok.mpr ⟨c₁, h₁, if_pos ha⟩⟩
  · exact ⟨_, bind_ok.mpr ⟨c₁, h₁, if_neg ha⟩⟩

/-- `trySubtreeMergeAt` where `d` is listed under the root above it: a
mergeable `d` is unmarked, and nothing happens otherwise. -/
theorem Owned.trySubtreeMergeAt (hI : Owned own c) (ho : own d = c.rootAbove d)
    (h : c.trySubtreeMergeAt d = .ok c') :
    c.isSubtreeRoot d = true ∧ (Mergeable c d ∧
      Owned (fun s => if own s = some d then c.rootAbove d else own s) c' ∧ Frame c c' ∧
      c'.dirAuth = Function.update c.dirAuth d cdirAuthDefault ∨ ¬ Mergeable c d ∧ c' = c) := by
  obtain ⟨_, hk, h⟩ := bind_ok.mp h
  obtain ⟨r, hr, h⟩ := bind_ok.mp h
  rw [assert_ok, hI.key] at hk
  have hr' := mergeParent_spec hr
  refine ⟨hk, ?_⟩
  rcases ite_ok.mp h with ⟨⟨hne, hA, hu, he⟩, h⟩ | ⟨hno, h⟩
  · have hr'' : c.rootAbove d = some r := hr'.resolve_left fun h => hne h.1
    refine .inl ⟨⟨r, hr'', hA, hu, he⟩, ?_⟩
    rw [hr'']
    exact mergeInto_spec hI hk hr'' (ho.trans hr'') h
  · rw [pure_ok] at h
    refine .inr ⟨?_, h.symm⟩
    rintro ⟨r', hr'', hA, hu, he⟩
    rcases hr' with ⟨-, hn⟩ | hr'
    · rw [hn] at hr''
      cases hr''
    · obtain rfl : r = r' := Option.some.inj (hr'.symm.trans hr'')
      exact hno ⟨c.tree.forest.above_ne hr', hA, hu, he⟩

/-- `trySubtreeMergeAt` gives `d` the default authority if it is mergeable,
and changes nothing otherwise. -/
theorem trySubtreeMergeAt_spec (hI : Inv c) (h : c.trySubtreeMergeAt d = .ok c') :
    c.isSubtreeRoot d = true ∧ (Mergeable c d ∧ Inv c' ∧ Frame c c' ∧
      c'.dirAuth = Function.update c.dirAuth d cdirAuthDefault ∨ ¬ Mergeable c d ∧ c' = c) := by
  obtain ⟨hd, ⟨hM, hO, hF, hA⟩ | h⟩ := hI.trySubtreeMergeAt rfl h
  · obtain ⟨hd', hm⟩ := isSubtreeRoot_clear hd hA
    exact ⟨hd, .inl ⟨hM, hO.congr fun s _ => (rootAbove_unmark hF.tree hm hd' s).symm, hF, hA⟩⟩
  · exact ⟨hd, .inr h⟩

/-- It returns at a root that has one above it. -/
theorem trySubtreeMergeAt_returns (hI : Owned own c) (hd : c.isSubtreeRoot d = true)
    (hr : c.rootAbove d = some r) : ∃ c', c.trySubtreeMergeAt d = .ok c' := by
  obtain ⟨c', h'⟩ := mergeInto_returns hI hd hr
  by_cases hm : r ≠ d ∧ c.dirAuth r = c.dirAuth d ∧ (c.dirAuth d).second = cdirAuthUnknown ∧
      c.exportBound d = false
  · exact ⟨c', bind_ok.mpr ⟨(), assert_ok.mpr ((hI.key d).trans hd),
      bind_ok.mpr ⟨r, mergeParent_returns hr, (if_pos hm).trans h'⟩⟩⟩
  · exact ⟨c, bind_ok.mpr ⟨(), assert_ok.mpr ((hI.key d).trans hd),
      bind_ok.mpr ⟨r, mergeParent_returns hr, if_neg hm⟩⟩⟩

end TrySubtreeMergeAt

end CephMds.Cache
