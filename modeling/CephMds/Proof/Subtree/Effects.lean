import CephMds.Proof.Subtree.Bounded
import CephMds.Proof.Subtree.Rename

/-!
# What a rename does to the authorities

The effect of `adjust_subtree_auth`, `try_subtree_merge_at` and
`adjust_subtree_after_rename` on `dirAuth`, in any state whose keys are the
subtree roots (`Keyed`), whatever the bounds are: between the moves of two
directories the bounds of the second are out of date. Each changes `dirAuth` at
its fragment alone. A rename from and to subtrees of other ranks neither takes
a fragment from this rank nor gives it one (`adjustSubtreeAfterRename_quiet`).
-/

namespace CephMds.Cache

variable {ι α L : Type} {I : InodeAuthority ι α} {c c' c₁ c₂ : Cache ι α L} {d r p : α} {a : Auth} {i : ι}

open Checked

/-- The keys of the map are the subtree roots. -/
def Keyed (c : Cache ι α L) : Prop := ∀ d, (c.subtrees d).isSome = c.isSubtreeRoot d

/-- The directories are those of `c`, the keys are the roots, and `dirAuth` is `f`. -/
structure Effect (c c' : Cache ι α L) (f : α → Auth) : Prop where
  tree : c'.tree = c.tree
  keyed : c'.Keyed
  dirAuth : c'.dirAuth = f

theorem Effect.refl (h : c.Keyed) : Effect c c c.dirAuth := ⟨rfl, h, rfl⟩

theorem Effect.trans {f g : α → Auth} (h : Effect c c₁ f) (h' : Effect c₁ c₂ g) : Effect c c₂ g :=
  ⟨h'.tree.trans h.tree, h'.keyed, h'.dirAuth⟩

theorem Keyed.of_same (h : c.Keyed) (hk : ∀ x, (c'.subtrees x).isSome = (c.subtrees x).isSome)
    (hA : c'.dirAuth = c.dirAuth) : c'.Keyed := fun x => by
  rw [hk, h x, isSubtreeRoot_eq hA]

theorem Keyed.root (h : c.Keyed) (hr : c.isSubtreeRoot r = true) : (c.subtrees r).isSome := (h r).trans hr

variable [LinearOrder α]

theorem Keyed.moveBounds {l : List α} {s : α} (h : c.Keyed) (hr : c.isSubtreeRoot r = true)
    (hs : c.isSubtreeRoot s = true) :
    Effect c (l.foldl (fun c b => (c.eraseBound r b).insertBound s b) c) c.dirAuth := by
  induction l generalizing c with
  | nil => exact .refl h
  | cons b l ih =>
    have hk : ∀ x, (((c.eraseBound r b).insertBound s b).subtrees x).isSome = (c.subtrees x).isSome := by
      intro x
      rw [insertBound, setBounds_key, eraseBound, setBounds_key (h.root hr)]
      rw [eraseBound, setBounds_key (h.root hr)]
      exact h.root hs
    have h₁ : ((c.eraseBound r b).insertBound s b).Keyed := h.of_same hk rfl
    have h₂ := ih h₁ hr hs
    exact ⟨h₂.tree, h₂.keyed, h₂.dirAuth⟩

section Operations

variable [AddCommGroup L]

theorem mergeInto_effect (h : c.Keyed) (hr : c.isSubtreeRoot r = true) (hne : r ≠ d)
    (ho : c.mergeInto d r = .ok c') : Effect c c' (Function.update c.dirAuth d cdirAuthDefault) := by
  obtain ⟨c₁, h₁, ho⟩ := bind_ok.mp ho
  obtain ⟨_, -, h₁⟩ := bind_ok.mp h₁
  rw [pure_ok] at h₁
  obtain ⟨e₁, e₂, -⟩ := foldl_insertBound (c := c.setDirAuth d cdirAuthDefault) (r := r) (ascending (c.bounds d))
    (h.root hr)
  have hs₁ : c₁.subtrees = ((ascending (c.bounds d)).foldl (fun c p => c.insertBound r p)
      (c.setDirAuth d cdirAuthDefault)).subtrees := by rw [← h₁]; rfl
  have hA : ((c₁.eraseSubtree d).eraseBound r d).dirAuth = Function.update c.dirAuth d cdirAuthDefault := by
    rw [← h₁]
    show ((ascending (c.bounds d)).foldl (fun c p => c.insertBound r p)
      (c.setDirAuth d cdirAuthDefault)).dirAuth = _
    rw [e₁]
    rfl
  have ht : ((c₁.eraseSubtree d).eraseBound r d).tree = c.tree := by
    rw [← h₁]
    show ((ascending (c.bounds d)).foldl (fun c p => c.insertBound r p)
      (c.setDirAuth d cdirAuthDefault)).tree = _
    rw [e₁]
    rfl
  have hkey : ∀ x, ((c₁.eraseSubtree d).subtrees x).isSome = if x = d then false else (c.subtrees x).isSome := by
    intro x
    by_cases hx : x = d
    · simp [eraseSubtree, hx]
    · simp only [eraseSubtree, Function.update_of_ne hx, hs₁, e₂, if_neg hx]
      rfl
  have hk : ((c₁.eraseSubtree d).eraseBound r d).Keyed := by
    intro x
    rw [isSubtreeRoot, hA, eraseBound, setBounds_key (by rw [hkey, if_neg hne]; exact h.root hr), hkey]
    by_cases hx : x = d
    · simp [hx]
    · rw [if_neg hx, Function.update_of_ne hx]
      exact h x
  rcases ite_ok.mp ho with ⟨-, ho⟩ | ⟨-, ho⟩
  · rw [pure_ok] at ho
    rw [← ho, adjustPop_rest]
    exact ⟨ht, hk, hA⟩
  · rw [pure_ok] at ho
    rw [← ho]
    exact ⟨ht, hk, hA⟩

/-- `try_subtree_merge_at` at `d`: a merge with the root above it, which has the same authority, or nothing. -/
theorem trySubtreeMergeAt_effect (h : c.Keyed) (ho : c.trySubtreeMergeAt d = .ok c') :
    Effect c c' c.dirAuth ∨ ∃ r, c.rootAbove d = some r ∧ c.dirAuth r = c.dirAuth d ∧
      Effect c c' (Function.update c.dirAuth d cdirAuthDefault) := by
  obtain ⟨_, -, ho⟩ := bind_ok.mp ho
  obtain ⟨r, hr, ho⟩ := bind_ok.mp ho
  rcases ite_ok.mp ho with ⟨⟨hne, hA, -, -⟩, ho⟩ | ⟨-, ho⟩
  · have hr' : c.rootAbove d = some r := (mergeParent_spec hr).resolve_left fun h => hne h.1
    exact .inr ⟨r, hr', hA, mergeInto_effect h (rootAbove_isRoot hr') hne ho⟩
  · rw [pure_ok] at ho
    rw [← ho]
    exact .inl (.refl h)

omit [AddCommGroup L] in
theorem claimBounds_effect (hr : (c.subtrees r).isSome) (hd : (c.subtrees d).isSome)
    (ho : c.claimBounds r d = .ok c') : c'.tree = c.tree ∧ c'.dirAuth = c.dirAuth ∧
      ∀ x, (c'.subtrees x).isSome = (c.subtrees x).isSome := by
  refine foldlM_invariant (P := fun c' : Cache ι α L => c'.tree = c.tree ∧ c'.dirAuth = c.dirAuth ∧
    ∀ x, (c'.subtrees x).isSome = (c.subtrees x).isSome) ?_ ⟨rfl, rfl, fun _ => rfl⟩ ho
  rintro c₁ p c₂ - ⟨ht, hA, hk⟩ h₁
  obtain ⟨q, -, h₁⟩ := bind_ok.mp h₁
  rcases ite_ok.mp h₁ with ⟨-, h₁⟩ | ⟨-, h₁⟩
  · rw [pure_ok] at h₁
    subst h₁
    refine ⟨ht, hA, fun x => ?_⟩
    rw [eraseBound, setBounds_key, insertBound, setBounds_key ((hk d).trans hd), hk x]
    rw [insertBound, setBounds_key ((hk d).trans hd), hk r]
    exact hr
  · rw [pure_ok] at h₁
    subst h₁
    exact ⟨ht, hA, hk⟩

/-- `adjust_subtree_auth` at `d`. -/
theorem adjustSubtreeAuth_effect (h : c.Keyed) (ha : a ≠ cdirAuthDefault) (ho : c.adjustSubtreeAuth d a = .ok c') :
    Effect c c' (Function.update c.dirAuth d a) := by
  obtain ⟨⟨new, c₃⟩, h₁, ho⟩ := bind_ok.mp ho
  suffices H : Effect c c₃ (Function.update c.dirAuth d a) by
    rcases ite_ok.mp ho with ⟨-, ho⟩ | ⟨-, ho⟩
    · rw [pure_ok] at ho
      rw [← ho, adjustPop_rest]
      exact ⟨H.tree, H.keyed, H.dirAuth⟩
    · rw [pure_ok] at ho
      rw [← ho]
      exact H
  obtain ⟨⟨root, c₁⟩, hroot, h₁⟩ := bind_ok.mp h₁
  obtain ⟨_, hk, h₁⟩ := bind_ok.mp h₁
  rw [assert_ok] at hk
  -- the current root is `d` itself, which is made a key, or another root
  have hc₁ : c₁.tree = c.tree ∧ c₁.dirAuth = c.dirAuth ∧
      ∀ x, x ≠ d → (c₁.subtrees x).isSome = (c.subtrees x).isSome := by
    obtain ⟨i, -, hroot⟩ := bind_ok.mp hroot
    rcases ite_ok.mp hroot with ⟨-, hroot⟩ | ⟨-, hroot⟩
    · rw [pure_ok, Prod.mk.injEq] at hroot
      rw [← hroot.2]
      split
      · exact ⟨rfl, rfl, fun _ _ => rfl⟩
      · exact ⟨rfl, rfl, fun x hx => by simp [newSubtree, getPin, setBounds, hx]⟩
    · simp only [bind_ok, pure_ok, Prod.mk.injEq] at hroot
      obtain ⟨-, -, -, -, -, rfl⟩ := hroot
      exact ⟨rfl, rfl, fun _ _ => rfl⟩
  obtain ⟨ht₁, hA₁, hk₁⟩ := hc₁
  have hkeyed : ∀ c₂ : Cache ι α L, c₂.dirAuth = Function.update c.dirAuth d a → (c₂.subtrees d).isSome →
      (∀ x, x ≠ d → (c₂.subtrees x).isSome = (c.subtrees x).isSome) → c₂.Keyed := by
    intro c₂ hA hd hx x
    by_cases hxd : x = d
    · rw [hxd, hd, isSubtreeRoot, hA, Function.update_self]
      simp [ha]
    · rw [hx x hxd, h x, isSubtreeRoot, isSubtreeRoot, hA, Function.update_of_ne hxd]
  rcases ite_ok.mp h₁ with ⟨hrd, h₁⟩ | ⟨hrd, h₁⟩
  · rw [pure_ok, Prod.mk.injEq] at h₁
    rw [← h₁.2]
    have hA : (c₁.setDirAuth d a).dirAuth = Function.update c.dirAuth d a := by simp [setDirAuth, hA₁]
    exact ⟨ht₁, hkeyed _ hA (hrd ▸ hk) hk₁, hA⟩
  · simp only [bind_ok, assert_ok, pure_ok, Prod.mk.injEq] at h₁
    obtain ⟨-, -, c₂, h₂, -, rfl⟩ := h₁
    have hnew : ((c₁.newSubtree d).setDirAuth d a).subtrees = Function.update c₁.subtrees d (some ∅) := rfl
    have hr : (((c₁.newSubtree d).setDirAuth d a).subtrees root).isSome := by
      rw [hnew, Function.update_of_ne hrd]
      exact hk
    obtain ⟨ht₂, hA₂, hk₂⟩ := claimBounds_effect hr (by rw [hnew, Function.update_self]; rfl) h₂
    have hA : (c₂.insertBound root d).dirAuth = Function.update c.dirAuth d a := by
      rw [insertBound_dirAuth, hA₂]
      simp [setDirAuth, newSubtree, getPin, setBounds, hA₁]
    refine ⟨ht₂.trans ht₁, hkeyed _ hA ?_ fun x hx => ?_, hA⟩
    · rw [insertBound, setBounds_key ((hk₂ root).trans hr), hk₂, hnew, Function.update_self]
      rfl
    · rw [insertBound, setBounds_key ((hk₂ root).trans hr), hk₂, hnew, Function.update_of_ne hx, hk₁ x hx]

end Operations

/-! ## A rename from and to other ranks' subtrees -/

section Quiet

variable {q : Prop} {w : ℤ} {m : α → Bool} {o n : α}

/-- The fragment is not in a subtree of rank `w`. -/
def Foreign (w : ℤ) (c : Cache ι α L) (d : α) : Prop := ∀ R, c.getSubtreeRoot d = some R → (c.dirAuth R).first ≠ w

/-- Only the authorities of the fragments in `m` are changed; given `q`, to and from other ranks. -/
structure Quiet (q : Prop) (w : ℤ) (m : α → Bool) (c c' : Cache ι α L) : Prop where
  tree : c'.tree = c.tree
  keyed : c'.Keyed
  other : ∀ x, m x = false → c'.dirAuth x = c.dirAuth x
  rank : q → ∀ x, (c'.dirAuth x).first = w ↔ (c.dirAuth x).first = w

omit [LinearOrder α] in
theorem Quiet.refl (h : c.Keyed) : Quiet q w m c c := ⟨rfl, h, fun _ _ => rfl, fun _ _ => Iff.rfl⟩

omit [LinearOrder α] in
theorem Quiet.trans (h : Quiet q w m c c₁) (h' : Quiet q w m c₁ c₂) : Quiet q w m c c₂ :=
  ⟨h'.tree.trans h.tree, h'.keyed, fun x hx => (h'.other x hx).trans (h.other x hx),
    fun hq x => (h'.rank hq x).trans (h.rank hq x)⟩

omit [LinearOrder α] in
/-- It does not change the root above a fragment that is not below `m`. -/
theorem Quiet.getSubtreeRoot (h : Quiet q w m c c') (hd : c.tree.forest.nearest m d = none) :
    c'.getSubtreeRoot d = c.getSubtreeRoot d := by
  rw [Cache.getSubtreeRoot, Cache.getSubtreeRoot, h.tree]
  refine c.tree.forest.nearest_avoids (fun _ _ => rfl) (fun x hx => ?_) hd
  rw [isSubtreeRoot, isSubtreeRoot, h.other x hx]

omit [LinearOrder α] in
theorem Quiet.foreign (h : Quiet q w m c c') (hd : c.tree.forest.nearest m d = none) (hf : Foreign w c d) :
    Foreign w c' d := by
  intro R hR
  rw [h.getSubtreeRoot hd] at hR
  rw [h.other R (c.tree.forest.not_of_avoids hd hR)]
  exact hf R hR

omit [LinearOrder α] in
theorem default_first (hw : 0 ≤ w) : cdirAuthDefault.first ≠ w := by
  show (-1 : ℤ) ≠ w
  omega

/-- A change at one fragment, from another rank to another rank. -/
theorem Effect.quiet (h : Effect c c' (Function.update c.dirAuth d a)) (hd : m d = true)
    (ha : q → (a.first = w ↔ (c.dirAuth d).first = w)) : Quiet q w m c c' := by
  have hA := h.dirAuth
  refine ⟨h.tree, h.keyed, fun x hx => ?_, fun hq x => ?_⟩
  · by_cases hxd : x = d
    · rw [hxd, hd] at hx
      cases hx
    · simp [hA, hxd]
  · by_cases hxd : x = d
    · simp [hA, hxd, ha hq]
    · simp [hA, hxd]

variable [AddCommGroup L]

/-- One fragment of the inode that has moved from `o` to `n`. -/
theorem renameDirfrag_quiet (hw : 0 ≤ w) (h : c.Keyed) (hm : m d = true) (hd : c.tree.inode d = some i)
    (hp : c.tree.parentDir i = some n) (ho : q → Foreign w c o) (hn : q → Foreign w c n)
    (hs : renameDirfrag I o n c d = .ok c') : Quiet q w m c c' := by
  have hparent : c.getParentDir d = some n := by simp [getParentDir, DirTree.forest, hd, hp]
  rcases ite_ok.mp hs with ⟨-, hs⟩ | ⟨-, hs⟩
  · rw [pure_ok] at hs
    rw [← hs]
    exact .refl h
  obtain ⟨O, hO, hs⟩ := bind_ok.mp hs
  obtain ⟨N, hN, hs⟩ := bind_ok.mp hs
  rw [deref_ok] at hO hN
  have hrO := getSubtreeRoot_isRoot hO
  have hrN := getSubtreeRoot_isRoot hN
  rcases ite_ok.mp hs with ⟨hroot, hs⟩ | ⟨hroot, hs⟩
  · -- a root, which may be merged with the root above `n`
    simp only [bind_ok, assert_ok, decide_eq_true_eq] at hs
    obtain ⟨-, -, -, -, hs⟩ := hs
    have h₁ : Effect c ((c.eraseBound O d).insertBound N d) c.dirAuth := h.moveBounds (l := [d]) hrO hrN
    rcases trySubtreeMergeAt_effect h₁.keyed hs with h₂ | ⟨r, hr, hA, h₂⟩
    · refine Effect.quiet (a := c.dirAuth d) ?_ hm fun _ => Iff.rfl
      rw [Function.update_eq_self]
      exact h₁.trans h₂
    · have hr' : c.getSubtreeRoot n = some r := by
        rw [← rootAbove_of_parent hparent, ← hr]
        rfl
      refine (h₁.trans h₂).quiet hm fun hq => iff_of_false (default_first hw) ?_
      rw [show c.dirAuth d = c.dirAuth r from hA.symm]
      exact hn hq r hr'
  · -- no root: it may become one with the authority of the root above `o`
    obtain ⟨l, -, hs⟩ := bind_ok.mp hs
    have hnot : (c.dirAuth d).first ≠ w := by
      rw [isSubtreeRoot_iff, not_not] at hroot
      rw [hroot]
      exact default_first hw
    have h₁ : Effect c (l.foldl (fun c b => (c.eraseBound O b).insertBound N b) c) c.dirAuth := h.moveBounds hrO hrN
    generalize l.foldl (fun c b => (c.eraseBound O b).insertBound N b) c = c₁ at h₁ hs
    rcases ite_ok.mp hs with ⟨-, hs⟩ | ⟨-, hs⟩
    · obtain ⟨c₂, h₂, hs⟩ := bind_ok.mp hs
      have ha : c₁.authority I O = c.dirAuth O := by
        rw [authority_of_root, h₁.dirAuth]
        rw [isSubtreeRoot, h₁.dirAuth]
        exact hrO
      rw [ha] at h₂
      have h₂ := adjustSubtreeAuth_effect h₁.keyed (isSubtreeRoot_iff.mp hrO) h₂
      rcases trySubtreeMergeAt_effect h₂.keyed hs with h₃ | ⟨r, -, -, h₃⟩
      · rw [h₂.dirAuth, h₁.dirAuth] at h₃
        exact ((h₁.trans h₂).trans h₃).quiet hm fun hq => iff_of_false (ho hq O hO) hnot
      · rw [h₂.dirAuth, h₁.dirAuth, Function.update_idem] at h₃
        exact ((h₁.trans h₂).trans h₃).quiet hm fun _ => iff_of_false (default_first hw) hnot
    · rw [pure_ok] at hs
      rw [← hs]
      refine Effect.quiet (a := c.dirAuth d) ?_ hm fun _ => Iff.rfl
      rw [Function.update_eq_self]
      exact h₁

/-- The loop of `adjust_subtree_after_rename`, where `o` and `n` are not below `m`. -/
theorem renameDirfrags_quiet {l : List α} (hw : 0 ≤ w) (h : c.Keyed) (hm : ∀ d ∈ l, m d = true)
    (hl : ∀ d ∈ l, c.tree.inode d = some i) (hp : c.tree.parentDir i = some n)
    (hoo : c.tree.forest.nearest m o = none) (hon : c.tree.forest.nearest m n = none) (ho : q → Foreign w c o)
    (hn : q → Foreign w c n) (hs : l.foldlM (renameDirfrag I o n) c = .ok c') : Quiet q w m c c' := by
  refine foldlM_invariant (P := Quiet q w m c) (fun c₁ d c₂ hd hc h₁ => hc.trans ?_) (.refl h) hs
  exact renameDirfrag_quiet hw hc.keyed (hm d hd) (by rw [hc.tree]; exact hl d hd) (by rw [hc.tree]; exact hp)
    (fun hq => hc.foreign hoo (ho hq)) (fun hq => hc.foreign hon (hn hq)) h₁

/-- The whole function, in the tree in which `i` has moved. -/
theorem adjustSubtreeAfterRename_quiet [DecidableEq ι] {pop : Bool} (hw : 0 ≤ w) (h : c.Keyed)
    (hm : ∀ d, c.tree.inode d = some i → m d = true) (hp : c.tree.parentDir i = some n)
    (hoo : c.tree.forest.nearest m o = none) (hon : c.tree.forest.nearest m n = none)
    (ho : q → Foreign w c o) (hn : q → Foreign w c n)
    (hs : c.adjustSubtreeAfterRename I i o pop = .ok c') : Quiet q w m c c' := by
  obtain ⟨c₁, h₁, hs⟩ := bind_ok.mp hs
  obtain ⟨rs, rfl⟩ : ∃ rs, c₁ = { c with projectedSubtreeRenames := rs } := ⟨_, popProjectedRename_rest h₁⟩
  simp only [hp, deref_some_bind] at hs
  have hl : ∀ d ∈ (c.tree.dirfrags i).filter ({ c with projectedSubtreeRenames := rs } : Cache ι α L).isSubtreeRoot ++
      (c.tree.dirfrags i).filter (fun d => !({ c with projectedSubtreeRenames := rs } : Cache ι α L).isSubtreeRoot d),
      c.tree.inode d = some i := by
    intro d hd
    rw [← c.tree.mem_dirfrags]
    rcases List.mem_append.mp hd with hd | hd
    · exact List.mem_of_mem_filter hd
    · exact List.mem_of_mem_filter hd
  have hc := renameDirfrags_quiet (c := { c with projectedSubtreeRenames := rs }) hw h (fun d hd => hm d (hl d hd)) hl
    hp hoo hon ho hn hs
  exact ⟨hc.tree, hc.keyed, hc.other, hc.rank⟩

end Quiet

/-! ## Authorities -/

section Authority

variable {m : α → Bool} {R : α}

omit [LinearOrder α]

/-- The authority of a fragment is that of the root above it. -/
theorem authority_of_getSubtreeRoot (h : c.getSubtreeRoot d = some R) : c.authority I d = c.dirAuth R := by
  induction d using c.tree.forest.downward with
  | _ d ih =>
    cases hr : c.isSubtreeRoot d with
    | true =>
      rw [getSubtreeRoot_of_root hr] at h
      cases h
      exact authority_of_root hr
    | false =>
      rw [getSubtreeRoot_of_not hr] at h
      obtain ⟨q, hq, h⟩ := rootAbove_eq_some.mp h
      rw [authority_of_parent hr hq]
      exact ih q hq h

theorem foreign_of_authority {w : ℤ} (h : (c.authority I d).first ≠ w) : Foreign w c d := by
  intro R hR
  rw [← authority_of_getSubtreeRoot (I := I) hR]
  exact h

/-- An inode has the authority of the fragment that it is linked in. -/
theorem authority_inode (h : c.tree.parentDir i = some d) :
    I.authority c.tree c.dirAuth i = c.authority I d := by
  rw [I.of_parent h, authority]
  cases hr : c.isSubtreeRoot d with
  | true => rw [if_neg (isSubtreeRoot_iff.mp hr), if_pos rfl]
  | false => rw [if_pos (by simpa [isSubtreeRoot] using hr), if_neg Bool.false_ne_true]

/-- The authority of a fragment that is not below `m` depends on nothing in `m`. -/
theorem authority_avoids (hi : ∀ x, m x = false → c'.tree.inode x = c.tree.inode x)
    (hp : ∀ x i, m x = false → c.tree.inode x = some i → c'.tree.parentDir i = c.tree.parentDir i)
    (hA : ∀ x, m x = false → c'.dirAuth x = c.dirAuth x) (hd : c.tree.forest.nearest m d = none) :
    c'.authority I d = c.authority I d := by
  induction d using c.tree.forest.downward with
  | _ d ih =>
    obtain ⟨hmd, hup⟩ := c.tree.forest.nearest_eq_none.mp hd
    have hroot : c'.isSubtreeRoot d = c.isSubtreeRoot d := by rw [isSubtreeRoot, isSubtreeRoot, hA d hmd]
    cases hr : c.isSubtreeRoot d with
    | true =>
      rw [authority_of_root hr, authority_of_root (hroot.trans hr), hA d hmd]
    | false =>
      cases hin : c.tree.inode d with
      | none => simp only [authority, hroot, hr, hi d hmd, hin, Bool.false_eq_true, if_false]
      | some i =>
        have hpar := hp d i hmd hin
        cases hq : c.tree.parentDir i with
        | none =>
          simp only [authority, hroot, hr, hi d hmd, hin, Bool.false_eq_true, if_false]
          exact I.of_top (hpar.trans hq) hq
        | some q =>
          have hq' : c.getParentDir d = some q := by simp [getParentDir, DirTree.forest, hin, hq]
          have hq'' : c'.getParentDir d = some q := by
            simp [getParentDir, DirTree.forest, hi d hmd, hin, hpar, hq]
          rw [authority_of_parent hr hq', authority_of_parent (hroot.trans hr) hq'']
          exact ih q hq' (hup q hq')

end Authority

end CephMds.Cache
