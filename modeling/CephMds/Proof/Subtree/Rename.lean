import CephMds.Proof.Subtree.Bounded

/-!
# The subtree map after a rename

A rename replaces the parent of one inode (`Reparented`), and with it the
parent of all its fragments. Until `adjustSubtreeAfterRename` has gone through
these, some roots are still listed under the root above the old parent although
the root above the new parent is now the nearest one: they are pending
(`Renaming`). A fragment that is a root takes itself off the pending ones, and
the first that is none takes off all that are left (`renameDirfrag_spec`), so
that none is left at the end (`adjustSubtreeAfterRename_inv`).
-/

namespace CephMds

section Reparented

variable {ι α : Type}

/-- `t'` is `t` with the inode `i` moved from `o` to `n`. -/
structure Reparented (t t' : DirTree ι α) (i : ι) (o n : α) : Prop where
  inode : t'.inode = t.inode
  dirfrags : t'.dirfrags = t.dirfrags
  old : t.parentDir i = some o
  new : t'.parentDir i = some n
  other {j : ι} : j ≠ i → t'.parentDir j = t.parentDir j

variable {t t' : DirTree ι α} {i : ι} {o n : α}

namespace Reparented

variable (h : Reparented t t' i o n)
include h

theorem parent_frag (d : α) (hd : t.inode d = some i) :
    t.forest.parent d = some o ∧ t'.forest.parent d = some n := by
  simp [DirTree.forest, hd, h.inode, h.old, h.new]

theorem parent_other (d : α) (hd : ¬ t.inode d = some i) :
    t'.forest.parent d = t.forest.parent d := by
  simp only [DirTree.forest, h.inode]
  cases hi : t.inode d with
  | none => rfl
  | some j =>
    rw [hi, Option.some.injEq] at hd
    exact h.other hd

/-- The old parent is not below the moved fragments. -/
theorem nearest_old (m : α → Bool) : t'.forest.nearest m o = t.forest.nearest m o :=
  Forest.nearest_reparent_old (fun d hd => (h.parent_frag d hd).1) h.parent_other m

/-- Neither is the new one, in either tree. -/
theorem nearest_new (m : α → Bool) : t'.forest.nearest m n = t.forest.nearest m n :=
  (Forest.nearest_reparent_old (D := fun d => t.inode d = some i)
    (fun d hd => (h.parent_frag d hd).2) (fun d hd => (h.parent_other d hd).symm) m).symm

/-- So the roots above the two do not depend on the marks of the fragments. -/
theorem nearest_old_congr {m m' : α → Bool} (hm : ∀ x, t.inode x ≠ some i → m x = m' x) :
    t'.forest.nearest m o = t'.forest.nearest m' o := by
  rw [h.nearest_old, h.nearest_old]
  refine t.forest.nearest_congr fun x hx => hm x fun hd => ?_
  exact absurd (t.forest.depth_lt (h.parent_frag x hd).1) (by omega)

theorem nearest_new_congr {m m' : α → Bool} (hm : ∀ x, t.inode x ≠ some i → m x = m' x) :
    t'.forest.nearest m n = t'.forest.nearest m' n := by
  refine t'.forest.nearest_congr fun x hx => hm x fun hd => ?_
  exact absurd (t'.forest.depth_lt (h.parent_frag x hd).2) (by omega)

/-- What changes for the root strictly above a fragment. -/
theorem above (m : α → Bool) (s : α) : t'.forest.above m s = t.forest.above m s ∨
    (t.inode s = some i ∨ ∃ d, t.inode d = some i ∧ m d = false) ∧
      t.forest.above m s = t.forest.nearest m o ∧ t'.forest.above m s = t'.forest.nearest m n := by
  by_cases hs : t.inode s = some i
  · obtain ⟨ho, hn⟩ := h.parent_frag s hs
    exact .inr ⟨.inl hs, t.forest.above_of_parent ho, t'.forest.above_of_parent hn⟩
  · have hp := h.parent_other s hs
    cases hq : t.forest.parent s with
    | none => exact .inl (by simp [Forest.above, hp, hq])
    | some q =>
      rw [t.forest.above_of_parent hq, t'.forest.above_of_parent (hp.trans hq)]
      rcases Forest.nearest_reparent h.parent_frag h.parent_other m q with he | ⟨d, hd, hm, ho, hn⟩
      · exact .inl he
      · exact .inr ⟨.inr ⟨d, hd, hm⟩, ho, hn⟩

end Reparented

end Reparented

namespace Cache

variable {ι α L : Type} {I : InodeAuthority ι α} {c c' c₁ c₂ : Cache ι α L}
  {d o n O N s : α} {i : ι} {P P' : α → Prop} {t : DirTree ι α}

open Checked

/-- The map while a rename is under way: the pending roots `P` are listed
under `O`, the root above the old parent, and belong to `N`, the root above
the new one. -/
structure Renaming (t : DirTree ι α) (i : ι) (o n O N : α) (P : α → Prop) (c : Cache ι α L) :
    Prop where
  tree : Reparented t c.tree i o n
  owned : Owned (open Classical in fun s => if P s then some O else c.rootAbove s) c
  pending {s : α} : P s → c.isSubtreeRoot s = true ∧ c.rootAbove s = some N
  old : c.getSubtreeRoot o = some O
  new : c.getSubtreeRoot n = some N
  ne : O ≠ N

namespace Renaming

variable (h : Renaming t i o n O N P c)
include h

theorem mem_bounds (r s : α) : s ∈ c.bounds r ↔ c.isSubtreeRoot s = true ∧
    (P s ∧ r = O ∨ ¬ P s ∧ c.rootAbove s = some r) := by
  rw [h.owned.mem_bounds]
  refine and_congr_right fun _ => ?_
  by_cases hs : P s <;> simp [hs, eq_comm]

theorem rootAbove_frag (hd : c.tree.inode d = some i) : c.rootAbove d = some N := by
  rw [h.tree.inode] at hd
  exact (c.tree.forest.above_of_parent (h.tree.parent_frag d hd).2).trans h.new

theorem mergeable_iff (hd : c.tree.inode d = some i) : Mergeable c d ↔ c.dirAuth N = c.dirAuth d ∧
    (c.dirAuth d).second = cdirAuthUnknown ∧ c.exportBound d = false := by
  refine ⟨?_, fun hm => ⟨N, h.rootAbove_frag hd, hm⟩⟩
  rintro ⟨r, hr, hm⟩
  obtain rfl : N = r := Option.some.inj ((h.rootAbove_frag hd).symm.trans hr)
  exact hm

theorem congr (hP : ∀ s, P s ↔ P' s) : Renaming t i o n O N P' c := by
  obtain rfl : P = P' := funext fun s => propext (hP s)
  exact h

theorem inv (hP : ∀ s, ¬ P s) : Inv c :=
  h.owned.congr fun s _ => if_neg (hP s)

/-- The fragments are not above the two parents, so they are not the two roots. -/
theorem frag_ne (hd : c.tree.inode d = some i) : O ≠ d ∧ N ≠ d := by
  rw [h.tree.inode] at hd
  obtain ⟨ho, hn⟩ := h.tree.parent_frag d hd
  refine ⟨?_, ?_⟩
  · rintro rfl
    have hO := h.old
    rw [getSubtreeRoot, h.tree.nearest_old] at hO
    have := t.forest.nearest_depth hO
    have := t.forest.depth_lt ho
    omega
  · rintro rfl
    have := c.tree.forest.nearest_depth h.new
    have := c.tree.forest.depth_lt hn
    omega

/-- Changing the authority of a fragment of the inode leaves the two roots. -/
theorem roots_of_update {a : Auth} (hF : Frame c c') [DecidableEq α] (hd : c.tree.inode d = some i)
    (hA : c'.dirAuth = Function.update c.dirAuth d a) :
    c'.getSubtreeRoot o = some O ∧ c'.getSubtreeRoot n = some N := by
  have hm : ∀ x, t.inode x ≠ some i → c'.isSubtreeRoot x = c.isSubtreeRoot x := by
    intro x hx
    have hxd : x ≠ d := fun e => hx (by rw [e, ← h.tree.inode, hd])
    simp [isSubtreeRoot, hA, hxd]
  rw [getSubtreeRoot, getSubtreeRoot, hF.tree, h.tree.nearest_old_congr hm, h.tree.nearest_new_congr hm]
  exact ⟨h.old, h.new⟩

/-- Moving pending bounds. -/
theorem moved {M : α → Prop} (m : Moved O N M c c') (hM : ∀ s, M s → P s) :
    Renaming t i o n O N (fun s => P s ∧ ¬ M s) c' := by
  have ht := m.frame.tree
  have hroot := isSubtreeRoot_eq m.dirAuth
  have hget := getSubtreeRoot_eq ht m.dirAuth
  have habove : c'.rootAbove = c.rootAbove := by
    funext x
    rw [rootAbove, rootAbove, ht, hroot]
  refine ⟨by rw [ht]; exact h.tree, ⟨fun x => ?_, fun x => ?_, fun x s => ?_, ?_, ?_⟩, ?_, ?_, ?_, h.ne⟩
  · rw [m.key, hroot, h.owned.key]
  · rw [m.pinSubtree, hroot, h.owned.pin]
  · rw [m.mem, h.mem_bounds, hroot, habove]
    by_cases hs : M s
    · have hP := hM s hs
      obtain ⟨hr, hN⟩ := h.pending hP
      have hne := h.ne
      simp only [hr, hs, hP, hN, and_true, not_true_eq_false, false_and, or_false,
        true_and, if_false, Option.some.injEq, and_not_self_iff, false_or, and_false]
      exact eq_comm
    · by_cases hP : P s <;> simp [hs, hP, @eq_comm _ x O]
  · intro s q hs hq
    rw [hroot] at hs
    rw [getParentDir, ht] at hq
    rw [hget]
    exact h.owned.rooted hs hq
  · intro s hs
    rw [hroot] at hs
    rw [ht]
    exact h.owned.cached hs
  · rintro s ⟨hP, -⟩
    rw [hroot, habove]
    exact h.pending hP
  · rw [hget]; exact h.old
  · rw [hget]; exact h.new

end Renaming

section Loop

variable [LinearOrder α]

theorem foldl_moved (l : List α) (hO : (c.subtrees O).isSome) (hN : (c.subtrees N).isSome)
    (hne : O ≠ N) :
    Moved O N (· ∈ l) c (l.foldl (fun c b => (c.eraseBound O b).insertBound N b) c) := by
  induction l generalizing c with
  | nil => exact (Moved.refl O N c).congr (by simp)
  | cons b l ih =>
    have m := Moved.one hO hN b
    refine (m.trans (ih ((m.key O).trans hO) ((m.key N).trans hN)) hne).congr fun s => ?_
    rw [List.mem_cons]

theorem boundsToMove_spec {l : List α} (h : c.boundsToMove O N = .ok l) :
    ∀ s, s ∈ l ↔ s ∈ c.bounds O ∧ c.rootAbove s ≠ some O := by
  suffices H : ∀ (bs acc : List α), bs.foldlM (fun tomove bound => do
      let q ← deref (c.getParentDir bound)
      if c.getSubtreeRoot q = some O then return tomove
      else do
        assert (c.getSubtreeRoot q = some N)
        return tomove ++ [bound]) acc = .ok l →
      ∀ s, s ∈ l ↔ s ∈ acc ∨ s ∈ bs ∧ c.rootAbove s ≠ some O by
    intro s
    rw [H _ _ h s, mem_ascending]
    simp
  intro bs
  induction bs with
  | nil =>
    intro acc h s
    rw [List.foldlM_nil, pure_ok] at h
    simp [h]
  | cons b bs ih =>
    intro acc h s
    rw [List.foldlM_cons, bind_ok] at h
    obtain ⟨acc', hb, h⟩ := h
    obtain ⟨q, hq, hb⟩ := bind_ok.mp hb
    rw [deref_ok] at hq
    rw [ih acc' h s, List.mem_cons]
    have hab : c.rootAbove b = c.getSubtreeRoot q := rootAbove_of_parent hq
    rcases ite_ok.mp hb with ⟨hO, hb⟩ | ⟨hO, hb⟩
    · rw [pure_ok] at hb
      subst hb
      refine or_congr_right (and_congr_left fun hs => ⟨.inr, ?_⟩)
      rintro (rfl | hs')
      · exact absurd (hab.trans hO) hs
      · exact hs'
    · obtain ⟨_, -, hb⟩ := bind_ok.mp hb
      rw [pure_ok] at hb
      subst hb
      rw [List.mem_append, List.mem_singleton, or_assoc]
      refine or_congr_right ⟨?_, ?_⟩
      · rintro (rfl | ⟨hs, hs'⟩)
        · exact ⟨.inl rfl, hab ▸ hO⟩
        · exact ⟨.inr hs, hs'⟩
      · rintro ⟨rfl | hs, hs'⟩
        · exact .inl rfl
        · exact .inr ⟨hs, hs'⟩

/-- The authority that the loop leaves a fragment with: a root is merged with
`N` if it may be, and any other keeps the authority of `O` if that is not `N`'s. -/
def renamedAuth (c : Cache ι α L) (O N d : α) : Auth :=
  if c.isSubtreeRoot d then
    if c.dirAuth N = c.dirAuth d ∧ (c.dirAuth d).second = cdirAuthUnknown ∧ c.exportBound d = false
    then cdirAuthDefault else c.dirAuth d
  else if c.dirAuth O ≠ c.dirAuth N then c.dirAuth O else c.dirAuth d

/-- The inode `i` has been carried from below `O` to below `N`. -/
structure Carried (i : ι) (O N : α) (c c' : Cache ι α L) : Prop where
  same {x : α} : c.tree.inode x ≠ some i ∨ O = N → c'.dirAuth x = c.dirAuth x
  frag {x : α} : c.tree.inode x = some i → O ≠ N → c'.dirAuth x = c.renamedAuth O N x

theorem Renaming.renamedAuth_update {a : Auth} {e : α} (h : Renaming t i o n O N P c)
    (hd : c.tree.inode d = some i) (hF : Frame c c') (hde : e ≠ d)
    (hA : c'.dirAuth = Function.update c.dirAuth d a) :
    c'.renamedAuth O N e = c.renamedAuth O N e := by
  obtain ⟨hO, hN⟩ := h.frag_ne hd
  have he : c'.dirAuth e = c.dirAuth e := by rw [hA, Function.update_of_ne hde]
  have hO : c'.dirAuth O = c.dirAuth O := by rw [hA, Function.update_of_ne hO]
  have hN : c'.dirAuth N = c.dirAuth N := by rw [hA, Function.update_of_ne hN]
  simp [renamedAuth, isSubtreeRoot, he, hO, hN, hF.exportBound]

variable [AddCommGroup L]

namespace Renaming

variable (h : Renaming t i o n O N P c) (hd : c.tree.inode d = some i)
include h hd

/-- The merge of a fragment that is not pending. -/
theorem merge (hP : ¬ P d) (hs : c.trySubtreeMergeAt d = .ok c') :
    Renaming t i o n O N P c' ∧ Frame c c' ∧
      c'.dirAuth = if c.dirAuth N = c.dirAuth d ∧ (c.dirAuth d).second = cdirAuthUnknown ∧
        c.exportBound d = false then Function.update c.dirAuth d cdirAuthDefault else c.dirAuth := by
  obtain ⟨hroot, ⟨hM, hO, hF, hA⟩ | ⟨hM, rfl⟩⟩ := h.owned.trySubtreeMergeAt (if_neg hP) hs
  · refine ⟨?_, hF, by rw [if_pos ((h.mergeable_iff hd).mp hM), hA]⟩
    obtain ⟨hd', hm⟩ := isSubtreeRoot_clear hroot hA
    obtain ⟨ho, hn⟩ := h.roots_of_update hF hd hA
    obtain ⟨hOd, hNd⟩ := h.frag_ne hd
    have habove := rootAbove_unmark hF.tree hm hd'
    refine ⟨by rw [hF.tree]; exact h.tree, hO.congr fun s _ => ?_, fun {s} hs => ?_, ho, hn, h.ne⟩
    · by_cases hs : P s
      · simp [hs, hOd]
      · simp [hs, habove]
    · obtain ⟨hr, hN⟩ := h.pending hs
      have hsd : s ≠ d := fun e => hP (e ▸ hs)
      rw [hm, Function.update_of_ne hsd] at hr
      refine ⟨hr, ?_⟩
      rw [habove, hN, if_neg (by simpa using hNd)]
  · exact ⟨h, Frame.refl _, by rw [if_neg (mt (h.mergeable_iff hd).mpr hM)]⟩

theorem root_frag (hroot : c.isSubtreeRoot d = true) (hs : renameDirfrag I o n c d = .ok c') :
    Renaming t i o n O N (fun s => P s ∧ s ≠ d) c' ∧ Frame c c' ∧
      c'.dirAuth = Function.update c.dirAuth d (c.renamedAuth O N d) := by
  simp only [renameDirfrag, h.old, h.new, Option.some.injEq, h.ne, if_false, hroot, if_true,
    bind_ok, deref_ok, exists_eq_left', assert_ok, decide_eq_true_eq] at hs
  obtain ⟨_, hb, _, -, hs⟩ := hs
  have hPd : P d := by
    obtain ⟨-, ⟨hP, -⟩ | ⟨-, hO⟩⟩ := (h.mem_bounds O d).mp hb
    · exact hP
    · rw [h.rootAbove_frag hd] at hO
      exact absurd (Option.some.inj hO).symm h.ne
  have hkO := (h.owned.key O).trans (getSubtreeRoot_isRoot h.old)
  have hkN := (h.owned.key N).trans (getSubtreeRoot_isRoot h.new)
  have m := Moved.one hkO hkN d
  have h₁ := h.moved m (by rintro s rfl; exact hPd)
  have hd₁ : ((c.eraseBound O d).insertBound N d).tree.inode d = some i := hd
  obtain ⟨h₂, hF, hA⟩ := h₁.merge hd₁ (by simp) hs
  refine ⟨h₂, m.frame.trans hF, hA.trans ?_⟩
  simp only [renamedAuth, hroot, if_true, m.dirAuth, m.frame.exportBound]
  split
  · rfl
  · rw [Function.update_eq_self]

omit hd [AddCommGroup L] in
/-- The loop of a fragment that is no root moves what is pending. -/
theorem mid_moved {l : List α} (hl : c.boundsToMove O N = .ok l) :
    Renaming t i o n O N (fun _ => False) (l.foldl (fun c b => (c.eraseBound O b).insertBound N b) c) ∧
      Moved O N (· ∈ l) c (l.foldl (fun c b => (c.eraseBound O b).insertBound N b) c) := by
  have hl := boundsToMove_spec hl
  have hkO := (h.owned.key O).trans (getSubtreeRoot_isRoot h.old)
  have hkN := (h.owned.key N).trans (getSubtreeRoot_isRoot h.new)
  have hPl : ∀ s, P s ↔ s ∈ l := by
    intro s
    rw [hl, h.mem_bounds]
    constructor
    · intro hP
      obtain ⟨hr, hN⟩ := h.pending hP
      exact ⟨⟨hr, .inl ⟨hP, rfl⟩⟩, by rw [hN]; exact fun e => h.ne (Option.some.inj e).symm⟩
    · rintro ⟨⟨-, ⟨hP, -⟩ | ⟨-, hO⟩⟩, hn⟩
      · exact hP
      · exact absurd hO hn
  have m := foldl_moved l hkO hkN h.ne
  have h₁ := h.moved m fun s => (hPl s).mpr
  exact ⟨h₁.congr fun s => by simp [hPl], m⟩

/-- A fragment that becomes a root. -/
theorem adjusted {a : Auth} (hP : ∀ s, ¬ P s) (ha : a ≠ cdirAuthDefault)
    (hs : c.adjustSubtreeAuth d a = .ok c') :
    Renaming t i o n O N (fun _ => False) c' ∧ Frame c c' ∧ c'.dirAuth = Function.update c.dirAuth d a := by
  obtain ⟨hI, hA, hF⟩ := adjustSubtreeAuth_spec (h.inv hP) ha hs
  obtain ⟨ho, hn⟩ := h.roots_of_update hF hd hA
  exact ⟨⟨by rw [hF.tree]; exact h.tree, hI.congr fun s _ => (if_neg id).symm, False.elim, ho, hn, h.ne⟩,
    hF, hA⟩

theorem mid_frag (hroot : c.isSubtreeRoot d = false) (hs : renameDirfrag I o n c d = .ok c') :
    Renaming t i o n O N (fun _ => False) c' ∧ Frame c c' ∧
      c'.dirAuth = Function.update c.dirAuth d (c.renamedAuth O N d) := by
  simp only [renameDirfrag, h.old, h.new, Option.some.injEq, h.ne, if_false, hroot,
    Bool.false_eq_true, bind_ok, deref_ok, exists_eq_left'] at hs
  obtain ⟨l, hl, hs⟩ := hs
  obtain ⟨h₁, m⟩ := h.mid_moved hl
  generalize l.foldl (fun c b => (c.eraseBound O b).insertBound N b) c = c₁ at h₁ m hs
  have hF₁ := m.frame
  have hA₁ := m.dirAuth
  have hO₁ : c₁.authority I O = c.dirAuth O := by
    rw [authority_of_root (getSubtreeRoot_isRoot h₁.old), hA₁]
  have hN₁ : c₁.authority I N = c.dirAuth N := by
    rw [authority_of_root (getSubtreeRoot_isRoot h₁.new), hA₁]
  rw [renamedAuth, hroot, if_neg Bool.false_ne_true]
  rw [hO₁, hN₁] at hs
  rcases ite_ok.mp hs with ⟨hne, hs⟩ | ⟨he, hs⟩
  · rw [if_pos hne]
    obtain ⟨c₂, h₂, hs⟩ := bind_ok.mp hs
    have ha : c.dirAuth O ≠ cdirAuthDefault := isSubtreeRoot_iff.mp (getSubtreeRoot_isRoot h.old)
    have hd₁ : c₁.tree.inode d = some i := by rw [hF₁.tree]; exact hd
    obtain ⟨h₂', hF₂, hA₂⟩ := h₁.adjusted hd₁ (fun _ => id) ha h₂
    obtain ⟨-, hNd⟩ := h.frag_ne hd
    obtain ⟨h₃, hF₃, hA₃⟩ := h₂'.merge (by rw [hF₂.tree]; exact hd₁) id hs
    refine ⟨h₃, (hF₁.trans hF₂).trans hF₃, ?_⟩
    rw [hA₃, hA₂, hA₁, if_neg]
    simp only [Function.update_self, Function.update_of_ne hNd]
    exact fun e => hne e.1.symm
  · rw [pure_ok] at hs
    subst hs
    rw [if_neg he, Function.update_eq_self]
    exact ⟨h₁, hF₁, hA₁⟩

/-- One fragment: a root is no longer pending afterwards, and after any other
nothing is. -/
theorem frag (hs : renameDirfrag I o n c d = .ok c') :
    Renaming t i o n O N (fun s => P s ∧ s ≠ d ∧ c.isSubtreeRoot d = true) c' ∧ Frame c c' ∧
      c'.dirAuth = Function.update c.dirAuth d (c.renamedAuth O N d) := by
  cases hroot : c.isSubtreeRoot d with
  | true =>
    obtain ⟨h', hF, hA⟩ := h.root_frag hd hroot hs
    exact ⟨h'.congr (by simp), hF, hA⟩
  | false =>
    obtain ⟨h', hF, hA⟩ := h.mid_frag hd hroot hs
    exact ⟨h'.congr (by simp), hF, hA⟩

omit hd [AddCommGroup L] in
theorem boundsToMove_returns : ∃ l, c.boundsToMove O N = .ok l := by
  have hret : ∀ (tomove : List α) (b : α), b ∈ ascending (c.bounds O) → ∃ l, (do
      let q ← deref (c.getParentDir b)
      if c.getSubtreeRoot q = some O then return tomove
      else do
        assert (c.getSubtreeRoot q = some N)
        return tomove ++ [b] : Checked (List α)) = .ok l := by
    intro tomove b hb
    obtain ⟨hr, hor⟩ := (h.mem_bounds O b).mp (mem_ascending.mp hb)
    have habove : c.rootAbove b = some N ∨ c.rootAbove b = some O :=
      hor.imp (fun hP => (h.pending hP.1).2) fun hO => hO.2
    obtain ⟨q, hq⟩ : ∃ q, c.getParentDir b = some q := by
      rcases habove with ha | ha
      · exact (rootAbove_eq_some.mp ha).imp fun _ h => h.1
      · exact (rootAbove_eq_some.mp ha).imp fun _ h => h.1
    rw [rootAbove_of_parent hq] at habove
    rw [hq]
    by_cases hO : c.getSubtreeRoot q = some O
    · exact ⟨tomove, by simp [deref, hO, bind, Except.bind, pure, Except.pure]⟩
    · have hN := habove.resolve_right hO
      exact ⟨tomove ++ [b], by
        simp [deref, hN, h.ne.symm, assert, bind, Except.bind, pure, Except.pure]⟩
  obtain ⟨l, hl, -⟩ := foldlM_returns (P := fun _ => True) (fun s b hb _ =>
    (hret s b hb).imp fun _ h => ⟨h, trivial⟩) (s := []) trivial
  exact ⟨l, hl⟩

/-- One fragment returns, if it is no root or is still pending. -/
theorem frag_returns (hroot : c.isSubtreeRoot d = true → P d) : ∃ c', renameDirfrag I o n c d = .ok c' := by
  simp only [renameDirfrag, h.old, h.new, Option.some.injEq, h.ne, if_false, deref, bind, Except.bind]
  cases hr : c.isSubtreeRoot d with
  | true =>
    have hkO := (h.owned.key O).trans (getSubtreeRoot_isRoot h.old)
    have hkN := (h.owned.key N).trans (getSubtreeRoot_isRoot h.new)
    have hb : d ∈ c.bounds O := (h.mem_bounds O d).mpr ⟨hr, .inl ⟨hroot hr, rfl⟩⟩
    have m := Moved.one hkO hkN d
    have h₁ := h.moved m (by rintro s rfl; exact hroot hr)
    have hN : ((c.eraseBound O d).subtrees N).isSome = true := (setBounds_key hkO).trans hkN
    obtain ⟨c', hc'⟩ := trySubtreeMergeAt_returns h₁.owned hr (h₁.rootAbove_frag hd)
    refine ⟨c', ?_⟩
    simpa [assert, hb, hN] using hc'
  | false =>
    obtain ⟨l, hl⟩ := h.boundsToMove_returns
    obtain ⟨h₁, m⟩ := h.mid_moved hl
    simp only [Bool.false_eq_true, if_false, hl]
    generalize l.foldl (fun c b => (c.eraseBound O b).insertBound N b) c = c₁ at h₁ m
    split
    · have hd₁ : c₁.tree.inode d = some i := by rw [m.frame.tree]; exact hd
      have hr₁ : c₁.isSubtreeRoot d = false := by
        rw [isSubtreeRoot_eq m.dirAuth]
        exact hr
      have hsome : (c₁.getSubtreeRoot d).isSome := by
        rw [getSubtreeRoot_of_not hr₁, h₁.rootAbove_frag hd₁]
        rfl
      obtain ⟨c₂, h₂⟩ := adjustSubtreeAuth_returns (a := c₁.authority I O) (h₁.inv fun _ => id)
        (by rw [hd₁]; rfl) hsome
      have ha : c₁.authority I O ≠ cdirAuthDefault := by
        rw [authority_of_root (getSubtreeRoot_isRoot h₁.old)]
        exact isSubtreeRoot_iff.mp (getSubtreeRoot_isRoot h₁.old)
      obtain ⟨h₂', hF₂, hA₂⟩ := h₁.adjusted hd₁ (fun _ => id) ha h₂
      have hr₂ : c₂.isSubtreeRoot d = true := by
        rw [isSubtreeRoot_iff, hA₂, Function.update_self]
        exact ha
      obtain ⟨c', hc'⟩ := trySubtreeMergeAt_returns h₂'.owned hr₂
        (h₂'.rootAbove_frag (by rw [hF₂.tree]; exact hd₁))
      refine ⟨c', ?_⟩
      rw [h₂]
      exact hc'
    · exact ⟨_, rfl⟩

end Renaming

/-- The loop over the fragments returns, with the roots among them at its
beginning and still pending. -/
theorem Renaming.frags_return {l : List α} (h : Renaming t i o n O N P c)
    (hl : ∀ d ∈ l, c.tree.inode d = some i) (hnd : l.Nodup)
    (hP : ∀ d ∈ l, c.isSubtreeRoot d = true → P d)
    (hord : l.Pairwise fun d e => c.isSubtreeRoot d = false → c.isSubtreeRoot e = false) :
    ∃ c', l.foldlM (renameDirfrag I o n) c = .ok c' := by
  induction l generalizing c P with
  | nil => exact ⟨c, rfl⟩
  | cons d l ih =>
    obtain ⟨hdl, hnd⟩ := List.nodup_cons.mp hnd
    obtain ⟨hd₀, hord⟩ := List.pairwise_cons.mp hord
    have hd := hl d List.mem_cons_self
    obtain ⟨c₁, h₁⟩ := h.frag_returns (I := I) hd (hP d List.mem_cons_self)
    obtain ⟨h', hF, hA⟩ := h.frag hd h₁
    have hsame : ∀ e ∈ l, c₁.isSubtreeRoot e = c.isSubtreeRoot e := by
      intro e he
      have hed : e ≠ d := fun h => hdl (h ▸ he)
      simp only [isSubtreeRoot, hA, Function.update_of_ne hed]
    obtain ⟨c', hc'⟩ := ih h' (fun e he => by rw [hF.tree]; exact hl e (List.mem_cons_of_mem d he)) hnd
      (fun e he hr => by
        rw [hsame e he] at hr
        refine ⟨hP e (List.mem_cons_of_mem d he) hr, fun h => hdl (h ▸ he), ?_⟩
        by_contra hdr
        rw [hd₀ e he (Bool.eq_false_iff.mpr hdr)] at hr
        cases hr)
      (hord.imp_of_mem fun hx hy hxy => by rw [hsame _ hx, hsame _ hy]; exact hxy)
    refine ⟨c', ?_⟩
    rw [List.foldlM_cons, h₁]
    exact hc'

/-- The loop over the fragments. Nothing is pending at its end if what was
pending is among them, or one of them is not a root. -/
theorem Renaming.frags {l : List α} (h : Renaming t i o n O N P c)
    (hl : ∀ d ∈ l, c.tree.inode d = some i) (hnd : l.Nodup)
    (hP : ∀ s, P s → s ∈ l ∨ ∃ d ∈ l, c.isSubtreeRoot d = false)
    (hs : l.foldlM (renameDirfrag I o n) c = .ok c') :
    Inv c' ∧ Frame c c' ∧
      ∀ x, c'.dirAuth x = if x ∈ l then c.renamedAuth O N x else c.dirAuth x := by
  induction l generalizing c P with
  | nil =>
    rw [List.foldlM_nil, pure_ok] at hs
    subst hs
    exact ⟨h.inv fun s hs => by simpa using hP s hs, Frame.refl c, by simp⟩
  | cons d l ih =>
    rw [List.foldlM_cons, bind_ok] at hs
    obtain ⟨c₁, h₁, hs⟩ := hs
    obtain ⟨hdl, hnd⟩ := List.nodup_cons.mp hnd
    have hd := hl d List.mem_cons_self
    obtain ⟨h', hF, hA⟩ := h.frag hd h₁
    have hrest : ∀ s, P s ∧ s ≠ d ∧ c.isSubtreeRoot d = true →
        s ∈ l ∨ ∃ e ∈ l, c₁.isSubtreeRoot e = false := by
      rintro s ⟨hs, hsd, hroot⟩
      rcases hP s hs with hs | ⟨e, he, hme⟩
      · exact .inl ((List.mem_cons.mp hs).resolve_left hsd)
      · have hed : e ≠ d := fun he => by rw [he, hroot] at hme; cases hme
        refine .inr ⟨e, (List.mem_cons.mp he).resolve_left hed, ?_⟩
        simp only [isSubtreeRoot, hA, Function.update_of_ne hed] at hme ⊢
        exact hme
    have hl₁ : ∀ e ∈ l, c₁.tree.inode e = some i := fun e he => by
      rw [hF.tree]
      exact hl e (List.mem_cons_of_mem _ he)
    obtain ⟨hI, hF', hA'⟩ := ih h' hl₁ hnd hrest hs
    refine ⟨hI, hF.trans hF', fun x => ?_⟩
    rw [hA']
    by_cases hx : x = d
    · subst hx
      rw [if_neg hdl, if_pos List.mem_cons_self, hA, Function.update_self]
    · rw [h.renamedAuth_update hd hF hx hA, hA, Function.update_of_ne hx]
      simp [hx]

end Loop

/-! ## The whole function -/

section Whole

variable {c₀ : Cache ι α L} {t' : DirTree ι α}

/-- Right after the rename the map is still that of the old tree. -/
theorem Inv.reparent (hI : Inv c₀) (hR : Reparented c₀.tree t' i o n)
    (hn : ∀ s, c₀.isSubtreeRoot s = true → t'.forest.above c₀.isSubtreeRoot s = c₀.rootAbove s ∨
      (t'.forest.above c₀.isSubtreeRoot s).isSome) :
    Owned c₀.rootAbove { c₀ with tree := t' } := by
  refine ⟨hI.key, hI.pin, hI.mem_bounds, fun {s q} hs hq => ?_, fun {s} hs => ?_⟩
  · change (t'.forest.nearest c₀.isSubtreeRoot q).isSome
    rw [← t'.forest.above_of_parent hq]
    rcases hn s hs with h | h
    · rw [h]
      by_cases hd : c₀.tree.inode s = some i
      · obtain ⟨r, hr⟩ := hI.rootAbove_isSome hs (hR.parent_frag s hd).1
        rw [hr]; rfl
      · have hq' : c₀.getParentDir s = some q := (hR.parent_other s hd).symm.trans hq
        obtain ⟨r, hr⟩ := hI.rootAbove_isSome hs hq'
        rw [hr]; rfl
    · exact h
  · change (t'.inode s).isSome
    rw [hR.inode]
    exact hI.cached hs

/-- The rename of an inode without fragments, or below the same root, changes nothing. -/
theorem Inv.reparent_same (hI : Inv c₀) (hR : Reparented c₀.tree t' i o n)
    (h : t'.dirfrags i = [] ∨
      t'.forest.nearest c₀.isSubtreeRoot o = t'.forest.nearest c₀.isSubtreeRoot n) :
    Inv { c₀ with tree := t' } ∧ ∀ x, rootAuth { c₀ with tree := t' } x = c₀.rootAuth x := by
  have hsame : ∀ x, t'.forest.nearest c₀.isSubtreeRoot x = c₀.getSubtreeRoot x := by
    intro x
    rcases Forest.nearest_reparent hR.parent_frag hR.parent_other c₀.isSubtreeRoot x with
      he | ⟨d, hd, -, ho, hn⟩
    · exact he
    · rcases h with h | h
      · rw [← hR.inode, ← t'.mem_dirfrags, h] at hd
        cases hd
      · rw [hn, ← h, hR.nearest_old]
        exact ho.symm
  have habove : ∀ s, t'.forest.above c₀.isSubtreeRoot s = c₀.rootAbove s := by
    intro s
    rcases hR.above c₀.isSubtreeRoot s with he | ⟨hd, ho, hn⟩
    · exact he
    · rcases h with h | h
      · rcases hd with hd | ⟨d, hd, -⟩ <;>
        · rw [← hR.inode, ← t'.mem_dirfrags, h] at hd
          cases hd
      · rw [hn, ← h, hR.nearest_old]
        exact ho.symm
  refine ⟨(hI.reparent hR fun s _ => .inl (habove s)).congr fun s _ => (habove s).symm, fun x => ?_⟩
  rw [rootAuth, rootAuth, ← hsame]; rfl

/-- Otherwise the roots whose nearest root above has changed are pending. -/
theorem Inv.renaming (hI : Inv c₀) (hR : Reparented c₀.tree t' i o n) (hne : O ≠ N)
    (ho : t'.forest.nearest c₀.isSubtreeRoot o = some O)
    (hn : t'.forest.nearest c₀.isSubtreeRoot n = some N) :
    Renaming c₀.tree i o n O N (fun s => c₀.isSubtreeRoot s = true ∧
      t'.forest.above c₀.isSubtreeRoot s ≠ c₀.rootAbove s) { c₀ with tree := t' } := by
  have habove : ∀ s, t'.forest.above c₀.isSubtreeRoot s ≠ c₀.rootAbove s →
      c₀.rootAbove s = some O ∧ t'.forest.above c₀.isSubtreeRoot s = some N := by
    intro s hs
    obtain ⟨-, h, h'⟩ := (hR.above c₀.isSubtreeRoot s).resolve_left hs
    rw [hn] at h'
    rw [← hR.nearest_old, ho] at h
    exact ⟨h, h'⟩
  refine ⟨hR, (hI.reparent hR fun s _ => ?_).congr fun s hs => ?_, fun {s} hs => ⟨hs.1, (habove s hs.2).2⟩,
    ho, hn, hne⟩
  · by_cases h : t'.forest.above c₀.isSubtreeRoot s = c₀.rootAbove s
    · exact .inl h
    · exact .inr (by rw [(habove s h).2]; rfl)
  · split
    · rename_i h
      exact (habove s h.2).1
    · rename_i h
      by_contra hs'
      exact h ⟨hs, fun e => hs' e.symm⟩

/-- The authority of the fragments of the inode is what it was, so that of
everything below them is, too. -/
theorem rootAuth_renamed (hR : Reparented c₀.tree t' i o n)
    (ho : t'.forest.nearest c₀.isSubtreeRoot o = some O)
    (hn : t'.forest.nearest c₀.isSubtreeRoot n = some N) (ht : c'.tree = t')
    (hA : ∀ x, c₀.tree.inode x = some i → c'.dirAuth x = c₀.renamedAuth O N x)
    (hA' : ∀ x, c₀.tree.inode x ≠ some i → c'.dirAuth x = c₀.dirAuth x) (x : α) :
    c'.rootAuth x = c₀.rootAuth x := by
  have hcn : c₀.rootAuth n = some (c₀.dirAuth N) := by
    rw [rootAuth, getSubtreeRoot, ← hR.nearest_new, hn]; rfl
  have hco : c₀.rootAuth o = some (c₀.dirAuth O) := by
    rw [rootAuth, getSubtreeRoot, ← hR.nearest_old, ho]; rfl
  induction x using t'.forest.downward with
  | _ x ih =>
    by_cases hx : c₀.tree.inode x = some i
    · obtain ⟨hpo, hpn⟩ := hR.parent_frag x hx
      have hn' : c'.rootAuth n = some (c₀.dirAuth N) := (ih n hpn).trans hcn
      have hpn' : c'.getParentDir x = some n := by rw [getParentDir, ht, hpn]
      have hax := hA x hx
      rw [renamedAuth] at hax
      cases hroot : c₀.isSubtreeRoot x with
      | true =>
        rw [rootAuth_of_root hroot]
        rw [hroot, if_pos rfl] at hax
        split at hax
        · rename_i hm
          rw [rootAuth_of_not (by simp [isSubtreeRoot, hax]) hpn', hn', hm.1]
        · rw [rootAuth_of_root (by rw [isSubtreeRoot_iff, hax]; exact isSubtreeRoot_iff.mp hroot), hax]
      | false =>
        rw [rootAuth_of_not hroot hpo, hco]
        rw [hroot, if_neg Bool.false_ne_true] at hax
        split at hax
        · have hO := isSubtreeRoot_iff.mp (t'.forest.nearest_marked ho)
          rw [rootAuth_of_root (by rw [isSubtreeRoot_iff, hax]; exact hO), hax]
        · rename_i he
          have hd : c₀.dirAuth x = cdirAuthDefault := by simpa [isSubtreeRoot] using hroot
          rw [rootAuth_of_not (by simp [isSubtreeRoot, hax, hd]) hpn', hn', not_not.mp he]
    · have hax := hA' x hx
      have hrx : c'.isSubtreeRoot x = c₀.isSubtreeRoot x := by simp [isSubtreeRoot, hax]
      cases hroot : c₀.isSubtreeRoot x with
      | true => rw [rootAuth_of_root hroot, rootAuth_of_root (hrx.trans hroot), hax]
      | false =>
        have hp := hR.parent_other x hx
        cases hq : c₀.tree.forest.parent x with
        | none =>
          rw [rootAuth, rootAuth, getSubtreeRoot_of_not hroot, getSubtreeRoot_of_not (hrx.trans hroot)]
          simp [rootAbove, Forest.above, hq, ht, hp]
        | some q =>
          rw [rootAuth_of_not hroot hq, rootAuth_of_not (q := q) (hrx.trans hroot)
            (by rw [getParentDir, ht, hp, hq])]
          exact ih q (hp.trans hq)

/-- The fragments in the order of the loop, whatever the marks. -/
theorem mem_rootsFirst {l : List α} {m : α → Bool} {x : α} :
    x ∈ l.filter m ++ l.filter (fun d => !m d) ↔ x ∈ l := by
  cases h : m x <;> simp [h]

theorem nodup_rootsFirst {l : List α} {m : α → Bool} (h : l.Nodup) :
    (l.filter m ++ l.filter (fun d => !m d)).Nodup := by
  refine List.nodup_append.mpr ⟨h.filter _, h.filter _, ?_⟩
  rintro x hx y hy rfl
  simp only [List.mem_filter] at hx hy
  rw [hx.2] at hy
  exact absurd hy.2 (by decide)

variable [LinearOrder α]

theorem popProjectedRename_rest [DecidableEq ι] {m : Option α} {pop : Bool}
    (h : c.popProjectedRename i o m pop = .ok c') :
    c' = { c with projectedSubtreeRenames := c'.projectedSubtreeRenames } := by
  unfold popProjectedRename at h
  split at h
  · split at h
    · cases h
    · simp only [bind_ok, assert_ok, pure_ok] at h
      obtain ⟨_, -, _, -, rfl⟩ := h
      rfl
  · rw [pure_ok] at h
    subst h
    rfl

variable [AddCommGroup L]

/-- The loop of a rename below the same root. -/
theorem foldlM_renameDirfrag_same {l : List α} (h : c.getSubtreeRoot o = c.getSubtreeRoot n)
    (hs : l.foldlM (renameDirfrag I o n) c = .ok c') : c' = c := by
  refine foldlM_invariant (P := fun c₁ => c₁ = c) ?_ rfl hs
  rintro c₁ d c₂ - rfl hd
  simp only [renameDirfrag, h, if_true, pure_ok] at hd
  exact hd.symm

/-- The loop, from the state right after the rename. -/
theorem Inv.renameLoop {l : List α} (hI : Inv c₀) (hR : Reparented c₀.tree t' i o n)
    (hl : ∀ x, x ∈ l ↔ t'.inode x = some i) (hnd : l.Nodup)
    (h : l.foldlM (renameDirfrag I o n) { c₀ with tree := t' } = .ok c') :
    (Inv c' ∧ c'.tree = t' ∧ c'.exportBound = c₀.exportBound ∧ (∀ x, c'.rootAuth x = c₀.rootAuth x) ∧
      c'.projectedSubtreeRenames = c₀.projectedSubtreeRenames) ∧
      ∀ O N, c₀.getSubtreeRoot o = some O → c₀.getSubtreeRoot n = some N → Carried i O N c₀ c' := by
  by_cases hno : l = []
  · subst hno
    rw [List.foldlM_nil, pure_ok] at h
    subst h
    have hfrags : t'.dirfrags i = [] := List.eq_nil_iff_forall_not_mem.mpr fun x hx =>
      List.not_mem_nil ((hl x).mpr (t'.mem_dirfrags.mp hx))
    obtain ⟨hI', hA⟩ := hI.reparent_same hR (.inl hfrags)
    refine ⟨⟨hI', rfl, rfl, hA, rfl⟩, fun O N _ _ => ⟨fun _ => rfl, fun {x} hx _ => ?_⟩⟩
    rw [← hR.inode, ← t'.mem_dirfrags, hfrags] at hx
    cases hx
  by_cases hsame : t'.forest.nearest c₀.isSubtreeRoot o = t'.forest.nearest c₀.isSubtreeRoot n
  · obtain rfl := foldlM_renameDirfrag_same (c := { c₀ with tree := t' }) hsame h
    obtain ⟨hI', hA⟩ := hI.reparent_same hR (.inr hsame)
    refine ⟨⟨hI', rfl, rfl, hA, rfl⟩, fun O N hO hN => ⟨fun _ => rfl, fun {x} _ hne => absurd ?_ hne⟩⟩
    rw [hR.nearest_old, hR.nearest_new] at hsame
    exact Option.some.inj (hO.symm.trans (hsame.trans hN))
  -- The first iteration dereferences the two roots.
  obtain ⟨O, N, ho, hn⟩ : ∃ O N, t'.forest.nearest c₀.isSubtreeRoot o = some O ∧
      t'.forest.nearest c₀.isSubtreeRoot n = some N := by
    obtain ⟨d, l, rfl⟩ := List.exists_cons_of_ne_nil hno
    rw [List.foldlM_cons, bind_ok] at h
    obtain ⟨c₁, h₁, -⟩ := h
    rcases ite_ok.mp h₁ with ⟨he, -⟩ | ⟨-, h₁⟩
    · exact absurd he hsame
    · obtain ⟨O, hO, h₁⟩ := bind_ok.mp h₁
      obtain ⟨N, hN, -⟩ := bind_ok.mp h₁
      exact ⟨O, N, deref_ok.mp hO, deref_ok.mp hN⟩
  have hne : O ≠ N := fun e => hsame (by rw [ho, hn, e])
  have hP : ∀ s, c₀.isSubtreeRoot s = true ∧ t'.forest.above c₀.isSubtreeRoot s ≠ c₀.rootAbove s →
      s ∈ l ∨ ∃ d ∈ l, c₀.isSubtreeRoot d = false := by
    rintro s ⟨-, hs⟩
    obtain ⟨hd | ⟨d, hd, hm⟩, -⟩ := (hR.above c₀.isSubtreeRoot s).resolve_left hs
    · exact .inl ((hl s).mpr (by rw [hR.inode, hd]))
    · exact .inr ⟨d, (hl d).mpr (by rw [hR.inode, hd]), hm⟩
  obtain ⟨hI', hF, hA⟩ := (hI.renaming hR hne ho hn).frags (fun d hd => (hl d).mp hd) hnd hP h
  have hfrag : ∀ x, c₀.tree.inode x = some i → c'.dirAuth x = c₀.renamedAuth O N x := by
    intro x hx
    rw [hA, if_pos ((hl x).mpr (by rw [hR.inode, hx]))]
    rfl
  have hother : ∀ x, c₀.tree.inode x ≠ some i → c'.dirAuth x = c₀.dirAuth x := by
    intro x hx
    rw [hA, if_neg (fun hm => hx (by rw [← hR.inode, (hl x).mp hm]))]
  refine ⟨⟨hI', hF.tree, hF.exportBound, rootAuth_renamed hR ho hn hF.tree hfrag hother, hF.renames⟩,
    fun O' N' hO' hN' => ?_⟩
  rw [hR.nearest_old] at ho
  rw [hR.nearest_new] at hn
  cases ho.symm.trans hO'
  cases hn.symm.trans hN'
  exact ⟨fun h => hother _ (h.resolve_right hne), fun h _ => hfrag _ h⟩

/-- The loop returns if there are roots above the two parents. -/
theorem Inv.renameLoop_returns {l : List α} (hI : Inv c₀) (hR : Reparented c₀.tree t' i o n)
    (hl : ∀ x, x ∈ l ↔ t'.inode x = some i) (hnd : l.Nodup)
    (hord : l.Pairwise fun d e => c₀.isSubtreeRoot d = false → c₀.isSubtreeRoot e = false)
    (ho : (c₀.getSubtreeRoot o).isSome) (hn : (c₀.getSubtreeRoot n).isSome) :
    ∃ c', l.foldlM (renameDirfrag I o n) { c₀ with tree := t' } = .ok c' := by
  obtain ⟨O, hO⟩ := Option.isSome_iff_exists.mp ho
  obtain ⟨N, hN⟩ := Option.isSome_iff_exists.mp hn
  rw [getSubtreeRoot, ← hR.nearest_old] at hO
  rw [getSubtreeRoot, ← hR.nearest_new] at hN
  by_cases hne : O = N
  · have hsame : ∀ s : Cache ι α L, ∀ d ∈ l, s = { c₀ with tree := t' } →
        ∃ s', renameDirfrag I o n s d = .ok s' ∧ s' = { c₀ with tree := t' } := by
      rintro s d - rfl
      refine ⟨_, ?_, rfl⟩
      rw [renameDirfrag, if_pos]
      · rfl
      · exact hO.trans (hne ▸ hN.symm)
    obtain ⟨c', hc', -⟩ := foldlM_returns (fun s d hd hs => hsame s d hd hs) rfl
    exact ⟨c', hc'⟩
  · refine (hI.renaming hR hne hO hN).frags_return (fun d hd => (hl d).mp hd) hnd (fun d hd hr => ⟨hr, ?_⟩) hord
    obtain ⟨hpo, hpn⟩ := hR.parent_frag d (hR.inode ▸ (hl d).mp hd)
    rw [t'.forest.above_of_parent hpn, hN, rootAbove, c₀.tree.forest.above_of_parent hpo, ← hR.nearest_old, hO]
    exact fun e => hne (Option.some.inj e).symm

omit [LinearOrder α] in
theorem pairwise_rootsFirst {l : List α} {m : α → Bool} :
    (l.filter m ++ l.filter (fun d => !m d)).Pairwise fun d e => m d = false → m e = false := by
  refine List.pairwise_append.mpr ⟨?_, ?_, ?_⟩
  · refine List.pairwise_of_forall_mem_list fun d hd _ _ hm => ?_
    rw [(List.mem_filter.mp hd).2] at hm
    cases hm
  · exact List.pairwise_of_forall_mem_list fun _ _ e he _ => by simpa using (List.mem_filter.mp he).2
  · intro d hd _ _ hm
    rw [(List.mem_filter.mp hd).2] at hm
    cases hm

/-- `adjustSubtreeAfterRename` returns if there are roots above the two
parents, and with `pop` the rename is the first one projected. -/
theorem adjustSubtreeAfterRename_returns [DecidableEq ι] (pop : Bool) (hI : Inv c₀)
    (hR : Reparented c₀.tree t' i o n)
    (hpop : pop = true → (c₀.projectedSubtreeRenames i).head? = some (o, n))
    (ho : (c₀.getSubtreeRoot o).isSome) (hn : (c₀.getSubtreeRoot n).isSome) :
    ∃ c', adjustSubtreeAfterRename I { c₀ with tree := t' } i o pop = .ok c' := by
  obtain ⟨rs, hrs⟩ : ∃ rs, popProjectedRename { c₀ with tree := t' } i o (some n) pop =
      .ok { c₀ with tree := t', projectedSubtreeRenames := rs } := by
    rw [popProjectedRename]
    split
    · rename_i hp
      obtain ⟨l, hl⟩ : ∃ l, c₀.projectedSubtreeRenames i = (o, n) :: l := by
        cases hc : c₀.projectedSubtreeRenames i with
        | nil => simp [hc] at hpop; exact absurd hp (by simp [hpop])
        | cons p l =>
          rw [hc] at hpop
          exact ⟨l, by rw [Option.some.inj (hpop hp)]⟩
      simp only [hl]
      exact ⟨_, by simp [assert, bind, Except.bind, pure, Except.pure, setProjectedRenames]; rfl⟩
    · exact ⟨c₀.projectedSubtreeRenames, rfl⟩
  have hI₂ : Inv { c₀ with projectedSubtreeRenames := rs } :=
    ⟨hI.key, hI.pin, hI.mem_bounds, hI.rooted, hI.cached⟩
  obtain ⟨c', hc'⟩ := hI₂.renameLoop_returns (I := I) hR
    (fun x => mem_rootsFirst.trans t'.mem_dirfrags) (nodup_rootsFirst (t'.nodup_dirfrags i))
    pairwise_rootsFirst ho hn
  refine ⟨c', ?_⟩
  rw [adjustSubtreeAfterRename]
  simp only [hR.new, hrs, deref, bind, Except.bind]
  exact hc'

/-- What a returning `adjustSubtreeAfterRename` leaves: the invariant in the
new tree, and every fragment with the authority it had. With `pop`, the rename
was the first one projected, and is no longer. -/
theorem adjustSubtreeAfterRename_rest [DecidableEq ι] {pop : Bool} (hI : Inv c₀)
    (hR : Reparented c₀.tree t' i o n)
    (h : adjustSubtreeAfterRename I { c₀ with tree := t' } i o pop = .ok c') :
    (Inv c' ∧ c'.tree = t' ∧ c'.exportBound = c₀.exportBound ∧ ∀ x, c'.rootAuth x = c₀.rootAuth x) ∧
      (pop = true →
        c'.projectedSubtreeRenames = Function.update c₀.projectedSubtreeRenames i (c₀.projectedSubtreeRenames i).tail) ∧
      ∀ O N, c₀.getSubtreeRoot o = some O → c₀.getSubtreeRoot n = some N → Carried i O N c₀ c' := by
  obtain ⟨c₁, h₁, h⟩ := bind_ok.mp h
  -- The pop happens before the map is touched: take it as part of the state before.
  obtain ⟨rs, rfl⟩ : ∃ rs, c₁ = { c₀ with tree := t', projectedSubtreeRenames := rs } :=
    ⟨_, popProjectedRename_rest h₁⟩
  have hrs : pop = true → rs = Function.update c₀.projectedSubtreeRenames i (c₀.projectedSubtreeRenames i).tail := by
    intro hp
    rw [popProjectedRename, if_pos hp] at h₁
    split at h₁
    · cases h₁
    · rename_i hl
      simp only [bind_ok, assert_ok, pure_ok] at h₁
      obtain ⟨_, -, _, -, h₁⟩ := h₁
      have := congrArg Cache.projectedSubtreeRenames h₁
      rw [show c₀.projectedSubtreeRenames i = _ from hl]
      exact this.symm
  set c₂ : Cache ι α L := { c₀ with projectedSubtreeRenames := rs } with hc₂
  have hI₂ : Inv c₂ := ⟨hI.key, hI.pin, hI.mem_bounds, hI.rooted, hI.cached⟩
  simp only [hR.new, deref, bind, Except.bind] at h
  obtain ⟨⟨hI', ht, he, hA, hr⟩, hcarried⟩ := hI₂.renameLoop hR (fun x => mem_rootsFirst.trans t'.mem_dirfrags)
    (nodup_rootsFirst (t'.nodup_dirfrags i)) h
  refine ⟨⟨hI', ht, he, hA⟩, fun hp => hr.trans (hrs hp), fun O N hO hN => ?_⟩
  have hc := hcarried O N hO hN
  exact ⟨hc.same, hc.frag⟩

theorem adjustSubtreeAfterRename_spec [DecidableEq ι] {pop : Bool} (hI : Inv c₀)
    (hR : Reparented c₀.tree t' i o n)
    (h : adjustSubtreeAfterRename I { c₀ with tree := t' } i o pop = .ok c') :
    Inv c' ∧ c'.tree = t' ∧ c'.exportBound = c₀.exportBound ∧ ∀ x, c'.rootAuth x = c₀.rootAuth x :=
  (adjustSubtreeAfterRename_rest hI hR h).1

end Whole

end Cache

end CephMds
