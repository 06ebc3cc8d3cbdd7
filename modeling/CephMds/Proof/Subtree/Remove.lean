import CephMds.Framework.Ancestry
import CephMds.Model.Remove
import CephMds.Proof.Subtree.Reachable

/-!
# Removal of an inode from the subtree map

A fragment that is removed below the inode has no parent by then, since each
inode is unlinked before what is below it is visited. So a subtree root among
them stays a bound of the root above it (`removeLevels_keeps_bound`). Without
such roots the recursion only prunes the tree (`removeLevels_pruned`), and the
fragments of the inode itself are leaves when they are removed
(`removeLeaf_spec`). `removeInodeRecursive_clean_iff` puts the two together.
-/

namespace CephMds

open Checked Ancestry

variable {ι α L : Type}

/-! ## What is below an inode -/

namespace DirTree

variable {t t₀ : DirTree ι α} {i j k : ι} {f g x : α} {S S' : ι → Prop} {C C' : α → Prop}

/-- The inode of the fragment with the dentry of `k`. -/
def parentInode (t : DirTree ι α) (k : ι) : Option ι := (t.parentDir k).bind t.inode

/-- `k` is `i` or below it. -/
def Under (t : DirTree ι α) (i k : ι) : Prop := Above t.parentInode k i

/-- The fragment is one of an inode at or below `i`. -/
def DirUnder (t : DirTree ι α) (i : ι) (x : α) : Prop := ∃ k, t.inode x = some k ∧ t.Under i k

/-- The dentry of `k`, or of an inode above it, is in the fragment `f`. -/
def Inside (t : DirTree ι α) (f : α) (k : ι) : Prop := ∃ k₀, t.parentDir k₀ = some f ∧ t.Under k₀ k

def DirInside (t : DirTree ι α) (f x : α) : Prop := ∃ k, t.inode x = some k ∧ t.Inside f k

theorem acyclic_parentInode (t : DirTree ι α) : Acyclic t.parentInode := by
  refine ⟨fun k => (t.parentDir k).elim 0 fun q => t.depth q + 1, fun k j h => ?_⟩
  obtain ⟨f, hf, hj⟩ := Option.bind_eq_some_iff.mp h
  show (t.parentDir j).elim 0 _ < (t.parentDir k).elim 0 _
  rw [hf]
  cases hq : t.parentDir j with
  | none => exact Nat.succ_pos _
  | some q => exact Nat.succ_lt_succ (t.depth_lt hj hq)

theorem parentInode_of (hk : t.parentDir k = some f) (hf : t.inode f = some j) : t.parentInode k = some j := by
  rw [parentInode, hk]
  exact hf

theorem Inside.under (hf : t.inode f = some j) (h : t.Inside f k) : t.Under j k := by
  obtain ⟨k₀, hk₀, hk⟩ := h
  exact hk.trans (.step (parentInode_of hk₀ hf) (.refl j))

theorem Inside.ne (hf : t.inode f = some j) (h : t.Inside f k) : k ≠ j := by
  rintro rfl
  obtain ⟨k₀, hk₀, hk⟩ := h
  exact t.acyclic_parentInode.not_above (parentInode_of hk₀ hf) hk

theorem under_iff : t.Under j k ↔ k = j ∨ ∃ f, t.inode f = some j ∧ t.Inside f k := by
  constructor
  · intro h
    rcases above_cases_tail h with rfl | ⟨k₀, hk₀, hk⟩
    · exact .inl rfl
    · obtain ⟨f, hf, hj⟩ := Option.bind_eq_some_iff.mp hk₀
      exact .inr ⟨f, hj, k₀, hf, hk⟩
  · rintro (rfl | ⟨f, hf, h⟩)
    · exact .refl _
    · exact h.under hf

theorem dirUnder_iff : t.DirUnder j x ↔ t.inode x = some j ∨ ∃ f, t.inode f = some j ∧ t.DirInside f x := by
  constructor
  · rintro ⟨k, hx, h⟩
    rcases under_iff.mp h with rfl | ⟨f, hf, h⟩
    · exact .inl hx
    · exact .inr ⟨f, hf, k, hx, h⟩
  · rintro (hx | ⟨f, hf, k, hx, h⟩)
    · exact ⟨j, hx, .refl j⟩
    · exact ⟨k, hx, h.under hf⟩

/-- Different fragments of an inode have different inodes inside. -/
theorem Inside.eq (hf : t.inode f = some j) (hg : t.inode g = some j) (h : t.Inside f k) (h' : t.Inside g k) :
    f = g := by
  obtain ⟨k₁, hk₁, hk⟩ := h
  obtain ⟨k₂, hk₂, hk'⟩ := h'
  obtain rfl := t.acyclic_parentInode.sibling_eq (parentInode_of hk₁ hf) (parentInode_of hk₂ hg) hk hk'
  exact Option.some.inj (hk₁.symm.trans hk₂)

theorem DirInside.eq (hf : t.inode f = some j) (hg : t.inode g = some j) (h : t.DirInside f x)
    (h' : t.DirInside g x) : f = g := by
  obtain ⟨k, hk, h⟩ := h
  obtain ⟨k', hk', h'⟩ := h'
  obtain rfl := Option.some.inj (hk.symm.trans hk')
  exact h.eq hf hg h'

/-- A fragment of `j` is not inside another one. -/
theorem not_dirInside (hf : t.inode f = some j) (hg : t.inode g = some j) : ¬ t.DirInside f g := by
  rintro ⟨k, hk, h⟩
  exact h.ne hf (Option.some.inj (hk.symm.trans hg))

/-- A fragment of an inode whose dentry is inside `f`, too. -/
theorem DirInside.child {q : α} (hx : t.inode x = some k) (hq : t.parentDir k = some q) (h : t.DirInside f q) :
    t.DirInside f x := by
  obtain ⟨k', hk', k₀, hk₀, h⟩ := h
  exact ⟨k, hx, k₀, hk₀, .step (parentInode_of hq hk') h⟩

/-! ## Pruned trees -/

/-- The tree `t` is `t₀` without the dentries of the inodes `S` and without the fragments `C`. -/
structure Pruned (t₀ : DirTree ι α) (S : ι → Prop) (C : α → Prop) (t : DirTree ι α) : Prop where
  closed {x : α} : C x → t.inode x = none
  inode {x : α} : ¬ C x → t.inode x = t₀.inode x
  unlinked {k : ι} : S k → t.parentDir k = none
  parentDir {k : ι} : ¬ S k → t.parentDir k = t₀.parentDir k

namespace Pruned

theorem refl (t : DirTree ι α) : t.Pruned (fun _ => False) (fun _ => False) t :=
  ⟨False.elim, fun _ => rfl, False.elim, fun _ => rfl⟩

theorem congr (h : t₀.Pruned S C t) (hS : ∀ k, S k ↔ S' k) (hC : ∀ x, C x ↔ C' x) : t₀.Pruned S' C' t := by
  obtain rfl : S = S' := funext fun k => propext (hS k)
  obtain rfl : C = C' := funext fun x => propext (hC x)
  exact h

theorem inode_some (h : t₀.Pruned S C t) (hx : t.inode x = some k) : ¬ C x ∧ t₀.inode x = some k := by
  have hC : ¬ C x := fun hC => by
    rw [h.closed hC] at hx
    cases hx
  exact ⟨hC, (h.inode hC).symm.trans hx⟩

theorem parentDir_some (h : t₀.Pruned S C t) (hk : t.parentDir k = some f) : ¬ S k ∧ t₀.parentDir k = some f := by
  have hS : ¬ S k := fun hS => by
    rw [h.unlinked hS] at hk
    cases hk
  exact ⟨hS, (h.parentDir hS).symm.trans hk⟩

theorem unlink [DecidableEq ι] (h : t₀.Pruned S C t) (j : ι) : t₀.Pruned (fun k => S k ∨ k = j) C (t.unlink j) := by
  refine ⟨h.closed, h.inode, fun {k} hk => ?_, fun {k} hk => ?_⟩
  · show Function.update t.parentDir j none k = none
    by_cases hkj : k = j
    · rw [hkj, Function.update_self]
    · rw [Function.update_of_ne hkj]
      exact h.unlinked (hk.resolve_right hkj)
  · show Function.update t.parentDir j none k = _
    rw [Function.update_of_ne fun e => hk (.inr e)]
    exact h.parentDir fun hS => hk (.inl hS)

theorem close [LinearOrder α] (h : t₀.Pruned S C t) (d : α) : t₀.Pruned S (fun x => C x ∨ x = d) (t.close d) := by
  refine ⟨fun {x} hx => ?_, fun {x} hx => ?_, h.unlinked, h.parentDir⟩
  · show Function.update t.inode d none x = none
    by_cases hxd : x = d
    · rw [hxd, Function.update_self]
    · rw [Function.update_of_ne hxd]
      exact h.closed (hx.resolve_right hxd)
  · show Function.update t.inode d none x = _
    rw [Function.update_of_ne fun e => hx (.inr e)]
    exact h.inode fun hC => hx (.inl hC)

end Pruned

end DirTree

/-- A climb ends where it starts, or at a node with a child. -/
theorem Forest.nearest_child {F : Forest α} {m : α → Bool} {x r : α} (h : F.nearest m x = some r) :
    x = r ∨ ∃ y, F.parent y = some r := by
  induction x using F.downward with
  | h x ih =>
    rw [F.nearest_eq] at h
    split at h
    · exact .inl (Option.some.inj h)
    · obtain ⟨q, hq, hr⟩ := F.above_eq_some.mp h
      rcases ih q hq hr with rfl | hy
      · exact .inr ⟨x, hq⟩
      · exact .inr hy

namespace Cache

variable {c c' : Cache ι α L} {t₀ : DirTree ι α} {i j k : ι} {f r s x : α} {S : ι → Prop} {C : α → Prop}

/-! ## What keeps the invariant -/

theorem isSubtreeRoot_of_tree (h : c' = { c with tree := c'.tree }) : c'.isSubtreeRoot = c.isSubtreeRoot :=
  isSubtreeRoot_eq (by rw [h])

theorem tree_trans {c₁ : Cache ι α L} (h : c₁ = { c with tree := c₁.tree })
    (h' : c' = { c₁ with tree := c'.tree }) : c' = { c with tree := c'.tree } := by
  rw [h', h]

/-- Fragments that are no roots, and have what is below them removed with them. -/
theorem Inv.prune {D : α → Prop} (hI : Inv c) (hrest : c' = { c with tree := c'.tree })
    (hinode : ∀ x, ¬ D x → c'.tree.inode x = c.tree.inode x)
    (hparent : ∀ x, ¬ D x → c'.getParentDir x = c.getParentDir x)
    (hD : ∀ x s, ¬ D x → D s → c.getParentDir x ≠ some s) (hroot : ∀ x, D x → c.isSubtreeRoot x = false) :
    Inv c' := by
  have hA : c'.dirAuth = c.dirAuth := by rw [hrest]
  have hR := isSubtreeRoot_eq hA
  have hbounds : ∀ r, c'.bounds r = c.bounds r := by
    intro r
    rw [hrest]
    rfl
  have hnot : ∀ {x}, c.isSubtreeRoot x = true → ¬ D x := fun {x} hx hd =>
    absurd ((hroot x hd).symm.trans hx) Bool.false_ne_true
  have habove : ∀ x, ¬ D x → c'.rootAbove x = c.rootAbove x := fun x hx =>
    Forest.above_remove hparent (fun x _ => congrFun hR x) hD hx
  constructor
  · intro d
    rw [hR, ← hI.key d, hrest]
  · intro d
    rw [hR, ← hI.pin d, hrest]
  · intro r s
    rw [hbounds, hR, hI.mem_bounds]
    exact and_congr_right fun hs => by rw [habove s (hnot hs)]
  · intro s q hs hq
    rw [hR] at hs
    rw [hparent s (hnot hs)] at hq
    rw [show c'.getSubtreeRoot q = c.getSubtreeRoot q from
      Forest.nearest_remove hparent (fun x _ => congrFun hR x) hD fun hd => hD s q (hnot hs) hd hq]
    exact hI.rooted hs hq
  · intro d hd
    rw [hR] at hd
    rw [hinode d (hnot hd)]
    exact hI.cached hd

/-- What is removed from a tree is removed with what is below it. -/
theorem Inv.pruned {S' : ι → Prop} {C' : α → Prop} (hI : Inv c) (hrest : c' = { c with tree := c'.tree })
    (h : t₀.Pruned S C c.tree) (h' : t₀.Pruned S' C' c'.tree) (hS : ∀ k, S k → S' k) (hC : ∀ x, C x → C' x)
    (hfrag : ∀ x k, t₀.inode x = some k → S' k → S k ∨ C' x)
    (hbelow : ∀ x k q, t₀.inode x = some k → t₀.parentDir k = some q → C' q → C q ∨ C' x)
    (hroot : ∀ x, C' x → ¬ C x → c.isSubtreeRoot x = false) : Inv c' := by
  have hinode : ∀ x, ¬ (C' x ∧ ¬ C x) → c'.tree.inode x = c.tree.inode x := by
    intro x hx
    by_cases hCx : C x
    · rw [h'.closed (hC x hCx), h.closed hCx]
    · rw [h'.inode fun h => hx ⟨h, hCx⟩, h.inode hCx]
  refine hI.prune (D := fun x => C' x ∧ ¬ C x) hrest hinode (fun x hx => ?_) (fun x s hx hs hq => ?_)
    fun x hx => hroot x hx.1 hx.2
  · rw [getParentDir, getParentDir]
    simp only [DirTree.forest, hinode x hx]
    cases hk : c.tree.inode x with
    | none => rfl
    | some k =>
      obtain ⟨hCx, hk⟩ := h.inode_some hk
      rw [Option.bind_some, Option.bind_some]
      by_cases hSk : S k
      · rw [h'.unlinked (hS k hSk), h.unlinked hSk]
      · rw [h.parentDir hSk, h'.parentDir fun hk' => ?_]
        exact hx ⟨(hfrag x k hk hk').resolve_left hSk, hCx⟩
  · obtain ⟨k, hk, hq⟩ := getParentDir_inode hq
    obtain ⟨hCx, hk⟩ := h.inode_some hk
    obtain ⟨-, hq⟩ := h.parentDir_some hq
    exact hx ⟨(hbelow x k s hk hq hs.1).resolve_left hs.2, hCx⟩

/-- A root with nothing below it has no bounds. -/
theorem Inv.bounds_leaf (hI : Inv c) (hleaf : ∀ x, c.getParentDir x ≠ some f) : c.bounds f = ∅ := by
  rw [Finset.eq_empty_iff_forall_notMem]
  intro s hs
  obtain ⟨-, -, q, hq, hqf⟩ := hI.mem_bounds' hs
  rcases Forest.nearest_child hqf with rfl | ⟨y, hy⟩
  · exact hleaf s hq
  · exact hleaf y hy

/-! ## What is still there -/

/-- Every inode with a dentry is visited once. -/
structure Visits (t : DirTree ι α) (inodes : List ι) : Prop where
  nodup : inodes.Nodup
  mem {k : ι} {q : α} : t.parentDir k = some q → k ∈ inodes

/-- The inodes `S` and the fragments `C` are gone, none of them inside `f`,
which has no roots inside. -/
structure Untouched (t₀ : DirTree ι α) (S : ι → Prop) (C : α → Prop) (f : α) (c : Cache ι α L) : Prop where
  pruned : t₀.Pruned S C c.tree
  inode {k : ι} : t₀.Inside f k → ¬ S k
  dir {x : α} : t₀.DirInside f x → ¬ C x
  root {x : α} : t₀.DirInside f x → c.isSubtreeRoot x = false

/-- The other fragments of `j`, with what is inside them, are not inside `f`. -/
theorem untouched_next {done : List α} (hf : t₀.inode f = some j) (hdone : ∀ g ∈ done, t₀.inode g = some j) (hfd : f ∉ done)
    (hS : ∀ k, t₀.Inside f k → ¬ S k) (hC : ∀ x, t₀.DirInside f x → ¬ C x)
    (hpr : t₀.Pruned (fun k => S k ∨ ∃ g ∈ done, t₀.Inside g k)
      (fun x => C x ∨ ∃ g ∈ done, x = g ∨ t₀.DirInside g x) c.tree)
    (hroot : ∀ x, t₀.DirInside f x → c.isSubtreeRoot x = false) :
    Untouched t₀ (fun k => S k ∨ ∃ g ∈ done, t₀.Inside g k)
      (fun x => C x ∨ ∃ g ∈ done, x = g ∨ t₀.DirInside g x) f c := by
  refine ⟨hpr, ?_, ?_, fun {x} => hroot x⟩
  · rintro k hk (h | ⟨g, hg, h⟩)
    · exact hS k hk h
    · exact hfd (hk.eq hf (hdone g hg) h ▸ hg)
  · rintro x hx (h | ⟨g, hg, rfl | h⟩)
    · exact hC x hx h
    · exact DirTree.not_dirInside hf (hdone x hg) hx
    · exact hfd (hx.eq hf (hdone g hg) h ▸ hg)

variable [LinearOrder α]

/-! ## The fragments of the inode -/

/-- `remove_subtree` of a root without bounds. -/
theorem removeSubtree_spec (hI : Inv c) (hf : c.isSubtreeRoot f = true) (hb : c.bounds f = ∅) :
    ∃ c', c.removeSubtree f = .ok c' ∧ Frame c c' ∧ c'.dirAuth = c.dirAuth ∧
      (∀ x, (c'.subtrees x).isSome = (!decide (x = f) && (c.subtrees x).isSome)) ∧
      (∀ x, c'.pinSubtree x = if x = f then 0 else c.pinSubtree x) ∧
      ∀ r s, s ∈ c'.bounds r ↔ s ∈ c.bounds r ∧ s ≠ f := by
  have hkey : (c.subtrees f).isSome = true := (hI.key f).trans hf
  have hpin : c.pinSubtree f = 1 := by rw [hI.pin, if_pos hf]
  have herase : ∀ r, (c.eraseSubtree f).bounds r = c.bounds r := by
    intro r
    by_cases hr : r = f
    · rw [hr, hb]
      simp [eraseSubtree, bounds]
    · simp [eraseSubtree, bounds, hr]
  have hkeys : ∀ x, ((c.eraseSubtree f).subtrees x).isSome = (!decide (x = f) && (c.subtrees x).isSome) := by
    intro x
    by_cases hx : x = f <;> simp [eraseSubtree, hx]
  obtain ⟨c₁, hc₁⟩ : ∃ c₁, c₁ = { c.eraseSubtree f with pinSubtree := Function.update c.pinSubtree f 0 } := ⟨_, rfl⟩
  have hput : (c.eraseSubtree f).putPin f = .ok c₁ := by
    refine bind_ok.mpr ⟨(), assert_ok.mpr (decide_eq_true ?_), ?_⟩
    · rw [show (c.eraseSubtree f).pinSubtree f = 1 from hpin]
      exact Nat.one_pos
    · rw [hc₁, ← show c.pinSubtree f - 1 = 0 by rw [hpin]]
      rfl
  have hpins : ∀ x, c₁.pinSubtree x = if x = f then 0 else c.pinSubtree x := by
    intro x
    rw [hc₁]
    by_cases hx : x = f <;> simp [hx]
  have hb₁ : ∀ r, c₁.bounds r = c.bounds r := by
    intro r
    rw [hc₁, ← herase r]
    rfl
  have hk₁ : ∀ x, (c₁.subtrees x).isSome = (!decide (x = f) && (c.subtrees x).isSome) := by
    intro x
    rw [hc₁, ← hkeys x]
  have hrun : c.removeSubtree f = c₁.leaveBounds f := by
    unfold removeSubtree
    rw [hkey, decide_eq_true hb, hput]
    rfl
  have hparent : c₁.getParentDir f = c.getParentDir f := by
    rw [hc₁]
    rfl
  cases hq : c.getParentDir f with
  | none =>
    refine ⟨c₁, ?_, ?_, by rw [hc₁]; rfl, hk₁, hpins, fun r s => ?_⟩
    · rw [hrun, leaveBounds, hparent, hq]
      rfl
    · rw [hc₁]
      exact ⟨rfl, rfl, rfl, rfl⟩
    · rw [hb₁]
      refine ⟨fun hs => ⟨hs, ?_⟩, And.left⟩
      rintro rfl
      obtain ⟨-, -, q, hq', -⟩ := hI.mem_bounds' hs
      rw [hq] at hq'
      cases hq'
  | some q =>
    obtain ⟨p, hp⟩ := hI.rootAbove_isSome hf hq
    have hpf : p ≠ f := Forest.above_ne _ hp
    have hmem : f ∈ c.bounds p := (hI.mem_bounds p f).mpr ⟨hf, hp⟩
    have hroot : c₁.getSubtreeRoot q = some p := by
      rw [← hp, rootAbove_of_parent hq, hc₁]
      rfl
    have hkp : (c₁.subtrees p).isSome = true := by
      rw [hk₁, hI.key p, rootAbove_isRoot hp, decide_eq_false hpf]
      rfl
    refine ⟨c₁.eraseBound p f, ?_, ?_, by rw [hc₁]; rfl, fun x => ?_, hpins, fun r s => ?_⟩
    · rw [hrun, leaveBounds, hparent, hq]
      refine bind_ok.mpr ⟨(), assert_ok.mpr ?_, bind_ok.mpr ⟨p, deref_ok.mpr hroot, rfl⟩⟩
      rw [hroot, Option.any_some, hb₁]
      exact decide_eq_true hmem
    · rw [hc₁]
      exact ⟨rfl, rfl, rfl, rfl⟩
    · rw [eraseBound, setBounds_key hkp]
      exact hk₁ x
    · rw [mem_eraseBound, hb₁]
      refine and_congr_right fun hs => not_congr ⟨And.right, ?_⟩
      rintro rfl
      refine ⟨?_, rfl⟩
      have hr := ((hI.mem_bounds r s).mp hs).2
      exact Option.some.inj (hr.symm.trans hp)

/-- A fragment whose inode is unlinked stays a bound. -/
theorem removeSubtree_keeps (h : c.removeSubtree f = .ok c') (hs : s ∈ c.bounds r)
    (hf : s = f → c.getParentDir f = none) : s ∈ c'.bounds r ∧ c'.tree = c.tree := by
  obtain ⟨-, -, h⟩ := bind_ok.mp h
  obtain ⟨u, hb, h⟩ := bind_ok.mp h
  obtain ⟨c₁, hc₁, h⟩ := bind_ok.mp h
  obtain ⟨-, -, hc₁⟩ := bind_ok.mp hc₁
  rw [assert_ok, decide_eq_true_eq] at hb
  have hr : r ≠ f := by
    rintro rfl
    rw [hb] at hs
    exact absurd hs (Finset.notMem_empty s)
  have ht₁ : c₁.tree = c.tree := by
    cases hc₁
    rfl
  have hs₁ : s ∈ c₁.bounds r := by
    cases hc₁
    simpa [eraseSubtree, bounds, hr] using hs
  unfold leaveBounds at h
  cases hq : c.getParentDir f with
  | none =>
    rw [getParentDir, ht₁, ← getParentDir, hq] at h
    cases h
    exact ⟨hs₁, ht₁⟩
  | some q =>
    rw [getParentDir, ht₁, ← getParentDir, hq] at h
    obtain ⟨-, -, h⟩ := bind_ok.mp h
    obtain ⟨p, -, h⟩ := bind_ok.mp h
    cases h
    refine ⟨mem_eraseBound.mpr ⟨hs₁, fun e => ?_⟩, ht₁⟩
    rw [hf e.2] at hq
    cases hq

/-- A fragment with nothing below it is removed from the map, and closed. -/
theorem removeLeaf_spec (hI : Inv c) (hleaf : ∀ x, c.getParentDir x ≠ some f) :
    ∃ c', c.removeIfRoot f = .ok c' ∧ c'.tree = c.tree ∧
      c'.dirAuth = c.dirAuth ∧ Inv (c'.closeDirfrag f) := by
  obtain ⟨c', hrun, hframe, hA, hk, hp, hb⟩ : ∃ c', c.removeIfRoot f = .ok c' ∧
      Frame c c' ∧ c'.dirAuth = c.dirAuth ∧
      (∀ x, (c'.subtrees x).isSome = (!decide (x = f) && (c.subtrees x).isSome)) ∧
      (∀ x, c'.pinSubtree x = if x = f then 0 else c.pinSubtree x) ∧
      ∀ r s, s ∈ c'.bounds r ↔ s ∈ c.bounds r ∧ s ≠ f := by
    cases hf : c.isSubtreeRoot f with
    | true =>
      rw [removeIfRoot, if_pos hf]
      exact removeSubtree_spec hI hf (hI.bounds_leaf hleaf)
    | false =>
      have hkey := hI.key f
      rw [hf] at hkey
      refine ⟨c, if_neg (by rw [hf]; exact Bool.false_ne_true), .refl c, rfl, fun x => ?_, fun x => ?_, fun r s => ?_⟩
      · by_cases hx : x = f
        · simp [hx, hkey]
        · simp [hx]
      · by_cases hx : x = f
        · rw [hx, if_pos rfl, hI.pin, hf]
          rfl
        · rw [if_neg hx]
      · refine ⟨fun hs => ⟨hs, ?_⟩, And.left⟩
        rintro rfl
        have := ((hI.mem_bounds r s).mp hs).1
        rw [hf] at this
        cases this
  refine ⟨c', hrun, hframe.tree, hA, ?_⟩
  have hroot : ∀ x, (c'.closeDirfrag f).isSubtreeRoot x = (!decide (x = f) && c.isSubtreeRoot x) := by
    intro x
    by_cases hx : x = f <;> simp [isSubtreeRoot, closeDirfrag, hA, hx]
  have hinode : ∀ x, x ≠ f → (c'.closeDirfrag f).tree.inode x = c.tree.inode x := by
    intro x hx
    rw [← hframe.tree]
    exact Function.update_of_ne hx _ _
  have hparent : ∀ x, ¬ x = f → (c'.closeDirfrag f).getParentDir x = c.getParentDir x := by
    intro x hx
    show ((c'.closeDirfrag f).tree.inode x).bind c'.tree.parentDir = (c.tree.inode x).bind c.tree.parentDir
    rw [hinode x hx, hframe.tree]
  have hmark : ∀ x, ¬ x = f → (c'.closeDirfrag f).isSubtreeRoot x = c.isSubtreeRoot x := by
    intro x hx
    rw [hroot, decide_eq_false hx]
    rfl
  have hchild : ∀ x s, ¬ x = f → s = f → c.getParentDir x ≠ some s := fun x s _ hs => hs ▸ hleaf x
  have hne : ∀ {x}, (c'.closeDirfrag f).isSubtreeRoot x = true → x ≠ f := by
    rintro x hx rfl
    rw [hroot, decide_eq_true rfl] at hx
    cases hx
  have habove : ∀ x, x ≠ f → (c'.closeDirfrag f).rootAbove x = c.rootAbove x := fun x hx =>
    Forest.above_remove (S := (· = f)) hparent hmark hchild hx
  constructor
  · intro x
    rw [hroot, ← hI.key x]
    exact hk x
  · intro x
    rw [hroot, show (c'.closeDirfrag f).pinSubtree x = c'.pinSubtree x from rfl, hp, hI.pin]
    by_cases hx : x = f <;> simp [hx]
  · intro r s
    rw [show (c'.closeDirfrag f).bounds r = c'.bounds r from rfl, hb, hI.mem_bounds, hroot]
    by_cases hs : s = f
    · simp [hs]
    · simp [hs, habove s hs]
  · intro s q hs hq
    have hsf := hne hs
    rw [hmark s hsf] at hs
    rw [hparent s hsf] at hq
    rw [show (c'.closeDirfrag f).getSubtreeRoot q = c.getSubtreeRoot q from
      Forest.nearest_remove (S := (· = f)) hparent hmark hchild fun e => hleaf s (e ▸ hq)]
    exact hI.rooted hs hq
  · intro d hd
    have hdf := hne hd
    rw [hmark d hdf] at hd
    rw [hinode d hdf]
    exact hI.cached hd

/-! ## The recursion without roots -/

section Recursion

variable [DecidableEq ι] {inodes : List ι} {n H : ℕ} {run : Cache ι α L → ι → Checked (Cache ι α L)}

/-- The run for `j`, which is unlinked before, removes what is below it. -/
def Prunes (t₀ : DirTree ι α) (run : Cache ι α L → ι → Checked (Cache ι α L)) (j : ι) : Prop :=
  ∀ (S : ι → Prop) (C : α → Prop) (c : Cache ι α L), t₀.Pruned S C c.tree → S j →
    (∀ k, t₀.Under j k → k ≠ j → ¬ S k) → (∀ x, t₀.DirUnder j x → ¬ C x) →
    (∀ x, t₀.DirUnder j x → c.isSubtreeRoot x = false) →
    ∃ c', run c j = .ok c' ∧ c' = { c with tree := c'.tree } ∧
      t₀.Pruned (fun k => S k ∨ t₀.Under j k) (fun x => C x ∨ t₀.DirUnder j x) c'.tree

/-- The loop over the dentries of `f`. -/
theorem items_pruned (hrun : ∀ k, t₀.parentDir k = some f → Prunes t₀ run k) (hl : Visits t₀ inodes)
    (hf : t₀.inode f = some j) (h : Untouched t₀ S C f c) :
    ∃ c', (c.items inodes f).foldlM (fun c tin => run (c.unlinkInode tin) tin) c = .ok c' ∧
      c' = { c with tree := c'.tree } ∧
      t₀.Pruned (fun k => S k ∨ t₀.Inside f k) (fun x => C x ∨ t₀.DirInside f x) c'.tree := by
  have hmem : ∀ k, k ∈ c.items inodes f ↔ t₀.parentDir k = some f := by
    intro k
    rw [items, List.mem_filter, decide_eq_true_eq]
    constructor
    · rintro ⟨-, hk⟩
      exact (h.pruned.parentDir_some hk).2
    · intro hk
      exact ⟨hl.mem hk, (h.pruned.parentDir (h.inode ⟨k, hk, .refl k⟩)).trans hk⟩
  have hnd : (c.items inodes f).Nodup := hl.nodup.filter _
  have step : ∀ done k rest (c₁ : Cache ι α L), c.items inodes f = done ++ k :: rest →
      (c₁ = { c with tree := c₁.tree } ∧ t₀.Pruned (fun k => S k ∨ ∃ k₀ ∈ done, t₀.Under k₀ k)
        (fun x => C x ∨ ∃ k₀ ∈ done, t₀.DirUnder k₀ x) c₁.tree) →
      ∃ c₂, run (c₁.unlinkInode k) k = .ok c₂ ∧ c₂ = { c with tree := c₂.tree } ∧
        t₀.Pruned (fun k' => S k' ∨ ∃ k₀ ∈ done ++ [k], t₀.Under k₀ k')
          (fun x => C x ∨ ∃ k₀ ∈ done ++ [k], t₀.DirUnder k₀ x) c₂.tree := by
    intro done k rest c₁ hsplit ⟨hrest, hpr⟩
    have hin : ∀ k₁ ∈ done ++ k :: rest, t₀.parentDir k₁ = some f := fun k₁ hk₁ => (hmem k₁).mp (hsplit ▸ hk₁)
    have hk : t₀.parentDir k = some f := hin k (by simp)
    have hnot : k ∉ done := fun hd => by
      rw [hsplit, List.nodup_append] at hnd
      exact hnd.2.2 k hd k List.mem_cons_self rfl
    -- The inodes of the other dentries have other inodes below them.
    have hother : ∀ {k₁ k'}, k₁ ∈ done → t₀.Under k₁ k' → ¬ t₀.Under k k' := by
      intro k₁ k' hk₁ h₁ h₂
      obtain rfl := t₀.acyclic_parentInode.sibling_eq
        (DirTree.parentInode_of (hin k₁ (List.mem_append_left _ hk₁)) hf) (DirTree.parentInode_of hk hf) h₁ h₂
      exact hnot hk₁
    obtain ⟨c₂, hc₂, hrest₂, hpr₂⟩ := hrun k hk _ _ (c₁.unlinkInode k) (hpr.unlink k) (.inr rfl)
      (by
        rintro k' hk' hne ((hS | ⟨k₁, hk₁, h₁⟩) | he)
        · exact h.inode ⟨k, hk, hk'⟩ hS
        · exact hother hk₁ h₁ hk'
        · exact hne he)
      (by
        rintro x ⟨k', hx, hk'⟩ (hC | ⟨k₁, hk₁, k'', hx', h₁⟩)
        · exact h.dir ⟨k', hx, k, hk, hk'⟩ hC
        · obtain rfl := Option.some.inj (hx.symm.trans hx')
          exact hother hk₁ h₁ hk')
      (by
        rintro x ⟨k', hx, hk'⟩
        have hrest' : c₁.unlinkInode k = { c with tree := (c₁.unlinkInode k).tree } := tree_trans hrest rfl
        rw [isSubtreeRoot_of_tree hrest']
        exact h.root ⟨k', hx, k, hk, hk'⟩)
    refine ⟨c₂, hc₂, ?_, hpr₂.congr (fun k' => ?_) fun x => ?_⟩
    · exact tree_trans (tree_trans hrest rfl) hrest₂
    · have hself : k' = k → t₀.Under k k' := fun e => e ▸ .refl k'
      simp only [List.mem_append, List.mem_singleton, or_and_right, exists_or, exists_eq_left, or_assoc,
        or_iff_right_of_imp hself]
    · simp only [List.mem_append, List.mem_singleton, or_and_right, exists_or, exists_eq_left, or_assoc]
  obtain ⟨c', hc', hrest, hpr⟩ := foldlM_done step ⟨rfl, h.pruned.congr (by simp) (by simp)⟩
  refine ⟨c', hc', hrest, hpr.congr (fun k => or_congr_right ?_) fun x => or_congr_right ?_⟩
  · simp only [hmem]
    rfl
  · constructor
    · rintro ⟨k₀, hk₀, k, hx, hk⟩
      exact ⟨k, hx, k₀, (hmem k₀).mp hk₀, hk⟩
    · rintro ⟨k, hx, k₀, hk₀, hk⟩
      exact ⟨k₀, (hmem k₀).mpr hk₀, k, hx, hk⟩

/-- A fragment that is no root. -/
theorem removeDirfrag_pruned (hrun : ∀ k, t₀.parentDir k = some f → Prunes t₀ run k) (hl : Visits t₀ inodes)
    (hf : t₀.inode f = some j) (h : Untouched t₀ S C f c) (hroot : c.isSubtreeRoot f = false) :
    ∃ c', removeDirfrag inodes run c f = .ok c' ∧ c' = { c with tree := c'.tree } ∧
      t₀.Pruned (fun k => S k ∨ t₀.Inside f k) (fun x => C x ∨ x = f ∨ t₀.DirInside f x) c'.tree := by
  obtain ⟨c₁, hc₁, hrest, hpr⟩ := items_pruned hrun hl hf h
  have hroot₁ : c₁.isSubtreeRoot f = false := by rw [isSubtreeRoot_of_tree hrest, hroot]
  have hA : c₁.dirAuth f = cdirAuthDefault := by simpa [isSubtreeRoot] using hroot₁
  refine ⟨c₁.closeDirfrag f, ?_, tree_trans hrest ?_, (hpr.close f).congr (fun k => Iff.rfl) fun x => by tauto⟩
  · refine bind_ok.mpr ⟨c₁, hc₁, ?_⟩
    rw [removeIfRoot, hroot₁]
    rfl
  · rw [closeDirfrag, ← hA, Function.update_eq_self]

/-- With enough levels, and no roots below. -/
theorem removeLevels_pruned (hl : Visits t₀ inodes) (hH : ∀ x j, t₀.inode x = some j → t₀.depth x < H) :
    ∀ {n j}, 0 < n → (∀ x, t₀.inode x = some j → H < n + t₀.depth x) →
      Prunes t₀ (removeLevels (L := L) inodes n) j := by
  intro n
  induction n with
  | zero => exact fun h => absurd h (lt_irrefl 0)
  | succ n ih =>
    intro j _ hn S C c hpr hSj hS hC hroot
    have hmem : ∀ x, x ∈ c.tree.dirfrags j ↔ t₀.inode x = some j := by
      intro x
      rw [c.tree.mem_dirfrags]
      refine ⟨fun hx => (hpr.inode_some hx).2, fun hx => ?_⟩
      rw [hpr.inode (hC x ⟨j, hx, .refl j⟩), hx]
    -- What is inside a fragment of `j` is less deep from there.
    have hrun : ∀ f, t₀.inode f = some j → ∀ k, t₀.parentDir k = some f →
        Prunes t₀ (removeLevels (L := L) inodes n) k := by
      intro f hf k hk
      have := hn f hf
      have := hH f j hf
      have hn' : 0 < n := by omega
      have hdeep : ∀ x, t₀.inode x = some k → H < n + t₀.depth x := by
        intro x hx
        have := t₀.depth_lt hx hk
        omega
      exact ih hn' hdeep
    have step : ∀ done f rest (c₁ : Cache ι α L), c.tree.dirfrags j = done ++ f :: rest →
        (c₁ = { c with tree := c₁.tree } ∧ t₀.Pruned (fun k => S k ∨ ∃ g ∈ done, t₀.Inside g k)
          (fun x => C x ∨ ∃ g ∈ done, x = g ∨ t₀.DirInside g x) c₁.tree) →
        ∃ c₂, removeDirfrag inodes (removeLevels inodes n) c₁ f = .ok c₂ ∧ c₂ = { c with tree := c₂.tree } ∧
          t₀.Pruned (fun k => S k ∨ ∃ g ∈ done ++ [f], t₀.Inside g k)
            (fun x => C x ∨ ∃ g ∈ done ++ [f], x = g ∨ t₀.DirInside g x) c₂.tree := by
      intro done f rest c₁ hsplit ⟨hrest, hpr₁⟩
      have hin : ∀ g ∈ done ++ f :: rest, t₀.inode g = some j := fun g hg => (hmem g).mp (hsplit ▸ hg)
      have hf : t₀.inode f = some j := hin f (by simp)
      have hfd : f ∉ done := fun hd => by
        have hnd := c.tree.nodup_dirfrags j
        rw [hsplit, List.nodup_append] at hnd
        exact hnd.2.2 f hd f List.mem_cons_self rfl
      have hroot₁ : ∀ x, t₀.DirUnder j x → c₁.isSubtreeRoot x = false := by
        intro x hx
        rw [isSubtreeRoot_of_tree hrest]
        exact hroot x hx
      have hunder : ∀ {x}, t₀.DirInside f x → t₀.DirUnder j x := fun hx => DirTree.dirUnder_iff.mpr (.inr ⟨f, hf, hx⟩)
      have hun := untouched_next hf (fun g hg => hin g (List.mem_append_left _ hg)) hfd
        (fun k hk => hS k (hk.under hf) (hk.ne hf)) (fun x hx => hC x (hunder hx)) hpr₁
        fun x hx => hroot₁ x (hunder hx)
      obtain ⟨c₂, hc₂, hrest₂, hpr₂⟩ :=
        removeDirfrag_pruned (hrun f hf) hl hf hun (hroot₁ f ⟨j, hf, .refl j⟩)
      refine ⟨c₂, hc₂, tree_trans hrest hrest₂, hpr₂.congr (fun k => ?_) fun x => ?_⟩
      · simp only [List.mem_append, List.mem_singleton, or_and_right, exists_or, exists_eq_left, or_assoc]
      · simp only [List.mem_append, List.mem_singleton, or_and_right, exists_or, exists_eq_left, or_assoc]
    obtain ⟨c', hc', hrest, hpr'⟩ := foldlM_done step ⟨rfl, hpr.congr (by simp) (by simp)⟩
    refine ⟨c'.removeInode j, bind_ok.mpr ⟨c', hc', rfl⟩, tree_trans hrest rfl,
      (hpr'.unlink j).congr (fun k => ?_) fun x => or_congr_right ?_⟩
    · rw [DirTree.under_iff]
      simp only [hmem]
      rw [or_assoc, or_comm (a := k = j)]
    · rw [DirTree.dirUnder_iff]
      simp only [hmem, and_or_left, exists_or, exists_eq_right']

/-! ## The inode itself -/

/-- No fragment below those of `i` is a subtree root. -/
def NoNestedRoot (c : Cache ι α L) (i : ι) : Prop :=
  ∀ x k, c.tree.inode x = some k → c.tree.Under i k → k ≠ i → c.isSubtreeRoot x = false

/-- What is below `i` is gone from the cache and from the subtree map. -/
structure Removed (c : Cache ι α L) (i : ι) (c' : Cache ι α L) : Prop where
  inv : Inv c'
  inode (x : α) : c'.tree.inode x = none ↔ c.tree.inode x = none ∨ c.tree.DirUnder i x
  key {x : α} : c.tree.DirUnder i x → c'.subtrees x = none
  bound {x r : α} : c.tree.DirUnder i x → x ∉ c'.bounds r

theorem removeInodeRecursive_removed (hI : Inv c) (hl : Visits c.tree inodes) (h : c.NoNestedRoot i) :
    ∃ c', c.removeInodeRecursive inodes i = .ok c' ∧ Removed c i c' := by
  have hdepth : ∀ x j, c.tree.inode x = some j → c.tree.depth x ≤ c.tree.dirs.sup c.tree.depth := fun x j hx =>
    Finset.le_sup (c.tree.mem_dirs.mpr (by rw [hx]; rfl))
  have hrun : ∀ f k, c.tree.parentDir k = some f →
      Prunes c.tree (removeLevels (L := L) inodes (c.tree.dirs.sup c.tree.depth + 1)) k := by
    intro f k hk
    refine removeLevels_pruned (H := c.tree.dirs.sup c.tree.depth + 1) hl
      (fun x j hx => Nat.lt_succ_of_le (hdepth x j hx)) (Nat.succ_pos _) fun x hx => ?_
    have := c.tree.depth_lt hx hk
    omega
  have step : ∀ done f rest (c₁ : Cache ι α L), c.tree.dirfrags i = done ++ f :: rest →
      (Inv c₁ ∧ (∀ x, x ∉ done → c₁.isSubtreeRoot x = c.isSubtreeRoot x) ∧
        c.tree.Pruned (fun k => False ∨ ∃ g ∈ done, c.tree.Inside g k)
          (fun x => False ∨ ∃ g ∈ done, x = g ∨ c.tree.DirInside g x) c₁.tree) →
      ∃ c₂, removeDirfrag inodes (removeLevels inodes (c.tree.dirs.sup c.tree.depth + 1)) c₁ f = .ok c₂ ∧
        Inv c₂ ∧ (∀ x, x ∉ done ++ [f] → c₂.isSubtreeRoot x = c.isSubtreeRoot x) ∧
        c.tree.Pruned (fun k => False ∨ ∃ g ∈ done ++ [f], c.tree.Inside g k)
          (fun x => False ∨ ∃ g ∈ done ++ [f], x = g ∨ c.tree.DirInside g x) c₂.tree := by
    intro done f rest c₁ hsplit ⟨hI₁, hroot₁, hpr₁⟩
    have hin : ∀ g ∈ done ++ f :: rest, c.tree.inode g = some i := fun g hg =>
      c.tree.mem_dirfrags.mp (hsplit ▸ hg)
    have hf : c.tree.inode f = some i := hin f (by simp)
    have hdone : ∀ g ∈ done, c.tree.inode g = some i := fun g hg => hin g (List.mem_append_left _ hg)
    have hfd : f ∉ done := fun hd => by
      have hnd := c.tree.nodup_dirfrags i
      rw [hsplit, List.nodup_append] at hnd
      exact hnd.2.2 f hd f List.mem_cons_self rfl
    have hun := untouched_next hf hdone hfd (fun _ _ => id) (fun _ _ => id) hpr₁ (fun x hx => by
      rw [hroot₁ x fun hd => DirTree.not_dirInside hf (hdone x hd) hx]
      obtain ⟨k, hk, hfk⟩ := hx
      exact h x k hk (hfk.under hf) (hfk.ne hf))
    obtain ⟨c₂, hc₂, hrest, hpr₂⟩ := items_pruned (hrun f) hl hf hun
    have hI₂ : Inv c₂ := by
      refine hI₁.pruned hrest hpr₁ hpr₂ (fun k => .inl) (fun x => .inl) ?_ ?_ ?_
      · rintro x k hx (hk | hk)
        · exact .inl hk
        · exact .inr (.inr ⟨k, hx, hk⟩)
      · rintro x k q hx hq (hC | hq')
        · exact .inl hC
        · exact .inr (.inr (hq'.child hx hq))
      · intro x hx hC
        exact hun.root (hx.resolve_left hC)
    have hleaf : ∀ x, c₂.getParentDir x ≠ some f := by
      intro x hx
      obtain ⟨k, -, hk⟩ := getParentDir_inode hx
      obtain ⟨hS, hk⟩ := hpr₂.parentDir_some hk
      exact hS (.inr ⟨k, hk, .refl k⟩)
    obtain ⟨c₃, hc₃, ht₃, hA₃, hI₃⟩ := removeLeaf_spec hI₂ hleaf
    have htree : (c₃.closeDirfrag f).tree = c₂.tree.close f := by rw [← ht₃]; rfl
    refine ⟨c₃.closeDirfrag f, bind_ok.mpr ⟨c₂, hc₂, bind_ok.mpr ⟨c₃, hc₃, rfl⟩⟩, hI₃, fun x hx => ?_, ?_⟩
    · rw [List.mem_append, List.mem_singleton, not_or] at hx
      rw [← hroot₁ x hx.1, ← isSubtreeRoot_of_tree hrest]
      simp [isSubtreeRoot, closeDirfrag, hA₃, hx.2]
    · rw [htree]
      refine (hpr₂.close f).congr (fun k => ?_) fun x => ?_
      · simp only [List.mem_append, List.mem_singleton, or_and_right, exists_or, exists_eq_left, or_assoc]
      · simp only [List.mem_append, List.mem_singleton, or_and_right, exists_or, exists_eq_left, or_assoc]
        rw [or_comm (a := x = f)]
  obtain ⟨c', hc', hI', -, hpr⟩ := foldlM_done step
    ⟨hI, fun x _ => rfl, (DirTree.Pruned.refl c.tree).congr (by simp) (by simp)⟩
  have hgone : ∀ x, (False ∨ ∃ g ∈ c.tree.dirfrags i, x = g ∨ c.tree.DirInside g x) ↔ c.tree.DirUnder i x := by
    intro x
    rw [DirTree.dirUnder_iff]
    simp only [c.tree.mem_dirfrags, and_or_left, exists_or, exists_eq_right', false_or]
  have hpr' := hpr.congr (fun _ => Iff.rfl) hgone
  have hI₄ : Inv (c'.removeInode i) := by
    refine hI'.pruned rfl hpr' (hpr'.unlink i) (fun k => .inl) (fun x => id) ?_ ?_ ?_
    · rintro x k hx (hk | rfl)
      · exact .inl hk
      · exact .inr ⟨k, hx, .refl k⟩
    · exact fun x k q _ _ hq => .inl hq
    · exact fun x hx hC => absurd hx hC
  have hnone : ∀ x, c.tree.DirUnder i x → (c'.removeInode i).isSubtreeRoot x = false := by
    intro x hx
    by_contra hr
    rw [Bool.not_eq_false] at hr
    have hc := hI₄.cached hr
    rw [show (c'.removeInode i).tree.inode x = none from hpr'.closed hx] at hc
    cases hc
  refine ⟨c'.removeInode i, bind_ok.mpr ⟨c', hc', rfl⟩, hI₄, fun x => ?_, fun {x} hx => ?_, fun {x r} hx hr => ?_⟩
  · show c'.tree.inode x = none ↔ _
    by_cases hx : c.tree.DirUnder i x
    · exact iff_of_true (hpr'.closed hx) (.inr hx)
    · rw [hpr'.inode hx, or_iff_left hx]
  · have hk := hI₄.key x
    rw [hnone x hx, Option.isSome_eq_false_iff, Option.isNone_iff_eq_none] at hk
    exact hk
  · have hs := ((hI₄.mem_bounds r x).mp hr).1
    rw [hnone x hx] at hs
    cases hs

/-! ## Nested roots -/

/-- The fragment `f`, of no other inode than `k`, is a bound of `r`. -/
structure Bounds (f : α) (k : ι) (r : α) (c : Cache ι α L) : Prop where
  mem : f ∈ c.bounds r
  inode {j : ι} : c.tree.inode f = some j → j = k

/-- The run keeps the bound, if it is unlinked before its own fragments are visited. -/
def Keeps (f : α) (k : ι) (r : α) (run : Cache ι α L → ι → Checked (Cache ι α L)) : Prop :=
  ∀ (j : ι) (c c' : Cache ι α L), run c j = .ok c' → Bounds f k r c → (j = k → c.tree.parentDir k = none) →
    Bounds f k r c' ∧ (c.tree.parentDir k = none → c'.tree.parentDir k = none)

theorem removeDirfrag_keeps (hrun : Keeps f k r run) (h : removeDirfrag inodes run c x = .ok c')
    (hb : Bounds f k r c) (hx : f = x → c.tree.parentDir k = none) :
    Bounds f k r c' ∧ (c.tree.parentDir k = none → c'.tree.parentDir k = none) := by
  obtain ⟨c₁, hc₁, h⟩ := bind_ok.mp h
  obtain ⟨c₂, hc₂, h⟩ := bind_ok.mp h
  have h₁ : Bounds f k r c₁ ∧ (c.tree.parentDir k = none → c₁.tree.parentDir k = none) := by
    refine foldlM_invariant
      (P := fun c₁ : Cache ι α L => Bounds f k r c₁ ∧ (c.tree.parentDir k = none → c₁.tree.parentDir k = none))
      ?_ ⟨hb, id⟩ hc₁
    intro c₁ tin c₂ _ ⟨hb₁, hp₁⟩ hc₂
    have hself : tin = k → (c₁.unlinkInode tin).tree.parentDir k = none := by
      rintro rfl
      exact Function.update_self ..
    have hstay : c₁.tree.parentDir k = none → (c₁.unlinkInode tin).tree.parentDir k = none := by
      intro hp
      by_cases ht : tin = k
      · exact hself ht
      · exact (Function.update_of_ne (Ne.symm ht) ..).trans hp
    obtain ⟨hb₂, hp₂⟩ := hrun tin (c₁.unlinkInode tin) c₂ hc₂ ⟨hb₁.mem, hb₁.inode⟩ hself
    exact ⟨hb₂, fun hp => hp₂ (hstay (hp₁ hp))⟩
  obtain ⟨hb₁, hp₁⟩ := h₁
  have h₂ : f ∈ c₂.bounds r ∧ c₂.tree = c₁.tree := by
    rcases ite_ok.mp hc₂ with ⟨-, hc₂⟩ | ⟨-, hc₂⟩
    · refine removeSubtree_keeps hc₂ hb₁.mem fun e => ?_
      rw [Option.eq_none_iff_forall_ne_some]
      intro q hq
      obtain ⟨j, hj, hq⟩ := getParentDir_inode hq
      obtain rfl := hb₁.inode (e ▸ hj)
      rw [hp₁ (hx e)] at hq
      cases hq
    · cases hc₂
      exact ⟨hb₁.mem, rfl⟩
  cases h
  refine ⟨⟨h₂.1, fun {j} hj => ?_⟩, fun hp => ?_⟩
  · by_cases hfx : f = x
    · rw [show (c₂.closeDirfrag x).tree.inode f = none by rw [hfx]; exact Function.update_self ..] at hj
      cases hj
    · rw [show (c₂.closeDirfrag x).tree.inode f = c₂.tree.inode f from Function.update_of_ne hfx .., h₂.2] at hj
      exact hb₁.inode hj
  · show c₂.tree.parentDir k = none
    rw [h₂.2]
    exact hp₁ hp

theorem removeLevels_keeps : ∀ n, Keeps f k r (removeLevels (L := L) inodes n) := by
  intro n
  induction n with
  | zero =>
    intro j c c' h
    cases h
  | succ n ih =>
    intro j c c' h hb hj
    obtain ⟨c₁, hc₁, h⟩ := bind_ok.mp h
    cases h
    have h₁ : Bounds f k r c₁ ∧ (c.tree.parentDir k = none → c₁.tree.parentDir k = none) := by
      refine foldlM_invariant
        (P := fun c₁ : Cache ι α L => Bounds f k r c₁ ∧ (c.tree.parentDir k = none → c₁.tree.parentDir k = none))
        ?_ ⟨hb, id⟩ hc₁
      intro c₁ x c₂ hx ⟨hb₁, hp₁⟩ hc₂
      obtain ⟨hb₂, hp₂⟩ := removeDirfrag_keeps ih hc₂ hb₁ fun e => by
        rw [c.tree.mem_dirfrags, ← e] at hx
        exact hp₁ (hj (hb.inode hx))
      exact ⟨hb₂, fun hp => hp₂ (hp₁ hp)⟩
    refine ⟨⟨h₁.1.mem, h₁.1.inode⟩, fun hp => ?_⟩
    by_cases hkj : k = j
    · rw [hkj]
      exact Function.update_self ..
    · exact (Function.update_of_ne hkj ..).trans (h₁.2 hp)

/-- A root that is nested below `i` is left behind as a bound. -/
theorem not_removed_of_nested (hI : Inv c) (hx : c.tree.inode x = some k) (hk : c.tree.Under i k) (hne : k ≠ i)
    (hroot : c.isSubtreeRoot x = true) (h : c.removeInodeRecursive inodes i = .ok c') : ¬ Removed c i c' := by
  intro hr
  obtain ⟨f, -, hf⟩ := (DirTree.under_iff.mp hk).resolve_left hne
  obtain ⟨k₀, hk₀, hu⟩ := hf
  have hparent : ∃ q, c.getParentDir x = some q := by
    obtain ⟨q, hq⟩ : ∃ q, c.tree.parentDir k = some q := by
      rcases above_cases hu with rfl | ⟨p, hp, -⟩
      · exact ⟨f, hk₀⟩
      · obtain ⟨q, hq, -⟩ := Option.bind_eq_some_iff.mp hp
        exact ⟨q, hq⟩
    exact ⟨q, Option.bind_eq_some_iff.mpr ⟨k, hx, hq⟩⟩
  obtain ⟨q, hq⟩ := hparent
  obtain ⟨r, habove⟩ := hI.rootAbove_isSome hroot hq
  have hb : Bounds x k r c := ⟨(hI.mem_bounds r x).mpr ⟨hroot, habove⟩, fun hj => Option.some.inj (hj.symm.trans hx)⟩
  obtain ⟨hb', -⟩ := removeLevels_keeps _ i c c' h hb fun e => absurd e.symm hne
  exact hr.bound ⟨k, hx, hk⟩ hb'.mem

/-- The removal succeeds and leaves the map clean if and only if no fragment
below those of the inode is a subtree root. -/
theorem removeInodeRecursive_clean_iff (hI : Inv c) (hl : Visits c.tree inodes) (i : ι) :
    (∃ c', c.removeInodeRecursive inodes i = .ok c' ∧ Removed c i c') ↔ c.NoNestedRoot i := by
  refine ⟨?_, fun h => removeInodeRecursive_removed hI hl h⟩
  rintro ⟨c', hrun, hr⟩ x k hx hk hne
  by_contra hroot
  exact not_removed_of_nested hI hx hk hne (by simpa using hroot) hrun hr

end Recursion

theorem chain_under : chain.Under 1 2 := .step rfl (.refl 1)

theorem chain_not_under : ¬ chain.Under 1 0 ∧ ¬ chain.Under 1 3 := by
  have htop : ¬ chain.Under 1 0 := fun h => absurd ((above_iff_of_root (by decide)).mp h) (by decide)
  have hp : chain.parentInode 3 = some 0 := by decide
  refine ⟨htop, fun h => ?_⟩
  rcases (above_iff_of_parent hp).mp h with h | h
  · exact absurd h (by decide)
  · exact htop h

theorem visits_chain : Visits chain [1, 2, 3] :=
  ⟨by decide, fun {k q} => by revert k q; decide⟩

/-- The inode of `first` is removed with `below`. -/
theorem removeInodeRecursive_clean_first :
    ∃ c', firstOnly.removeInodeRecursive [1, 2, 3] 1 = .ok c' ∧ Removed firstOnly 1 c' := by
  refine (removeInodeRecursive_clean_iff ⟨by decide, by decide, by decide, by decide, by decide⟩ visits_chain 1).mpr ?_
  intro x k hx hk hne
  have hxk : x = k := Option.some.inj hx
  subst hxk
  fin_cases x
  · exact absurd hk chain_not_under.1
  · exact absurd rfl hne
  · decide
  · exact absurd hk chain_not_under.2

/-- Rank 1 has `below`, which is in `first`. -/
def belowOnly : Cache (Fin 4) (Fin 4) ℤ := ((empty chain).delegateTo base 0).delegateTo below 1

/-- The inode of `first` is removed, and `below` stays a bound. -/
theorem not_removeInodeRecursive : Inv belowOnly ∧ Visits belowOnly.tree [1, 2, 3] ∧
    ¬ ∃ c', belowOnly.removeInodeRecursive [1, 2, 3] 1 = .ok c' ∧ Removed belowOnly 1 c' := by
  refine ⟨⟨by decide, by decide, by decide, by decide, by decide⟩, visits_chain, ?_⟩
  rintro ⟨c', hrun, hr⟩
  have hb : (belowOnly.removeInodeRecursive [1, 2, 3] 1).toOption.map (fun c => decide (below ∈ c.bounds base)) = some true := by
    decide +kernel
  rw [hrun, Except.toOption, Option.map_some, Option.some.injEq, decide_eq_true_eq] at hb
  exact hr.bound ⟨2, rfl, chain_under⟩ hb

end Cache

end CephMds
