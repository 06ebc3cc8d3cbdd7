import CephMds.Proof.Subtree.Rename
import Mathlib

/-!
# Every reachable subtree map follows the delegations

The subtree functions as steps (`Step`), a rename being a new parent for an
inode and then `adjustSubtreeAfterRename`, and export and authority flags
changing freely in between. From a cache without subtrees, every state that
the steps reach has the keys, pins and bounds that its `dirAuth` asks for
(`subtrees_of_reachable`).
-/

namespace CephMds

/-! ## Small trees -/

section Small

variable {n k : ℕ}

/-- A tree on `Fin n` in which a fragment is deeper than the one above it has
a smaller number. Inodes without a parent are base inodes, and inode 0 the root. -/
def DirTree.small [NeZero k] (inode : Fin n → Option (Fin k)) (parentDir : Fin k → Option (Fin n))
    (h : ∀ d i q, inode d = some i → parentDir i = some q → q < d) : DirTree (Fin k) (Fin n) where
  dirs := Finset.univ.filter fun d => (inode d).isSome
  inode := inode
  mem_dirs := by simp
  dirfrags i := (List.finRange n).filter fun d => inode d = some i
  mem_dirfrags := by simp
  nodup_dirfrags i := (List.nodup_finRange n).filter _
  parentDir := parentDir
  isBase i := (parentDir i).isNone
  isRoot i := (parentDir i).isNone && i == 0
  root_base h := (Bool.and_eq_true_iff.mp h).1
  base_parent := by simp
  depth := Fin.val
  depth_lt {d q i} hd hq := h d i q hd hq

end Small

/-- Nothing is delegated. -/
def Cache.empty {ι α L : Type} [Zero L] (t : DirTree ι α) : Cache ι α L where
  tree := t
  dirAuth _ := cdirAuthDefault
  subtrees _ := none
  pinSubtree _ := 0
  exportBound _ := false
  isAuth _ := false
  popAuthSubtree _ := 0
  projectedSubtreeRenames _ := []

/-- `CInode::authority` where no inode has an authority of its own: that of
the nearest root above, and undefined if there is none. -/
def InodeAuthority.nearest (ι α : Type) : InodeAuthority ι α where
  authority t a i := (((t.parentDir i).bind (t.forest.nearest (a · != cdirAuthDefault))).map a).getD
    cdirAuthUndef
  ne_default {t a i} := by
    cases h : (t.parentDir i).bind (t.forest.nearest (a · != cdirAuthDefault)) with
    | none =>
      change cdirAuthUndef ≠ cdirAuthDefault
      decide
    | some r =>
      obtain ⟨q, -, hr⟩ := Option.bind_eq_some_iff.mp h
      simpa using t.forest.nearest_marked hr
  of_parent {t a i q} h := by
    rw [h, Option.bind_some, t.forest.nearest_eq]
    split
    · rename_i hq
      rw [if_neg (by simpa using hq)]; rfl
    · rename_i hq
      rw [if_pos (by simpa using hq)]
      simp only [Forest.above, DirTree.forest]
      cases t.inode q with
      | none => rfl
      | some j => rfl
  of_top h h' := by
    simp only [h, h', Option.bind_none]
    rfl

namespace Cache

variable {ι α L : Type} [DecidableEq ι] [LinearOrder α] [AddCommGroup L]

/-- One call of a subtree function that returns, or a change of what the other
parts of the server decide. Nobody delegates to the default authority. -/
inductive Step (I : InodeAuthority ι α) : Cache ι α L → Cache ι α L → Prop
  | adjustSubtreeAuth {c c' : Cache ι α L} {d : α} {a : Auth} : a ≠ cdirAuthDefault →
      c.adjustSubtreeAuth d a = .ok c' → Step I c c'
  | trySubtreeMergeAt {c c' : Cache ι α L} {d : α} : c.trySubtreeMergeAt d = .ok c' → Step I c c'
  | trySubtreeMerge {c c' : Cache ι α L} {d : α} : c.trySubtreeMerge d = .ok c' → Step I c c'
  | adjustBoundedSubtreeAuth {c c' : Cache ι α L} {d : α} {bounds : Finset α} {a : Auth} :
      a ≠ cdirAuthDefault → c.adjustBoundedSubtreeAuth I d bounds a = .ok c' → Step I c c'
  | rename {c c' : Cache ι α L} {t' : DirTree ι α} {i : ι} {o n : α} {pop : Bool} :
      Reparented c.tree t' i o n →
      adjustSubtreeAfterRename I { c with tree := t' } i o pop = .ok c' → Step I c c'
  | projectSubtreeRename {c : Cache ι α L} {i : ι} {o n : α} : Step I c (c.projectSubtreeRename i o n)
  | flags {c : Cache ι α L} {exportBound isAuth : α → Bool} {pop : α → L} :
      Step I c { c with exportBound := exportBound, isAuth := isAuth, popAuthSubtree := pop }

variable {I : InodeAuthority ι α} {c c' : Cache ι α L}

theorem Inv.step (hI : Inv c) (h : Step I c c') : Inv c' := by
  cases h with
  | adjustSubtreeAuth ha h => exact (adjustSubtreeAuth_stays hI ha h).inv
  | trySubtreeMergeAt h => exact (trySubtreeMergeAt_stays hI h).inv
  | trySubtreeMerge h => exact (trySubtreeMerge_stays hI h).inv
  | adjustBoundedSubtreeAuth ha h => exact (adjustBoundedSubtreeAuth_stays hI ha h).inv
  | rename hR h => exact (adjustSubtreeAfterRename_spec hI hR h).1
  | projectSubtreeRename => exact ⟨hI.key, hI.pin, hI.mem_bounds, hI.rooted, hI.cached⟩
  | flags => exact ⟨hI.key, hI.pin, hI.mem_bounds, hI.rooted, hI.cached⟩

omit [DecidableEq ι] [LinearOrder α] [AddCommGroup L] in
theorem inv_empty [Zero L] (t : DirTree ι α) : Inv (empty t : Cache ι α L) := by
  refine ⟨fun _ => rfl, fun _ => rfl, fun r s => ?_, fun h => ?_, fun h => ?_⟩
  · simp [bounds, empty, isSubtreeRoot]
  · cases h
  · cases h

theorem inv_of_reachable {t : DirTree ι α} (h : Relation.ReflTransGen (Step I) (empty t) c) :
    Inv c := by
  induction h with
  | refl => exact inv_empty t
  | tail _ hs ih => exact ih.step hs

/-- In every reachable state the keys of `subtrees` are the fragments with a
`dir_auth` of their own, each holds one `PIN_SUBTREE`, the bounds of a key `r`
are the other keys whose parent resolves to `r`, and no bound has two owners. -/
theorem subtrees_of_reachable {t : DirTree ι α}
    (h : Relation.ReflTransGen (Step I) (empty t) c) :
    (∀ d, (c.subtrees d).isSome ↔ c.dirAuth d ≠ cdirAuthDefault) ∧
    (∀ d, (c.subtrees d).isSome → c.pinSubtree d = 1) ∧
    (∀ r b, c.subtrees r = some b → ∀ s, s ∈ b ↔ (c.subtrees s).isSome ∧ s ≠ r ∧
      ∃ p, c.getParentDir s = some p ∧ c.getSubtreeRoot p = some r) ∧
    ∀ s r r' b b', c.subtrees r = some b → s ∈ b → c.subtrees r' = some b' → s ∈ b' → r = r' := by
  have hI := inv_of_reachable h
  have hb : ∀ r b, c.subtrees r = some b → ∀ s, s ∈ b ↔ (c.subtrees s).isSome ∧ s ≠ r ∧
      ∃ p, c.getParentDir s = some p ∧ c.getSubtreeRoot p = some r := by
    intro r b hr s
    have hs := hI.mem_bounds r s
    rw [bounds, hr, Option.getD_some] at hs
    rw [hs, hI.key, ← rootAbove_eq_some]
    refine and_congr_right fun _ => ⟨fun h => ⟨?_, h⟩, And.right⟩
    exact (c.tree.forest.above_ne h).symm
  refine ⟨fun d => ?_, fun d hd => ?_, hb, fun s r r' b b' hr hs hr' hs' => ?_⟩
  · rw [hI.key, isSubtreeRoot_iff]
  · rw [hI.pin, ← hI.key, if_pos hd]
  · obtain ⟨-, -, p, hp, hpr⟩ := (hb r b hr s).mp hs
    obtain ⟨-, -, p', hp', hpr'⟩ := (hb r' b' hr' s).mp hs'
    obtain rfl : p = p' := Option.some.inj (hp.symm.trans hp')
    exact Option.some.inj (hpr.symm.trans hpr')

/-- The fragments of a small tree: a base fragment with two below it, the
first of which has one below. -/
def base : Fin 4 := 0
def first : Fin 4 := 1
def below : Fin 4 := 2
def second : Fin 4 := 3

def chain : DirTree (Fin 4) (Fin 4) :=
  .small some ![none, some 0, some 1, some 0] (by decide)

/-- The same with `below` in `second`. -/
def chainMoved : DirTree (Fin 4) (Fin 4) :=
  { chain with
    parentDir := ![none, some 0, some 3, some 0]
    base_parent := by decide
    depth := ![0, 1, 2, 1]
    depth_lt := by decide }

/-- `d` is delegated to `rank`. -/
def delegateTo {n k : ℕ} (c : Cache (Fin k) (Fin n) ℤ) (d : Fin n) (rank : ℤ) :
    Cache (Fin k) (Fin n) ℤ :=
  (c.adjustSubtreeAuth d ⟨rank, cdirAuthUnknown⟩).get c

/-- Rank 0 delegates `first` to rank 1, which delegates `below` back. -/
def delegated : Cache (Fin 4) (Fin 4) ℤ :=
  (((empty chain).delegateTo base 0).delegateTo first 1).delegateTo below 0

/-- The same before rank 1 delegates anything. -/
def firstOnly : Cache (Fin 4) (Fin 4) ℤ := ((empty chain).delegateTo base 0).delegateTo first 1

/-- Then `below` is moved out of the subtree of rank 1. -/
def renamed : Cache (Fin 4) (Fin 4) ℤ :=
  (adjustSubtreeAfterRename (.nearest _ _) { delegated with tree := chainMoved } 2 1 false).get
    delegated

theorem reachable_renamed : Relation.ReflTransGen (Step (.nearest _ _)) (empty chain) renamed := by
  have step : ∀ {c : Cache (Fin 4) (Fin 4) ℤ} {d : Fin 4} {n : ℤ}, 0 ≤ n →
      (c.adjustSubtreeAuth d ⟨n, cdirAuthUnknown⟩).isOk = true →
      Step (.nearest _ _) c (c.delegateTo d n) := fun {c d n} hn h =>
    .adjustSubtreeAuth (by simp [cdirAuthDefault, cdirAuthParent]; omega) (Checked.eq_get h)
  have h₁ := Relation.ReflTransGen.single (step (c := empty chain) (d := 0) (n := 0) le_rfl rfl)
  have h₂ := h₁.tail (step (d := 1) (n := 1) zero_le_one rfl)
  have h₃ := h₂.tail (step (d := 2) (n := 0) le_rfl rfl)
  have hR : Reparented delegated.tree chainMoved 2 1 3 := ⟨rfl, rfl, rfl, rfl, by decide⟩
  have hr : adjustSubtreeAfterRename (.nearest _ _) { delegated with tree := chainMoved } 2 1 false =
      .ok renamed := Checked.eq_get rfl
  exact h₃.tail (.rename hR hr)

theorem subtrees_of_reachable_renamed :
    (∀ d, (renamed.subtrees d).isSome ↔ renamed.dirAuth d ≠ cdirAuthDefault) ∧
      renamed.subtrees 0 = some {1} ∧ renamed.subtrees 1 = some ∅ ∧ renamed.subtrees 2 = none :=
  ⟨(subtrees_of_reachable reachable_renamed).1, by decide⟩

end Cache

end CephMds
