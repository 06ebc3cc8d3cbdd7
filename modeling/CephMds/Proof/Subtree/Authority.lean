import CephMds.Proof.Subtree.Claim
import CephMds.Proof.Subtree.Reachable

/-!
# Which authorities the subtree functions change

`CDir::authority` of a fragment is that of the root it is below, and that of
the inode at the top of its tree where there is no such root. So it is the same
in two states that agree on the authority at the root (`authority_congr`):
`adjustSubtreeAuth` changes it for the region of its fragment alone, and the
merges and `adjustSubtreeAfterRename` for no fragment (`authority_frame`).
-/

namespace CephMds.Cache

open Checked

variable {ι α L : Type} {c c' : Cache ι α L} {I : InodeAuthority ι α} {a : Auth} {d o n x : α} {i : ι}
  {t' : DirTree ι α}

/-! ## Authorities by roots -/

theorem rootAuth_none : c.rootAuth x = none ↔ c.getSubtreeRoot x = none := Option.map_eq_none_iff

/-- Below no root, a fragment and its inode are the same in `c'`. -/
structure SameRootless (c c' : Cache ι α L) : Prop where
  inode {x : α} : c.getSubtreeRoot x = none → c'.tree.inode x = c.tree.inode x
  parentDir {x : α} {i : ι} : c.getSubtreeRoot x = none → c.tree.inode x = some i →
    c'.tree.parentDir i = c.tree.parentDir i

theorem SameRootless.of_tree (h : c'.tree = c.tree) : SameRootless c c' :=
  ⟨fun _ => by rw [h], fun _ _ => by rw [h]⟩

theorem getSubtreeRoot_none : c.getSubtreeRoot x = none ↔
    c.isSubtreeRoot x = false ∧ ∀ q, c.getParentDir x = some q → c.getSubtreeRoot q = none :=
  c.tree.forest.nearest_eq_none

/-- The authority of a fragment that is below no root is that of the inode at the top. -/
theorem authority_rootless (h : SameRootless c c') (hx : c.getSubtreeRoot x = none)
    (hx' : c'.getSubtreeRoot x = none) : c'.authority I x = c.authority I x := by
  induction x using c.tree.forest.downward with
  | h x ih =>
    obtain ⟨hr, hup⟩ := getSubtreeRoot_none.mp hx
    obtain ⟨hr', hup'⟩ := getSubtreeRoot_none.mp hx'
    have hin := h.inode hx
    cases hi : c.tree.inode x with
    | none =>
      rw [hi] at hin
      simp only [authority, hr, hr', hi, hin, Bool.false_eq_true, if_false]
    | some i =>
      have hpar := h.parentDir hx hi
      rw [hi] at hin
      cases hq : c.tree.parentDir i with
      | none =>
        rw [hq] at hpar
        simp only [authority, hr, hr', hi, hin, Bool.false_eq_true, if_false]
        exact I.of_top hpar hq
      | some q =>
        rw [hq] at hpar
        have hp : c.getParentDir x = some q := Option.bind_eq_some_iff.mpr ⟨i, hi, hq⟩
        have hp' : c'.getParentDir x = some q := Option.bind_eq_some_iff.mpr ⟨i, hin, hpar⟩
        rw [authority_of_parent hr hp, authority_of_parent hr' hp']
        exact ih q hp (hup q hp) (hup' q hp')

/-- States with the same authority at the root above `x`. -/
theorem authority_congr (h : SameRootless c c') (hx : c'.rootAuth x = c.rootAuth x) :
    c'.authority I x = c.authority I x := by
  cases hr : c.rootAuth x with
  | none =>
    rw [hr] at hx
    exact authority_rootless h (rootAuth_none.mp hr) (rootAuth_none.mp hx)
  | some a =>
    rw [hr] at hx
    rw [authority_of_rootAuth hr, authority_of_rootAuth hx]

/-- An inode that moves between fragments of subtrees. -/
theorem SameRootless.of_reparented (hR : Reparented c.tree t' i o n) (ht : c'.tree = t')
    (ho : (c.getSubtreeRoot o).isSome = true) : SameRootless c c' := by
  refine ⟨fun _ => by rw [ht, hR.inode], fun {x j} hx hj => ?_⟩
  rw [ht]
  refine hR.other ?_
  rintro rfl
  have hup := (getSubtreeRoot_none.mp hx).2 o (hR.parent_frag x hj).1
  rw [hup] at ho
  cases ho

/-! ## The functions -/

variable [LinearOrder α] [AddCommGroup L]

theorem adjustSubtreeAuth_authority (hI : Inv c) (ha : a ≠ cdirAuthDefault) (h : c.adjustSubtreeAuth d a = .ok c')
    (x : α) : c'.authority I x = if c'.getSubtreeRoot x = some d then a else c.authority I x := by
  obtain ⟨-, hA, hF⟩ := adjustSubtreeAuth_spec hI ha h
  have hm := isSubtreeRoot_setDirAuth ha hA
  split
  · rename_i hx
    refine authority_of_rootAuth ?_
    rw [rootAuth, hx, Option.map_some, hA, Function.update_self]
  · rename_i hx
    have hroot : c'.getSubtreeRoot x = c.getSubtreeRoot x := by
      cases hd : c.isSubtreeRoot d with
      | true =>
        rw [← hd, Function.update_eq_self] at hm
        rw [getSubtreeRoot, getSubtreeRoot, hF.tree, hm]
      | false => exact (getSubtreeRoot_mark hF.tree hm hd x).resolve_right fun h => hx h.1
    refine authority_congr (.of_tree hF.tree) ?_
    rw [rootAuth, rootAuth, hroot]
    refine Option.map_congr fun r hr => ?_
    have hrd : r ≠ d := by
      rintro rfl
      exact hx (hroot.trans hr)
    rw [hA, Function.update_of_ne hrd]

theorem trySubtreeMergeAt_authority (hI : Inv c) (hd : c.isSubtreeRoot d = true) (hl : Linked c.tree d) :
    ∃ c', c.trySubtreeMergeAt d = .ok c' ∧ ∀ x, c'.authority I x = c.authority I x := by
  obtain ⟨c', h⟩ := trySubtreeMergeAt_linked hI hd hl
  have hS := trySubtreeMergeAt_stays hI h
  exact ⟨c', h, fun x => authority_congr (.of_tree hS.frame.tree) (trySubtreeMergeAt_rootAuth hI h x)⟩

theorem trySubtreeMerge_authority (hI : Inv c) (hd : c.isSubtreeRoot d = true) (hl : Linked c.tree d) :
    ∃ c', c.trySubtreeMerge d = .ok c' ∧ ∀ x, c'.authority I x = c.authority I x := by
  obtain ⟨c', h, hS, hA⟩ := trySubtreeMerge_rootAuth hI hd hl
  exact ⟨c', h, fun x => authority_congr (.of_tree hS.frame.tree) (hA x)⟩

theorem adjustSubtreeAfterRename_authority [DecidableEq ι] (pop : Bool) (hI : Inv c)
    (hR : Reparented c.tree t' i o n) (ho : (c.getSubtreeRoot o).isSome = true)
    (hn : (c.getSubtreeRoot n).isSome = true)
    (hpop : pop = true → (c.projectedSubtreeRenames i).head? = some (o, n)) :
    ∃ c', adjustSubtreeAfterRename I { c with tree := t' } i o pop = .ok c' ∧
      ∀ x, c'.authority I x = c.authority I x := by
  obtain ⟨c', h⟩ := adjustSubtreeAfterRename_returns (I := I) pop hI hR hpop ho hn
  obtain ⟨-, ht, -, hA⟩ := adjustSubtreeAfterRename_spec hI hR h
  exact ⟨c', h, fun x => authority_congr (.of_reparented hR ht ho) (hA x)⟩

/-- The subtree functions change the authority of what they delegate, and of nothing else. -/
theorem authority_frame [DecidableEq ι] (hI : Inv c) :
    (∀ d a, a ≠ cdirAuthDefault → Delegable c.tree.isBase c d → ∃ c', c.adjustSubtreeAuth d a = .ok c' ∧
      ∀ x, c'.authority I x = if c'.getSubtreeRoot x = some d then a else c.authority I x) ∧
    (∀ d, c.isSubtreeRoot d = true → Linked c.tree d →
      ∃ c', c.trySubtreeMergeAt d = .ok c' ∧ ∀ x, c'.authority I x = c.authority I x) ∧
    (∀ d, c.isSubtreeRoot d = true → Linked c.tree d →
      ∃ c', c.trySubtreeMerge d = .ok c' ∧ ∀ x, c'.authority I x = c.authority I x) ∧
    ∀ (t' : DirTree ι α) i o n pop, Reparented c.tree t' i o n → (c.getSubtreeRoot o).isSome = true →
      (c.getSubtreeRoot n).isSome = true → (pop = true → (c.projectedSubtreeRenames i).head? = some (o, n)) →
      ∃ c', adjustSubtreeAfterRename I { c with tree := t' } i o pop = .ok c' ∧
        ∀ x, c'.authority I x = c.authority I x := by
  refine ⟨fun d a ha hd => ?_, fun d => trySubtreeMergeAt_authority hI, fun d => trySubtreeMerge_authority hI,
    fun t' i o n pop => adjustSubtreeAfterRename_authority pop hI⟩
  obtain ⟨c', h⟩ := adjustSubtreeAuth_delegable hI hd
  exact ⟨c', h, adjustSubtreeAuth_authority hI ha h⟩

/-- Rank 0 has delegated `first` to rank 1, which delegates `below` back: `second` is delegated, `first` merged,
and `below` moved to `second`. -/
theorem authority_frame_delegated :
    (∃ c', delegated.adjustSubtreeAuth second ⟨2, cdirAuthUnknown⟩ = .ok c' ∧ ∀ x, c'.authority (.nearest _ _) x =
      if c'.getSubtreeRoot x = some second then ⟨2, cdirAuthUnknown⟩ else delegated.authority (.nearest _ _) x) ∧
    (∃ c', delegated.trySubtreeMergeAt first = .ok c' ∧
      ∀ x, c'.authority (.nearest _ _) x = delegated.authority (.nearest _ _) x) ∧
    (∃ c', delegated.trySubtreeMerge first = .ok c' ∧
      ∀ x, c'.authority (.nearest _ _) x = delegated.authority (.nearest _ _) x) ∧
    ∃ c', adjustSubtreeAfterRename (.nearest _ _) { delegated with tree := chainMoved } 2 first false = .ok c' ∧
      ∀ x, c'.authority (.nearest _ _) x = delegated.authority (.nearest _ _) x := by
  have hI : Inv delegated := ⟨by decide, by decide, by decide, by decide, by decide⟩
  have hl : Linked delegated.tree first := ⟨1, rfl, .inr rfl⟩
  have hR : Reparented delegated.tree chainMoved 2 first second := ⟨rfl, rfl, rfl, rfl, by decide⟩
  obtain ⟨h₁, h₂, h₃, h₄⟩ := authority_frame (I := .nearest _ _) hI
  exact ⟨h₁ second _ (by decide) ⟨3, rfl, .inr (by decide)⟩, h₂ first (by decide) hl, h₃ first (by decide) hl,
    h₄ chainMoved 2 first second false hR (by decide) (by decide) (by decide)⟩

end CephMds.Cache
