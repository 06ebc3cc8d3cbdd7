import CephMds.Model.SlaveRename
import CephMds.Proof.Subtree.Effects
import CephMds.Proof.Subtree.Reachable

/-!
# What a slave journals of a rename, and of its rollback

A rename that is admitted (`Admitted`) is prepared, applied and rolled back on
a slave. The metablob of the prepare is empty unless one of the reasons to
journal holds (`empty_renamePrepare`), and so is that of the rollback
(`empty_rollbackBlob`). The reasons are the same before and after the rename,
but for one: the prepare journals the stray dentry where this rank owns a
fragment of the overwritten directory, while the rollback looks for such a
fragment below the source directory. `journalsAlike_iff` is the condition under
which this does not matter.
-/

namespace CephMds.SlaveRename

open Checked Cache

variable {ι α δ L B : Type} [LinearOrder α] [DecidableEq ι] [DecidableEq δ] {I : InodeAuthority ι α} {w : ℤ}
  {s s' : Slave ι α δ L} {r : Rename δ} {M : MetaBlob ι α δ B} {t t' p p' : DirTree ι α} {i : ι} {d x : α}

/-! ## The trees -/

/-- The fragment is not below the inode. -/
def Outside (t : DirTree ι α) (i : ι) (d : α) : Prop := t.forest.nearest (fun x => t.inode x = some i) d = none

omit [LinearOrder α] in
theorem outside_of_parent (h : t.parentDir i = some d) : Outside t i d := by
  refine Option.eq_none_iff_forall_ne_some.mpr fun x hx => ?_
  have hi := of_decide_eq_true (t.forest.nearest_marked hx)
  have hp : t.forest.parent x = some d := by simp [DirTree.forest, hi, h]
  have h₁ := t.forest.depth_lt hp
  have h₂ := t.forest.nearest_depth hx
  omega

omit [LinearOrder α] in
/-- Nothing is below an inode without dentries but its fragments. -/
theorem outside_of_empty (h : ∀ j x, t.parentDir j = some x → t.inode x ≠ some i) (hd : t.inode d ≠ some i) :
    Outside t i d := by
  induction d using t.forest.downward with
  | _ d ih =>
    refine t.forest.nearest_eq_none.mpr ⟨decide_eq_false hd, fun q hq => ih q hq ?_⟩
    obtain ⟨j, -, hj⟩ := Option.bind_eq_some_iff.mp hq
    exact h j q hj

namespace Slave

/-- Is the fragment one of an inode that the rename moves? -/
def movedFrag (s : Slave ι α δ L) (r : Rename δ) (t : DirTree ι α) (x : α) : Bool :=
  (t.inode x).any fun i => (s.srcdnl r).ino = some i || (s.destdnl r).ino = some i

/-- The fragment is not below an inode that the rename moves. -/
def Away (s : Slave ι α δ L) (r : Rename δ) (t : DirTree ι α) (d : α) : Prop :=
  t.forest.nearest (s.movedFrag r t) d = none

omit [LinearOrder α] [DecidableEq δ] in
theorem movedFrag_eq_false : s.movedFrag r t x = false ↔
    ∀ i, t.inode x = some i → (s.srcdnl r).ino ≠ some i ∧ (s.destdnl r).ino ≠ some i := by
  unfold movedFrag
  cases t.inode x <;> simp

omit [LinearOrder α] [DecidableEq δ] in
theorem away_of_outside (h : ∀ i, (s.srcdnl r).ino = some i → Outside t i d)
    (h' : ∀ i, (s.destdnl r).ino = some i → Outside t i d) : s.Away r t d := by
  induction d using t.forest.downward with
  | _ d ih =>
    refine t.forest.nearest_eq_none.mpr ⟨movedFrag_eq_false.mpr fun i hi => ⟨fun hs => ?_, fun hs => ?_⟩, fun q hq => ?_⟩
    · exact absurd hi (of_decide_eq_false (t.forest.nearest_eq_none.mp (h i hs)).1)
    · exact absurd hi (of_decide_eq_false (t.forest.nearest_eq_none.mp (h' i hs)).1)
    · exact ih q hq (fun i hs => (t.forest.nearest_eq_none.mp (h i hs)).2 q hq)
        (fun i hs => (t.forest.nearest_eq_none.mp (h' i hs)).2 q hq)

/-- The tree has the inodes where the dentries are, the overwritten directory
is empty, and the destination and the stray directory are not below what moves. -/
structure Clear (s : Slave ι α δ L) (r : Rename δ) (t : DirTree ι α) : Prop where
  src {i : ι} : (s.srcdnl r).ino = some i → t.parentDir i = some (s.dir r.srcdn)
  dest {i : ι} : (s.destdnl r).ino = some i → t.parentDir i = some (s.dir r.destdn)
  empty {i j : ι} {d : α} : (s.destdnl r).ino = some i → t.parentDir j = some d → t.inode d ≠ some i
  srcdn {i : ι} : (s.destdnl r).ino = some i → t.inode (s.dir r.srcdn) ≠ some i
  dest_out {i : ι} : (s.srcdnl r).ino = some i → Outside t i (s.dir r.destdn)
  stray_out {i : ι} {dn : δ} : r.straydn = some dn → (s.srcdnl r).ino = some i ∨ (s.destdnl r).ino = some i →
    Outside t i (s.dir dn)

/-- The tree after the rename. -/
structure After (s : Slave ι α δ L) (r : Rename δ) (t t' : DirTree ι α) : Prop where
  inode : t'.inode = t.inode
  dirfrags : t'.dirfrags = t.dirfrags
  src {i : ι} : (s.srcdnl r).ino = some i → t'.parentDir i = some (s.dir r.destdn)
  dest {i : ι} : (s.destdnl r).ino = some i →
    t'.parentDir i = if s.mergesRemote r then t.parentDir i else r.straydn.map s.dir
  other {i : ι} : (s.srcdnl r).ino ≠ some i → (s.destdnl r).ino ≠ some i → t'.parentDir i = t.parentDir i

section Trees

variable (hc : s.Clear r t) (ha : s.After r t t')
include hc

omit [LinearOrder α] [DecidableEq δ] in
theorem Clear.away_src : s.Away r t (s.dir r.srcdn) :=
  away_of_outside (fun _ h => outside_of_parent (hc.src h))
    fun _ h => outside_of_empty (fun _ _ hj => hc.empty h hj) (hc.srcdn h)

omit [LinearOrder α] [DecidableEq δ] in
theorem Clear.away_dest : s.Away r t (s.dir r.destdn) :=
  away_of_outside (fun _ h => hc.dest_out h) fun _ h => outside_of_parent (hc.dest h)

omit [LinearOrder α] [DecidableEq δ] in
theorem Clear.away_stray {dn : δ} (hdn : r.straydn = some dn) : s.Away r t (s.dir dn) :=
  away_of_outside (fun _ h => hc.stray_out hdn (.inl h)) fun _ h => hc.stray_out hdn (.inr h)

omit hc
include ha

omit [LinearOrder α] [DecidableEq δ] in
theorem After.movedFrag : s.movedFrag r t' = s.movedFrag r t := by
  funext x
  simp only [Slave.movedFrag, ha.inode]

omit [LinearOrder α] [DecidableEq δ] in
theorem After.parentDir (hx : s.movedFrag r t x = false) (hi : t.inode x = some i) :
    t'.parentDir i = t.parentDir i :=
  ha.other (movedFrag_eq_false.mp hx i hi).1 (movedFrag_eq_false.mp hx i hi).2

omit [LinearOrder α] [DecidableEq δ] in
theorem After.parent (hx : s.movedFrag r t x = false) : t'.forest.parent x = t.forest.parent x := by
  simp only [DirTree.forest, ha.inode]
  cases hi : t.inode x with
  | none => rfl
  | some i => simpa using ha.parentDir hx hi

omit [LinearOrder α] [DecidableEq δ] in
theorem After.away (h : s.Away r t d) : s.Away r t' d := by
  rw [Away, ha.movedFrag]
  exact (t.forest.nearest_avoids (fun x hx => ha.parent hx) (fun _ _ => rfl) h).trans h

omit [LinearOrder α] [DecidableEq δ] in
theorem After.dirs : t'.dirs = t.dirs := by
  ext d
  rw [t'.mem_dirs, t.mem_dirs, ha.inode]

end Trees

omit [DecidableEq δ] in
/-- A fragment of the source directory contains the same fragments after the rename. -/
theorem contains_after (hc : s.Clear r s.projected) (ha : s.After r s.projected p') (hs : s'.projected = p')
    (hi : (s.srcdnl r).ino = some i) (hd : s.projected.inode d = some i) (x : α) :
    s'.contains d x = s.contains d x := by
  have hmoved : s.movedFrag r s.projected d = true := by
    rw [← Bool.not_eq_false, movedFrag_eq_false]
    intro h
    exact (h i hd).1 hi
  have hnone : ∀ q, s.Away r s.projected q →
      s.projected.forest.nearest (fun y => y = d) q = none ∧ p'.forest.nearest (fun y => y = d) q = none := by
    intro q hq
    have h : s.projected.forest.nearest (fun y => y = d) q = none := by
      refine Option.eq_none_iff_forall_ne_some.mpr fun y hy => ?_
      have h₁ := s.projected.forest.not_of_avoids hq hy
      rw [of_decide_eq_true (s.projected.forest.nearest_marked hy), hmoved] at h₁
      cases h₁
    exact ⟨h, (s.projected.forest.nearest_avoids (fun x hx => ha.parent hx) (fun _ _ => rfl) hq).trans h⟩
  rw [contains, contains, hs]
  induction x using s.projected.forest.downward with
  | _ x ih =>
    rw [Forest.nearest_eq, Forest.nearest_eq]
    by_cases hx : x = d
    · simp [hx]
    simp only [hx, decide_false, Bool.false_eq_true, if_false, Forest.above]
    cases hm : s.movedFrag r s.projected x with
    | false =>
      rw [ha.parent hm]
      cases hq : s.projected.forest.parent x with
      | none => rfl
      | some q => exact ih q hq
    | true =>
      -- another fragment that moves: neither its old nor its new parent is below `d`
      obtain ⟨j, hj, hor⟩ : ∃ j, s.projected.inode x = some j ∧
          ((s.srcdnl r).ino = some j ∨ (s.destdnl r).ino = some j) := by
        rw [← Bool.not_eq_false, movedFrag_eq_false] at hm
        push Not at hm
        obtain ⟨j, hj, hm⟩ := hm
        exact ⟨j, hj, or_iff_not_imp_left.mpr hm⟩
      have hp : s.projected.forest.parent x = s.projected.parentDir j := by simp [DirTree.forest, hj]
      have hp' : p'.forest.parent x = p'.parentDir j := by simp [DirTree.forest, ha.inode, hj]
      rw [hp, hp']
      rcases hor with hsrc | hdest
      · rw [hc.src hsrc, ha.src hsrc]
        simp only [Option.bind_some, (hnone _ hc.away_src).1, (hnone _ hc.away_dest).2]
      · rw [hc.dest hdest, ha.dest hdest]
        split
        · rw [hc.dest hdest]
          simp only [Option.bind_some, (hnone _ hc.away_dest).1, (hnone _ hc.away_dest).2]
        · cases hst : r.straydn with
          | none => simp [(hnone _ hc.away_dest).1]
          | some dn => simp [(hnone _ hc.away_dest).1, (hnone _ (hc.away_stray hst)).2]

/-! ## The apply -/

omit [LinearOrder α] [DecidableEq ι] [DecidableEq δ] in
theorem inode_eq (l : Linkage ι) : (l.ino <|> l.remoteIno) = l.inode := by
  cases l <;> rfl

omit [LinearOrder α] [DecidableEq ι] [DecidableEq δ] in
theorem ino_inode {l : Linkage ι} (h : l.ino = some i) : l = .primary i ∧ l.inode = some i := by
  cases l <;> cases h
  exact ⟨rfl, rfl⟩

section Relink

omit [LinearOrder α]

/-- Only linkages change. -/
theorem relink_frame : ∃ l p, s.relink r = { s with linkage := l, parentDn := p } := by
  unfold relink
  cases r.straydn <;> cases s.mergesRemote r <;> exact ⟨_, _, rfl⟩

theorem relink_dir : (s.relink r).dir = s.dir := by
  obtain ⟨l, p, hr⟩ := relink_frame (s := s) (r := r)
  rw [hr]

theorem relink_isDir : (s.relink r).isDir = s.isDir := by
  obtain ⟨l, p, hr⟩ := relink_frame (s := s) (r := r)
  rw [hr]

theorem relink_isStray : (s.relink r).isStray = s.isStray := by
  obtain ⟨l, p, hr⟩ := relink_frame (s := s) (r := r)
  rw [hr]

theorem relink_hasDentry : (s.relink r).hasDentry = s.hasDentry := by
  obtain ⟨l, p, hr⟩ := relink_frame (s := s) (r := r)
  rw [hr]

theorem relink_hasInode : (s.relink r).hasInode = s.hasInode := by
  obtain ⟨l, p, hr⟩ := relink_frame (s := s) (r := r)
  rw [hr]

/-- The source dentry is unlinked last. -/
theorem relink_srcdn : (s.relink r).linkage r.srcdn = .null := by
  unfold relink setLinkage
  simp

theorem relink_straydn {dn : δ} (h : r.straydn = some dn) (h₁ : dn ≠ r.srcdn) (h₂ : dn ≠ r.destdn) :
    (s.relink r).linkage dn = s.destdnl r := by
  cases hm : s.mergesRemote r <;> simp [relink, setLinkage, h, h₁, h₂, hm]

theorem setLinkage_parentDn {dn : δ} {l : Linkage ι} (h : (s.parentDn i).isSome) :
    ((s.setLinkage dn l).parentDn i).isSome := by
  cases l with
  | primary j =>
    by_cases hj : i = j
    · simp [setLinkage, Linkage.ino, hj]
    · simpa [setLinkage, Linkage.ino, hj] using h
  | remote j => exact h
  | null => exact h

theorem relink_parentDn (h : (s.parentDn i).isSome) : ((s.relink r).parentDn i).isSome := by
  have hst : ((r.straydn.elim s fun straydn => s.setLinkage straydn (s.destdnl r)).parentDn i).isSome := by
    cases r.straydn with
    | none => exact h
    | some dn => exact setLinkage_parentDn h
  unfold relink
  apply setLinkage_parentDn
  cases s.mergesRemote r with
  | true => exact hst
  | false => exact setLinkage_parentDn hst

end Relink

/-- What the apply leaves of the cache: only the fragments of moved inodes are
changed, and given `q` they go from and to other ranks. -/
structure Applied (q : Prop) (w : ℤ) (s : Slave ι α δ L) (r : Rename δ) (t' p' : DirTree ι α) (s' : Slave ι α δ L) :
    Prop where
  rest : s' = { s.relink r with cache := s'.cache, projected := p' }
  tree : s'.cache.tree = t'
  keyed : s'.cache.Keyed
  other : ∀ x, s.movedFrag r s.cache.tree x = false → s'.cache.dirAuth x = s.cache.dirAuth x
  rank : q → ∀ x, (s'.cache.dirAuth x).first = w ↔ (s.cache.dirAuth x).first = w

/-- A rename that `handle_client_rename` lets through, on a slave that is not
the authority of the destination and has pinned what it is about. -/
structure Admitted (I : InodeAuthority ι α) (w : ℤ) (s : Slave ι α δ L) (r : Rename δ) (t' p' : DirTree ι α) :
    Prop where
  rank : 0 ≤ w
  inv : Inv s.cache
  tree : s.Clear r s.cache.tree
  after : s.After r s.cache.tree t'
  projected : s.Clear r s.projected
  projectedAfter : s.After r s.projected p'
  frags : s.projected.inode = s.cache.tree.inode
  files : ∀ i d, s.isDir i = false → s.cache.tree.inode d ≠ some i
  linked : ∀ i, s.cache.tree.parentDir i = (s.parentDn i).map s.dir
  straydn_ne : ∀ dn, r.straydn = some dn → dn ≠ r.srcdn ∧ dn ≠ r.destdn
  src : (s.srcdnl r).isNull = false
  stray : r.straydn.isSome = (s.destdnl r).isPrimary
  /-- A link is not renamed over the inode that it links: that is a no-op. -/
  ne : ∀ i, (s.destdnl r).ino = some i → (s.srcdnl r).inode ≠ some i
  fromStray : s.inStray r.srcdn = true → ∃ i, s.srcdnl r = .primary i ∧
    (s.destdnl r = .null ∨ s.destdnl r = .remote i ∧ s.inStray r.destdn = false)
  kinds : ∀ i j, (s.srcdnl r).inode = some i → (s.destdnl r).inode = some j → s.isDir i = s.isDir j
  links : ∀ i, s.srcdnl r = .remote i ∨ s.destdnl r = .remote i → s.isDir i = false ∧ (s.parentDn i).isSome
  dest_auth : s.dentryIsAuth I w r.destdn = false
  stray_auth : ∀ dn, r.straydn = some dn → s.dentryIsAuth I w dn = false
  pinned : ∀ dn, dn = r.srcdn ∨ dn = r.destdn ∨ r.straydn = some dn → s.dir dn ∈ s.cache.tree.dirs ∧ s.hasDentry dn
  pinnedInode : ∀ i, (s.srcdnl r).inode = some i ∨ (s.destdnl r).inode = some i → s.hasInode i

omit [LinearOrder α] [DecidableEq δ] in
theorem Admitted.srci (h : s.Admitted I w r t' p') : ∃ srci, (s.srcdnl r).inode = some srci := by
  have := h.src
  cases hl : s.srcdnl r with
  | null =>
    rw [hl] at this
    cases this
  | primary i => exact ⟨i, rfl⟩
  | remote i => exact ⟨i, rfl⟩

omit [LinearOrder α] [DecidableEq δ] in
theorem Admitted.linkmerge (h : s.Admitted I w r t' p') (hi : (s.destdnl r).ino = some i) : s.linkmerge r = false := by
  have hne : (s.srcdnl r).inode ≠ (s.destdnl r).inode := by
    rw [(ino_inode hi).2]
    exact h.ne i hi
  simp [Slave.linkmerge, hne]

omit [LinearOrder α] [DecidableEq δ] in
/-- No remote link is merged onto a primary one. -/
theorem Admitted.mergesRemote (h : s.Admitted I w r t' p') : s.mergesRemote r = false := by
  refine Bool.eq_false_iff.mpr fun hm => ?_
  rw [Slave.mergesRemote, Bool.and_eq_true] at hm
  obtain ⟨hm, hr⟩ := hm
  obtain hs | hd := (of_decide_eq_true hm).2
  · cases hl : s.srcdnl r <;> simp [hl, Linkage.isPrimary, Linkage.isRemote] at hs hr
  · cases hl : s.destdnl r with
    | primary i =>
      rw [h.linkmerge (by rw [hl]; rfl)] at hm
      cases hm
    | null => simp [hl, Linkage.isPrimary] at hd
    | remote i => simp [hl, Linkage.isPrimary] at hd

omit [LinearOrder α] [DecidableEq δ] in
/-- An overwritten inode goes to a stray dentry. -/
theorem Admitted.straydn (h : s.Admitted I w r t' p') (hi : (s.destdnl r).ino = some i) :
    ∃ dn, r.straydn = some dn := by
  rw [← Option.isSome_iff_exists, h.stray, (ino_inode hi).1]
  rfl

section Apply

variable [AddCommGroup L] {q : Prop} {c c' : Cache ι α L}

omit [DecidableEq δ] in
/-- One of the two moves. -/
theorem adjustMove_quiet {l : Linkage ι} {o n : α} {m : α → Bool} (hw : 0 ≤ w) (h : c.Keyed)
    (hm : ∀ i x, l = .primary i → c.tree.inode x = some i → m x = true)
    (hp : ∀ i, l = .primary i → c.tree.parentDir i = some n)
    (hoo : c.tree.forest.nearest m o = none) (hon : ∀ i, l = .primary i → c.tree.forest.nearest m n = none)
    (ho : q → Foreign w c o) (hn : ∀ i, l = .primary i → q → Foreign w c n)
    (hs : s.adjustMove I l o c = .ok c') : Quiet q w m c c' := by
  unfold adjustMove at hs
  split at hs
  · rcases ite_ok.mp hs with ⟨-, hs⟩ | ⟨-, hs⟩
    · exact adjustSubtreeAfterRename_quiet hw h (fun d hd => hm _ d rfl hd) (hp _ rfl) hoo (hon _ rfl) ho (hn _ rfl) hs
    · rw [pure_ok] at hs
      rw [← hs]
      exact .refl h
  · rw [pure_ok] at hs
    rw [← hs]
    exact .refl h

omit [DecidableEq δ] [AddCommGroup L] [LinearOrder α] in
/-- The projected moves are not part of what is at stake. -/
theorem projectMove_eq (l : Linkage ι) (o n : α) (c : Cache ι α L) :
    ∃ rs, s.projectMove l o n c = { c with projectedSubtreeRenames := rs } := by
  unfold projectMove
  cases l.ino with
  | none => exact ⟨_, rfl⟩
  | some i =>
    simp only [Option.elim_some]
    split
    · exact ⟨_, rfl⟩
    · exact ⟨_, rfl⟩

omit [DecidableEq δ] [AddCommGroup L] [LinearOrder α] in
/-- A fragment that is not below what moves is in a subtree of the same rank in the tree after the rename. -/
theorem foreign_after (ha : s.After r s.cache.tree t') (hd : s.Away r s.cache.tree d) {rs : ι → List (α × α)}
    (h : Foreign w s.cache d) : Foreign w { s.cache with tree := t', projectedSubtreeRenames := rs } d := by
  intro R hR
  refine h R ?_
  rw [← hR]
  exact (s.cache.tree.forest.nearest_avoids (fun x hx => ha.parent hx) (fun _ _ => rfl) hd).symm

theorem Admitted.applied (h : s.Admitted I w r t' p') (ha : s.renameApply I r t' p' = .ok s') :
    Applied (s.dentryIsAuth I w r.srcdn = false) w s r t' p' s' := by
  obtain ⟨c₁, h₁, ha⟩ := bind_ok.mp ha
  obtain ⟨c₂, h₂, ha⟩ := bind_ok.mp ha
  rw [pure_ok] at ha
  -- the state before the two moves: the new tree, and two more projected renames
  obtain ⟨rs, hrs⟩ : ∃ rs, s.projectMove (s.srcdnl r) (s.dir r.srcdn) (s.dir r.destdn)
      (r.straydn.elim s.cache fun straydn => s.projectMove (s.destdnl r) (s.dir r.destdn) (s.dir straydn) s.cache) =
        { s.cache with projectedSubtreeRenames := rs } := by
    obtain ⟨rs₁, h₁⟩ : ∃ rs, (r.straydn.elim s.cache fun straydn =>
        s.projectMove (s.destdnl r) (s.dir r.destdn) (s.dir straydn) s.cache) =
          { s.cache with projectedSubtreeRenames := rs } := by
      cases r.straydn with
      | none => exact ⟨_, rfl⟩
      | some dn => exact projectMove_eq _ _ _ _
    rw [h₁]
    obtain ⟨rs₂, h₂⟩ := projectMove_eq (s := s) (s.srcdnl r) (s.dir r.srcdn) (s.dir r.destdn)
      { s.cache with projectedSubtreeRenames := rs₁ }
    exact ⟨rs₂, h₂⟩
  rw [hrs] at h₁
  obtain ⟨c₀, hc₀⟩ : ∃ c₀ : Cache ι α L, c₀ = { s.cache with tree := t', projectedSubtreeRenames := rs } := ⟨_, rfl⟩
  have h₁ : s.adjustMove I (s.srcdnl r) (s.dir r.srcdn) c₀ = .ok c₁ := by
    rw [hc₀]
    exact h₁
  have ht₀ : c₀.tree = t' := by rw [hc₀]
  have hk₀ : c₀.Keyed := by
    rw [hc₀]
    exact h.inv.key
  have hsrc := h.after.away h.tree.away_src
  have hdest := h.after.away h.tree.away_dest
  have hfor : ∀ dn, s.Away r s.cache.tree (s.dir dn) → s.dentryIsAuth I w dn = false → Foreign w c₀ (s.dir dn) := by
    intro dn hd hdn
    rw [hc₀]
    exact foreign_after h.after hd (foreign_of_authority (I := I) (by simpa [dentryIsAuth] using hdn))
  have hmoved : ∀ x i, t'.inode x = some i → (s.srcdnl r).ino = some i ∨ (s.destdnl r).ino = some i →
      s.movedFrag r t' x = true := by
    intro x i hx hor
    simp only [movedFrag, hx, Option.any_some, Bool.or_eq_true, decide_eq_true_eq]
    exact hor
  have e₁ : Quiet (s.dentryIsAuth I w r.srcdn = false) w (s.movedFrag r t') c₀ c₁ := by
    apply adjustMove_quiet (n := s.dir r.destdn) h.rank hk₀ ?_ ?_ (by rw [ht₀]; exact hsrc)
      (fun _ _ => by rw [ht₀]; exact hdest) (fun hq => hfor _ h.tree.away_src hq)
      (fun _ _ _ => hfor _ h.tree.away_dest h.dest_auth) h₁
    · intro i x hl hx
      rw [ht₀] at hx
      exact hmoved x i hx (.inl (by rw [hl]; rfl))
    · intro i hl
      rw [ht₀]
      exact h.after.src (by rw [hl]; rfl)
  have e₂ : Quiet (s.dentryIsAuth I w r.srcdn = false) w (s.movedFrag r t') c₁ c₂ := by
    cases hst : r.straydn with
    | none =>
      rw [adjustStray, hst, if_neg (by simp), pure_ok] at h₂
      rw [← h₂]
      exact .refl e₁.keyed
    | some dn =>
      have hstray := h.tree.away_stray hst
      rw [adjustStray, hst, if_pos (by simp)] at h₂
      apply adjustMove_quiet (n := s.dir dn) h.rank e₁.keyed ?_ ?_ (by rw [e₁.tree, ht₀]; exact hdest)
        (fun _ _ => by rw [e₁.tree, ht₀]; exact h.after.away hstray)
        (fun _ => e₁.foreign (by rw [ht₀]; exact hdest) (hfor _ h.tree.away_dest h.dest_auth))
        (fun _ _ _ => e₁.foreign (by rw [ht₀]; exact h.after.away hstray) (hfor _ hstray (h.stray_auth dn hst))) h₂
      · intro i x hl hx
        rw [e₁.tree, ht₀] at hx
        exact hmoved x i hx (.inr (by rw [hl]; rfl))
      · intro i hl
        rw [e₁.tree, ht₀]
        rw [h.after.dest (by rw [hl]; rfl), h.mergesRemote, hst]
        rfl
  have e := e₁.trans e₂
  rw [← ha]
  refine ⟨rfl, e.tree.trans ht₀, e.keyed, fun x hx => ?_, fun hq x => ?_⟩
  · rw [← h.after.movedFrag] at hx
    rw [e.other x hx, hc₀]
  · rw [e.rank hq x, hc₀]

end Apply

/-! ## Authorities after the rename -/

section After

variable {q : Prop}

omit [LinearOrder α] in
theorem Applied.dir (ha : Applied q w s r t' p' s') : s'.dir = s.dir := by
  rw [ha.rest]
  exact relink_dir

omit [LinearOrder α] in
theorem Applied.isDir (ha : Applied q w s r t' p' s') : s'.isDir = s.isDir := by
  rw [ha.rest]
  exact relink_isDir

variable (h : s.Admitted I w r t' p') (ha : Applied q w s r t' p' s')
include h ha

omit [LinearOrder α] in
theorem Applied.authority (hd : s.Away r s.cache.tree d) : s'.cache.authority I d = s.cache.authority I d := by
  have hin : s'.cache.tree.inode = s.cache.tree.inode := by rw [ha.tree, h.after.inode]
  refine authority_avoids (m := s.movedFrag r s.cache.tree) (fun x _ => by rw [hin]) (fun x i hx hi => ?_) ha.other hd
  rw [ha.tree]
  exact h.after.parentDir hx hi

omit [LinearOrder α] in
theorem Applied.dentryIsAuth {dn : δ} (hd : s.Away r s.cache.tree (s.dir dn)) :
    s'.dentryIsAuth I w dn = s.dentryIsAuth I w dn := by
  rw [Slave.dentryIsAuth, Slave.dentryIsAuth, ha.dir, ha.authority h hd]

omit [LinearOrder α] in
/-- An inode that is not moved, in a rename of files. -/
theorem Applied.inodeIsAuth (hf : ∀ d, s.Away r s.cache.tree d) (hs : (s.srcdnl r).ino ≠ some i)
    (hd : (s.destdnl r).ino ≠ some i) {dn : δ} (hdn : s.parentDn i = some dn) :
    s'.inodeIsAuth I w i = s.inodeIsAuth I w i ∧ s.inodeIsAuth I w i = s.dentryIsAuth I w dn := by
  have hp : s.cache.tree.parentDir i = some (s.dir dn) := by rw [h.linked, hdn]; rfl
  have hp' : s'.cache.tree.parentDir i = some (s.dir dn) := by rw [ha.tree, h.after.other hs hd, hp]
  rw [Slave.inodeIsAuth, Slave.inodeIsAuth, Slave.dentryIsAuth, authority_inode hp, authority_inode hp',
    ha.authority h (hf _)]
  exact ⟨rfl, rfl⟩

omit ha [LinearOrder α] [DecidableEq δ] in
/-- In a rename of files no fragment moves. -/
theorem Admitted.files_away (hi : (s.srcdnl r).inode = some i) (hf : s.isDir i = false) (d : α) :
    s.Away r s.cache.tree d := by
  have hno : ∀ j, (s.srcdnl r).ino = some j ∨ (s.destdnl r).ino = some j → s.isDir j = false := by
    rintro j (hj | hj)
    · rw [(ino_inode hj).2] at hi
      cases hi
      exact hf
    · rw [← h.kinds i j hi (ino_inode hj).2]
      exact hf
  refine Option.eq_none_iff_forall_ne_some.mpr fun x hx => ?_
  have hm := s.cache.tree.forest.nearest_marked hx
  unfold movedFrag at hm
  cases hj : s.cache.tree.inode x with
  | none => simp [hj] at hm
  | some j =>
    simp only [hj, Option.any_some, Bool.or_eq_true, decide_eq_true_eq] at hm
    exact h.files j x (hno j hm) hj

omit [LinearOrder α] in
theorem Applied.auth_srcdn : s'.dentryIsAuth I w r.srcdn = s.dentryIsAuth I w r.srcdn :=
  ha.dentryIsAuth h h.tree.away_src

omit [LinearOrder α] in
theorem Applied.auth_destdn : s'.dentryIsAuth I w r.destdn = false :=
  (ha.dentryIsAuth h h.tree.away_dest).trans h.dest_auth

omit [LinearOrder α] in
theorem Applied.auth_straydn {dn : δ} (hdn : r.straydn = some dn) : s'.dentryIsAuth I w dn = false :=
  (ha.dentryIsAuth h (h.tree.away_stray hdn)).trans (h.stray_auth dn hdn)

omit [LinearOrder α] in
/-- The overwritten inode is in the stray directory. -/
theorem Applied.auth_oldin {dn : δ} (hdn : r.straydn = some dn) (hi : (s.destdnl r).ino = some i) :
    s'.inodeIsAuth I w i = false := by
  have hp : s'.cache.tree.parentDir i = some (s.dir dn) := by
    rw [ha.tree, h.after.dest hi, h.mergesRemote, hdn]
    rfl
  have := ha.auth_straydn h hdn
  rw [Slave.dentryIsAuth, ha.dir] at this
  rw [Slave.inodeIsAuth, authority_inode hp]
  exact this

/-! ## `_need_force_journal` -/

omit h ha

/-- The rank owns a fragment of the directory. -/
def OwnsFrag (w : ℤ) (s : Slave ι α δ L) (i : ι) : Prop :=
  ∃ d ∈ s.cache.tree.dirfrags i, s.cache.isSubtreeRoot d = true ∧ (s.cache.dirAuth d).first = w

/-- The rank owns a subtree in the directory. -/
def OwnsBelow (w : ℤ) (s : Slave ι α δ L) (i : ι) : Prop :=
  ∃ d ∈ s.cache.tree.dirfrags i, ∃ x ∈ s.cache.tree.dirs, (s.cache.subtrees x).isSome = true ∧
    s.contains d x = true ∧ (s.cache.dirAuth x).first = w

omit [DecidableEq ι] [DecidableEq δ] in
theorem needForceJournal_frag : s.needForceJournal w i true = true ↔ s.OwnsFrag w i := by
  simp [needForceJournal, OwnsFrag, isAuthRoot]

omit [DecidableEq ι] [DecidableEq δ] in
theorem needForceJournal_below : s.needForceJournal w i false = true ↔ s.OwnsBelow w i := by
  simp [needForceJournal, OwnsBelow]

omit [DecidableEq ι] [DecidableEq δ] in
/-- A fragment of its own is a subtree in the directory. -/
theorem OwnsFrag.below (hk : s.cache.Keyed) (h : s.OwnsFrag w i) : s.OwnsBelow w i := by
  obtain ⟨d, hd, hr, hA⟩ := h
  have hin : s.cache.tree.inode d = some i := s.cache.tree.mem_dirfrags.mp hd
  refine ⟨d, hd, d, s.cache.tree.mem_dirs.mpr (by rw [hin]; rfl), hk.root hr, ?_, hA⟩
  rw [contains, Forest.nearest_of_marked _ (by simp)]
  rfl

/-- The rename does not change what the rank owns in the source directory, if it does not own the dentry. -/
theorem Applied.ownsBelow (h : s.Admitted I w r t' p') (ha : Applied q w s r t' p' s') (hq : q)
    (hi : (s.srcdnl r).ino = some i) : s'.OwnsBelow w i ↔ s.OwnsBelow w i := by
  have hfrag : s'.cache.tree.dirfrags i = s.cache.tree.dirfrags i := by rw [ha.tree, h.after.dirfrags]
  have hdirs : s'.cache.tree.dirs = s.cache.tree.dirs := by rw [ha.tree, h.after.dirs]
  have hproj : s'.projected = p' := by rw [ha.rest]
  have hkey : ∀ x, (s'.cache.dirAuth x).first = w → ((s'.cache.subtrees x).isSome = true ↔
      (s.cache.subtrees x).isSome = true) := by
    intro x hx
    have hx' := (ha.rank hq x).mp hx
    rw [ha.keyed x, h.inv.key x, isSubtreeRoot_iff, isSubtreeRoot_iff]
    refine iff_of_true (fun he => default_first h.rank ?_) (fun he => default_first h.rank ?_)
    · rw [← he, hx]
    · rw [← he, hx']
  unfold OwnsBelow
  rw [hfrag, hdirs]
  refine exists_congr fun d => and_congr_right fun hd => exists_congr fun x => and_congr_right fun _ => ?_
  have hin : s.projected.inode d = some i := by
    rw [h.frags]
    exact s.cache.tree.mem_dirfrags.mp hd
  rw [contains_after h.projected h.projectedAfter hproj hi hin]
  constructor
  · rintro ⟨h₁, h₂, h₃⟩
    exact ⟨(hkey x h₃).mp h₁, h₂, (ha.rank hq x).mp h₃⟩
  · rintro ⟨h₁, h₂, h₃⟩
    have h₃ := (ha.rank hq x).mpr h₃
    exact ⟨(hkey x h₃).mpr h₁, h₂, h₃⟩

end After

/-! ## What is journaled -/

section Blob

/-- The prepare journals the target. -/
def journalsTarget (I : InodeAuthority ι α) (w : ℤ) (s : Slave ι α δ L) (r : Rename δ) : Bool :=
  !s.linkmerge r && match s.destdnl r with
    | .primary _ => r.straydn.isSome && s.forceJournalStray I w r
    | .remote oldin => s.inodeIsAuth I w oldin
    | .null => false

/-- The prepare journals the destination, or the source inode that is linked elsewhere. -/
def journalsDest (I : InodeAuthority ι α) (w : ℤ) (s : Slave ι α δ L) (r : Rename δ) : Bool :=
  match s.srcdnl r with
  | .primary srci => s.forceJournalDest I w r srci
  | .remote srci => !s.linkmerge r && s.parentIsAuth I w srci
  | .null => false

omit [DecidableEq ι] [LinearOrder α] [DecidableEq δ] in
theorem empty_addInodeCow (h : (s.parentDn i).isSome) (b : B) : M.empty (s.addInodeCow M i b) = false := by
  obtain ⟨dn, hdn⟩ := Option.isSome_iff_exists.mp h
  simp only [addInodeCow, hdn]
  exact M.empty_addPrimaryDentry _ _

omit [DecidableEq ι] [LinearOrder α] [DecidableEq δ] in
theorem empty_addInode (h : (s.parentDn i).isSome) (b : B) : M.empty (s.addInode M i b) = false := by
  obtain ⟨dn, hdn⟩ := Option.isSome_iff_exists.mp h
  simp only [addInode, hdn]
  exact M.empty_addPrimaryDentry _ _

variable (h : s.Admitted I w r t' p')
include h

omit [DecidableEq δ] in
theorem empty_addTarget (b : B) :
    M.empty (s.addTarget I w r M b) = (M.empty b && !s.journalsTarget I w r) := by
  unfold addTarget journalsTarget
  cases hl : s.linkmerge r with
  | true => simp
  | false =>
    simp only [Bool.false_eq_true, if_false, Bool.not_false, Bool.true_and]
    cases hd : s.destdnl r with
    | null => simp
    | remote oldin =>
      cases hA : s.inodeIsAuth I w oldin with
      | false => simp [hA]
      | true => simp [hA, empty_addInodeCow (h.links oldin (.inr hd)).2]
    | primary oldin =>
      cases hst : r.straydn with
      | none => simp
      | some dn =>
        cases hf : s.forceJournalStray I w r with
        | false => simp [h.dest_auth]
        | true => simp [h.dest_auth, M.empty_addPrimaryDentry]

omit [DecidableEq δ] in
theorem empty_addDest (hs : s.dentryIsAuth I w r.srcdn = false) (b : B) :
    M.empty (s.addDest I w r M b) = (M.empty b && !s.journalsDest I w r) := by
  unfold addDest journalsDest cowDest
  simp only [h.dest_auth, hs, Bool.false_and, Bool.false_eq_true, if_false]
  cases hl : s.srcdnl r with
  | null => simp
  | primary srci =>
    cases hf : s.forceJournalDest I w r srci with
    | false => simp [hf]
    | true => simp [hf, M.empty_addPrimaryDentry]
  | remote srci =>
    cases hm : s.linkmerge r with
    | true => simp
    | false =>
      cases hA : s.parentIsAuth I w srci with
      | false => simp [hA]
      | true => simp [hA, empty_addInodeCow (h.links srci (.inl hl)).2]

omit h [DecidableEq ι] [DecidableEq δ] in
theorem empty_noteRenamed (srci : ι) (b : B) : M.empty (s.noteRenamed I w r M srci b) = M.empty b := by
  unfold noteRenamed
  split
  · exact M.empty_noteRenamedDir _ _
  · split
    · cases (s.destdnl r).inode with
      | none => rfl
      | some oldin => exact M.empty_noteRenamedDir _ _
    · rfl

omit [DecidableEq δ] [LinearOrder α] in
theorem addStray_ok (b : B) : ∃ b', s.addStray I w r M b = .ok b' := by
  unfold addStray
  rw [show decide ((s.destdnl r).isPrimary = true → r.straydn.isSome = true) = true from
    decide_eq_true fun hp => h.stray.trans hp, assert_true_bind]
  exact ⟨_, rfl⟩

omit [DecidableEq δ] [LinearOrder α] in
/-- The assertion for the stray dentry passes. -/
theorem predirty_ok (srci : ι) (b : B) : ∃ b', s.predirty I w r M srci b = .ok b' := by
  obtain ⟨b₁, hb₁⟩ := addStray_ok h (M := M) b
  unfold predirty
  rw [hb₁]
  exact ⟨_, rfl⟩

omit [DecidableEq δ] [LinearOrder α] in
/-- Without authority there are no nested updates. -/
theorem predirty_eq (hs : s.dentryIsAuth I w r.srcdn = false) {srci : ι} {b b' : B}
    (hb : s.predirty I w r M srci b = .ok b') : b' = b := by
  have hstray : ∀ b₁, s.addStray I w r M b = .ok b₁ → b₁ = b := by
    intro b₁ hb₁
    obtain ⟨_, -, hb₁⟩ := bind_ok.mp hb₁
    rw [← pure_ok.mp hb₁]
    cases hst : r.straydn with
    | none => simp
    | some dn => simp [h.stray_auth dn hst]
  obtain ⟨b₁, hb₁, hb⟩ := bind_ok.mp hb
  simp only [h.dest_auth, hs, Bool.false_eq_true, if_false, pure_ok] at hb
  rw [← hb, hstray b₁ hb₁]

omit [DecidableEq δ] in
/-- The prepare passes its assertion, and its metablob. -/
theorem renamePrepare_ok : ∃ b, s.renamePrepare I w r M = .ok b ∧
    M.empty b = !(s.dentryIsAuth I w r.srcdn || s.journalsTarget I w r || s.journalsDest I w r) := by
  obtain ⟨srci, hsrci⟩ := h.srci
  obtain ⟨b, hb⟩ := predirty_ok h (M := M) srci (s.noteRenamed I w r M srci M.start)
  refine ⟨s.addSrc I w r M (s.addDest I w r M (s.addTarget I w r M b)), ?_, ?_⟩
  · rw [renamePrepare, hsrci]
    exact bind_ok.mpr ⟨srci, rfl, bind_ok.mpr ⟨b, hb, rfl⟩⟩
  cases hs : s.dentryIsAuth I w r.srcdn with
  | true => simp [addSrc, hs, M.empty_addNullDentry]
  | false =>
    rw [addSrc, hs, if_neg Bool.false_ne_true, empty_addDest h hs, empty_addTarget h, predirty_eq h hs hb,
      empty_noteRenamed, M.empty_start]
    cases s.journalsTarget I w r <;> cases s.journalsDest I w r <;> rfl

end Blob

section Rollback

variable {rb : RenameRollback ι δ} {f : Found ι δ}

omit [DecidableEq δ] in
/-- The metablob of the rollback, where the dentries are found. -/
theorem empty_rollbackBlob {srcdn destdn : δ} (hsrc : f.srcdn = some srcdn) (hdest : f.destdn = some destdn)
    (hin : rb.origSrc.ino.isNone = true → f.inode.all fun i => (s.parentDn i).isSome)
    (ht : f.target ≠ f.inode → f.target.any (s.inodeIsAuth I w) = true → f.target.all fun i => (s.parentDn i).isSome) :
    M.empty (s.rollbackBlob I w rb M f) =
      !(s.dentryIsAuth I w srcdn || s.forceRollbackSrc I w f ||
        (rb.origSrc.ino.isNone && f.inode.any (s.inodeIsAuth I w)) || s.forceRollbackDest w f ||
        (f.target ≠ f.inode && f.target.any (s.inodeIsAuth I w))) := by
  have hnote : ∀ b, M.empty (if s.forceRollbackDest w f then f.target.elim b fun t => M.noteRenamedDir t b
      else f.inode.elim b fun i => if s.forceRollbackSrc I w f || s.isDir i && s.foundAuth I w f.srcdn then
        M.noteRenamedDir i b else b) = M.empty b := by
    intro b
    split
    · cases f.target with
      | none => rfl
      | some t => exact M.empty_noteRenamedDir _ _
    · cases f.inode with
      | none => rfl
      | some i =>
        simp only [Option.elim_some]
        split
        · exact M.empty_noteRenamedDir _ _
        · rfl
  have htarget : ∀ b, M.empty (f.target.elim b fun t =>
      if f.target ≠ f.inode && s.inodeIsAuth I w t then s.addInode M t b else b) =
        (M.empty b && !(f.target ≠ f.inode && f.target.any (s.inodeIsAuth I w))) := by
    intro b
    cases hf : f.target with
    | none => simp
    | some t =>
      rw [hf] at ht
      simp only [Option.elim_some, Option.any_some, Option.all_some] at ht ⊢
      cases hc : decide (some t ≠ f.inode) && s.inodeIsAuth I w t with
      | false => simp
      | true =>
        rw [Bool.and_eq_true, decide_eq_true_eq] at hc
        simp [empty_addInode (ht hc.1 hc.2)]
  have hforce : ∀ b, M.empty (if s.forceRollbackDest w f then
      f.destdn.elim b fun destdn => M.addPrimaryDentry destdn (M.addDirContext (s.dir destdn) b) else b) =
        (M.empty b && !s.forceRollbackDest w f) := by
    intro b
    rw [hdest]
    cases s.forceRollbackDest w f with
    | false => simp
    | true => simp [M.empty_addPrimaryDentry]
  have hinode : ∀ b, M.empty (f.inode.elim b fun i =>
      if rb.origSrc.ino.isNone && s.inodeIsAuth I w i then s.addInode M i b else b) =
        (M.empty b && !(rb.origSrc.ino.isNone && f.inode.any (s.inodeIsAuth I w))) := by
    intro b
    cases hf : f.inode with
    | none => simp
    | some i =>
      rw [hf] at hin
      simp only [Option.elim_some, Option.any_some, Option.all_some] at hin ⊢
      cases hc : rb.origSrc.ino.isNone && s.inodeIsAuth I w i with
      | false => simp
      | true =>
        rw [Bool.and_eq_true] at hc
        simp [empty_addInode (hin hc.1)]
  have hfirst : M.empty (f.srcdn.elim M.start fun srcdn =>
      if s.dentryIsAuth I w srcdn || s.forceRollbackSrc I w f then
        if rb.origSrc.ino.isSome then M.addPrimaryDentry srcdn (M.addDirContext (s.dir srcdn) M.start)
        else M.addRemoteDentry srcdn (M.addDirContext (s.dir srcdn) M.start)
      else M.start) = !(s.dentryIsAuth I w srcdn || s.forceRollbackSrc I w f) := by
    rw [hsrc]
    simp only [Option.elim_some]
    cases s.dentryIsAuth I w srcdn || s.forceRollbackSrc I w f with
    | false => simp [M.empty_start]
    | true =>
      cases rb.origSrc.ino.isSome with
      | true => simp [M.empty_addPrimaryDentry]
      | false => simp [M.empty_addRemoteDentry]
  simp only [rollbackBlob]
  rw [hnote, htarget, hforce, hinode, hfirst]
  simp only [Bool.not_or]

end Rollback

/-! ## The rollback -/

section Live

variable {q : Prop}

/-- What the rename is about has been pinned, so the rollback finds it. -/
theorem Applied.find (h : s.Admitted I w r t' p') (ha : Applied q w s r t' p' s') :
    s'.find (s.rollback r) = ⟨some r.srcdn, some r.destdn, r.straydn, (s.srcdnl r).inode, (s.destdnl r).inode⟩ := by
  have hl : ∀ dn, dn = r.srcdn ∨ dn = r.destdn ∨ r.straydn = some dn → s'.lookup dn = some dn := by
    intro dn hdn
    obtain ⟨h₁, h₂⟩ := h.pinned dn hdn
    have hd : s'.hasDentry = s.hasDentry := by
      rw [ha.rest]
      exact relink_hasDentry
    rw [lookup, ha.dir, ha.tree, h.after.dirs, hd, if_pos ⟨h₁, h₂⟩]
  have hi : ∀ l : Linkage ι, (∀ i, l.inode = some i → s.hasInode i) → s'.getInode (l.ino <|> l.remoteIno) = l.inode := by
    intro l hl
    have hd : s'.hasInode = s.hasInode := by
      rw [ha.rest]
      exact relink_hasInode
    rw [getInode, inode_eq, hd]
    cases hli : l.inode with
    | none => rfl
    | some i => simp [hl i hli]
  rw [Slave.find, rollback, drec, drec]
  congr 1
  · exact hl _ (.inl rfl)
  · exact hl _ (.inr (.inl rfl))
  · cases hst : r.straydn with
    | none => rfl
    | some dn => exact hl dn (.inr (.inr hst))
  · exact hi _ fun i hi => h.pinnedInode i (.inl hi)
  · exact hi _ fun i hi => h.pinnedInode i (.inr hi)

omit [LinearOrder α] in
theorem Applied.inStray (h : s.Admitted I w r t' p') (ha : Applied q w s r t' p' s') (dn : δ) :
    s'.inStray dn = s.inStray dn := by
  have hd : s'.isStray = s.isStray := by
    rw [ha.rest]
    exact relink_isStray
  rw [Slave.inStray, Slave.inStray, ha.dir, ha.tree, h.after.inode, hd]

omit [LinearOrder α] [DecidableEq δ] in
/-- A directory has a primary link. -/
theorem Admitted.ino_of_isDir (h : s.Admitted I w r t' p') {l : Linkage ι} (hl : l = s.srcdnl r ∨ l = s.destdnl r)
    (hi : l.inode = some i) (hd : s.isDir i = true) : l.ino = some i := by
  cases l with
  | null => cases hi
  | primary j => exact hi
  | remote j =>
    cases hi
    have := (h.links i (hl.imp Eq.symm Eq.symm)).1
    rw [hd] at this
    cases this

omit [LinearOrder α] in
theorem Applied.target_auth (h : s.Admitted I w r t' p') (ha : Applied q w s r t' p' s')
    (hA : (s.destdnl r).inode.any (s'.inodeIsAuth I w) = true) : (s.destdnl r).remoteIno.isSome := by
  cases hd : s.destdnl r with
  | null => simp [hd, Linkage.inode] at hA
  | remote i => rfl
  | primary i =>
    rw [hd] at hA
    have hi : (s.destdnl r).ino = some i := by rw [hd]; rfl
    obtain ⟨dn, hdn⟩ := h.straydn hi
    have := ha.auth_oldin h hdn hi
    simp [Linkage.inode, this] at hA

/-- Of the assertions of the rollback, only the one about its metablob can fail. -/
theorem Applied.doRenameRollback_ok (h : s.Admitted I w r t' p') (ha : Applied q w s r t' p' s')
    (journaled resolve : Bool) {b : B} :
    s'.doRenameRollback I w (s.rollback r) M journaled resolve = .ok b ↔
      M.empty (s'.rollbackBlob I w (s.rollback r) M (s'.find (s.rollback r))) = !journaled ∧
        s'.rollbackBlob I w (s.rollback r) M (s'.find (s.rollback r)) = b := by
  have hf := ha.find h
  have hlink : s'.linkage = (s.relink r).linkage := by rw [ha.rest]
  have h₁ : s'.linkage r.srcdn = .null := by rw [hlink]; exact relink_srcdn
  have h₃ : ∀ dn ∈ r.straydn, (s'.linkage dn).isPrimary = true := by
    intro dn hdn
    have hst := h.stray
    rw [hdn, Option.isSome_some] at hst
    rw [hlink, relink_straydn hdn (h.straydn_ne dn hdn).1 (h.straydn_ne dn hdn).2]
    exact hst.symm
  have h₆ : s'.foundAuth I w r.straydn = false := by
    cases hst : r.straydn with
    | none => rfl
    | some dn => exact ha.auth_straydn h hst
  have hino : ∀ {l : Linkage ι}, l.ino.isSome = true → l.inode.isSome = true := by
    intro l hl
    cases l <;> simp_all [Linkage.ino, Linkage.inode]
  have h₄ : (s.destdnl r).ino.isSome = true → r.straydn.isSome = true := by
    intro hi
    obtain ⟨i, hi⟩ := Option.isSome_iff_exists.mp hi
    exact Option.isSome_iff_exists.mpr (h.straydn hi)
  have h₉ : (s.destdnl r).inode.isSome = true → s.inStray r.srcdn = true → s.inStray r.destdn = true →
      (s.destdnl r).ino.isNone = true ∧ (s.destdnl r).remoteIno.isNone = true := by
    intro ht hs hd
    obtain ⟨i, -, hn | ⟨-, hn⟩⟩ := h.fromStray hs
    · simp [hn, Linkage.inode] at ht
    · rw [hd] at hn
      cases hn
  have h₁₀ : (s.destdnl r).inode.isSome = true → s.inStray r.srcdn = true → s.inStray r.destdn = false →
      (s.destdnl r).remoteIno.isSome = true ∧ (s.destdnl r).remoteIno = (s.srcdnl r).ino := by
    intro ht hs _
    obtain ⟨i, hi, hn | ⟨hn, -⟩⟩ := h.fromStray hs
    · simp [hn, Linkage.inode] at ht
    · simp [hn, hi, Linkage.remoteIno, Linkage.ino]
  have h₁₁ : s'.forceRollbackDest w (s'.find (s.rollback r)) = true → (s.destdnl r).ino.isSome = true := by
    intro hforce
    rw [hf] at hforce
    simp only [forceRollbackDest, Option.any_eq_true, Bool.and_eq_true] at hforce
    obtain ⟨i, -, ⟨j, hj, hdir⟩, -⟩ := hforce
    rw [ha.isDir] at hdir
    rw [h.ino_of_isDir (.inr rfl) hj hdir]
    rfl
  have horigSrc : (s.rollback r).origSrc = s.drec r.srcdn := rfl
  have horigDest : (s.rollback r).origDest = s.drec r.destdn := rfl
  have hpass : ∀ {P : Prop} [Decidable P] {k : Unit → Checked B}, P → (assert P >>= k = .ok b ↔ k () = .ok b) := by
    intro P _ k hP
    rw [decide_eq_true hP, assert_true_bind]
  have h₈ : (s.destdnl r).inode.isNone = true → (s.destdnl r).ino.isSome = true → False := by
    intro ht hi
    have := hino hi
    rw [Option.isNone_iff_eq_none.mp ht] at this
    cases this
  unfold doRenameRollback
  rw [hf] at h₁₁ ⊢
  refine (hpass fun dn hdn => by cases hdn; exact h₁).trans ?_
  refine (hpass fun _ _ => ⟨rfl, rfl⟩).trans ?_
  refine (hpass h₃).trans ?_
  refine (hpass fun hi _ => ⟨rfl, h₄ hi⟩).trans ?_
  refine (hpass (ha.auth_destdn h)).trans ?_
  refine (hpass h₆).trans ?_
  refine (hpass fun _ hi => hino hi).trans ?_
  refine (hpass fun _ ht hi => (h₈ ht hi).elim).trans ?_
  simp only [ha.inStray h]
  refine (hpass h₉).trans ?_
  refine (hpass h₁₀).trans ?_
  refine (hpass h₁₁).trans ?_
  refine (hpass fun _ hA => ha.target_auth h hA).trans ?_
  refine (hpass fun _ => rfl).trans ?_
  refine (hpass fun _ => rfl).trans ?_
  rw [bind_ok]
  simp only [assert_ok, pure_ok, decide_eq_true_eq]
  constructor
  · rintro ⟨_, hlast, hb⟩
    exact ⟨hlast, hb⟩
  · rintro ⟨hlast, hb⟩
    exact ⟨(), hlast, hb⟩

/-- The source is journaled where the rank owns something in the source directory, as before the rename. -/
theorem Applied.forceRollbackSrc (h : s.Admitted I w r t' p') (ha : Applied q w s r t' p' s')
    (hs : s.dentryIsAuth I w r.srcdn = false) (hq : q) {srci : ι} (hi : (s.srcdnl r).inode = some srci) :
    s'.forceRollbackSrc I w (s'.find (s.rollback r)) = true ↔ s.isDir srci = true ∧ s.OwnsBelow w srci := by
  rw [ha.find h]
  simp only [Slave.forceRollbackSrc, foundAuth, hi, Option.any_some, ha.auth_srcdn h, hs, Bool.not_false, Bool.and_true,
    Bool.and_eq_true, ha.isDir, needForceJournal_below]
  exact and_congr_right fun hd => ha.ownsBelow h hq (h.ino_of_isDir (.inl rfl) hi hd)

/-- And then the source is journaled wherever the destination is. -/
theorem Applied.forceRollbackDest (h : s.Admitted I w r t' p') (ha : Applied q w s r t' p' s') (hq : q) {srci : ι}
    (hi : (s.srcdnl r).inode = some srci) (hf : s'.forceRollbackDest w (s'.find (s.rollback r)) = true) :
    s.isDir srci = true ∧ s.OwnsBelow w srci := by
  rw [ha.find h] at hf
  simp only [Slave.forceRollbackDest, hi, Option.any_some, Bool.and_eq_true, ha.isDir, Option.any_eq_true,
    needForceJournal_frag] at hf
  obtain ⟨⟨j, hj, hdir⟩, hfrag⟩ := hf
  have hd : s.isDir srci = true := (h.kinds srci j hi hj).trans hdir
  exact ⟨hd, (ha.ownsBelow h hq (h.ino_of_isDir (.inl rfl) hi hd)).mp (hfrag.below ha.keyed)⟩

/-- The metablob of the rollback. -/
theorem Applied.empty_rollbackBlob (h : s.Admitted I w r t' p') (ha : Applied q w s r t' p' s')
    {srci : ι} (hi : (s.srcdnl r).inode = some srci) :
    M.empty (s'.rollbackBlob I w (s.rollback r) M (s'.find (s.rollback r))) =
      !(s.dentryIsAuth I w r.srcdn || s'.forceRollbackSrc I w (s'.find (s.rollback r)) ||
        ((s.srcdnl r).ino.isNone && s'.inodeIsAuth I w srci) || s'.forceRollbackDest w (s'.find (s.rollback r)) ||
        ((s.destdnl r).inode ≠ some srci && (s.destdnl r).inode.any (s'.inodeIsAuth I w))) := by
  have hp : ∀ i, (s.parentDn i).isSome = true → (s'.parentDn i).isSome = true := by
    intro i hpi
    rw [ha.rest]
    exact relink_parentDn hpi
  rw [ha.find h, Slave.empty_rollbackBlob rfl rfl, ha.auth_srcdn h, hi, Option.any_some]
  · rfl
  · intro hn
    rw [hi, Option.all_some]
    cases hl : s.srcdnl r with
    | null => simp [hl, Linkage.inode] at hi
    | primary j =>
      have hn : (s.srcdnl r).ino.isNone = true := hn
      simp [hl, Linkage.ino] at hn
    | remote j =>
      rw [hl] at hi
      cases hi
      exact hp _ (h.links _ (.inl hl)).2
  · intro _ hA
    have := ha.target_auth h hA
    cases hl : s.destdnl r with
    | null => rfl
    | primary j => simp [hl, Linkage.remoteIno] at this
    | remote j => exact hp _ (h.links _ (.inr hl)).2

/-- What the rollback finds to journal, where the rank is not the authority of the source dentry. -/
theorem Applied.empty_rollback (h : s.Admitted I w r t' p') (ha : Applied q w s r t' p' s')
    (hs : s.dentryIsAuth I w r.srcdn = false) (hq : q) {srci : ι}
    (hi : (s.srcdnl r).inode = some srci) :
    M.empty (s'.rollbackBlob I w (s.rollback r) M (s'.find (s.rollback r))) = true ↔
      ¬(s.isDir srci = true ∧ s.OwnsBelow w srci) ∧
        ((s.srcdnl r).ino.isNone = true → s'.inodeIsAuth I w srci = false) ∧
        ∀ oldin, (s.destdnl r).inode = some oldin → oldin ≠ srci → s'.inodeIsAuth I w oldin = false := by
  have hsrc := ha.forceRollbackSrc h hs hq hi
  have hdest := ha.forceRollbackDest h hq hi
  rw [ha.empty_rollbackBlob h hi, hs, ← hsrc]
  simp only [Bool.false_or, Bool.not_eq_true', Bool.or_eq_false_iff, Bool.and_eq_false_iff, Bool.not_eq_true]
  constructor
  · rintro ⟨⟨⟨h₁, h₂⟩, -⟩, h₄⟩
    refine ⟨h₁, fun hn => h₂.resolve_left (by simp [hn]), fun oldin ho hne => ?_⟩
    rw [ho] at h₄
    exact h₄.resolve_left (by simpa using hne)
  · rintro ⟨h₁, h₂, h₃⟩
    refine ⟨⟨⟨h₁, ?_⟩, ?_⟩, ?_⟩
    · cases hn : (s.srcdnl r).ino.isNone with
      | false => exact .inl rfl
      | true => exact .inr (h₂ hn)
    · rw [← Bool.not_eq_true]
      intro hd
      rw [hsrc.mpr (hdest hd)] at h₁
      cases h₁
    · cases ho : (s.destdnl r).inode with
      | none => exact .inr rfl
      | some oldin =>
        by_cases hne : oldin = srci
        · exact .inl (by simp [hne])
        · exact .inr (h₃ oldin ho hne)

/-- The prepare journals the source where the rollback does. -/
theorem Applied.journalsDest (h : s.Admitted I w r t' p') (ha : Applied q w s r t' p' s')
    (hs : s.dentryIsAuth I w r.srcdn = false) {srci : ι}
    (hi : (s.srcdnl r).inode = some srci) :
    s.journalsDest I w r = true ↔ (s.isDir srci = true ∧ s.OwnsBelow w srci) ∨
      ((s.srcdnl r).ino.isNone = true ∧ s'.inodeIsAuth I w srci = true) := by
  unfold Slave.journalsDest
  cases hl : s.srcdnl r with
  | null => simp [hl, Linkage.inode] at hi
  | primary j =>
    rw [hl] at hi
    cases hi
    have hj : s.inodeIsAuth I w srci = false := by
      rw [Slave.inodeIsAuth, authority_inode (h.tree.src (by rw [hl]; rfl))]
      exact hs
    simp [forceJournalDest, h.dest_auth, hj, Linkage.ino, needForceJournal_below]
  | remote j =>
    rw [hl] at hi
    cases hi
    obtain ⟨hf, hp⟩ := h.links srci (.inl hl)
    have hlm : s.linkmerge r = false := by simpa [Slave.mergesRemote, hl, Linkage.isRemote] using h.mergesRemote
    obtain ⟨dn, hdn⟩ := Option.isSome_iff_exists.mp hp
    have hne : (s.destdnl r).ino ≠ some srci := by
      intro hd
      obtain ⟨hd, -⟩ := ino_inode hd
      simp [linkmerge, hl, hd, Linkage.inode, Linkage.isPrimary] at hlm
    obtain ⟨h₁, h₂⟩ := ha.inodeIsAuth h (h.files_away (by rw [hl]; rfl) hf) (by rw [hl]; simp [Linkage.ino]) hne hdn
    simp [hlm, parentIsAuth, hdn, hf, Linkage.ino, h₁, h₂]

/-- And the target, but that the prepare asks for the fragments of the overwritten directory. -/
theorem Applied.journalsTarget (h : s.Admitted I w r t' p') (ha : Applied q w s r t' p' s')
    {srci : ι} (hi : (s.srcdnl r).inode = some srci) :
    s.journalsTarget I w r = true ↔
      (s.linkmerge r = false ∧ ∃ oldin, s.destdnl r = .remote oldin ∧ s'.inodeIsAuth I w oldin = true) ∨
        ∃ oldin, (s.destdnl r).ino = some oldin ∧ s.isDir oldin = true ∧ s.OwnsFrag w oldin := by
  unfold Slave.journalsTarget
  cases hd : s.destdnl r with
  | null => simp [Linkage.ino]
  | remote oldin =>
    obtain ⟨hf, hp⟩ := h.links oldin (.inr hd)
    cases hlm : s.linkmerge r with
    | true => simp [Linkage.ino]
    | false =>
      obtain ⟨dn, hdn⟩ := Option.isSome_iff_exists.mp hp
      have hfile : s.isDir srci = false := (h.kinds srci oldin hi (by rw [hd]; rfl)).trans hf
      have hne : (s.srcdnl r).ino ≠ some oldin := by
        intro hs
        obtain ⟨hs, -⟩ := ino_inode hs
        simp [linkmerge, hs, hd, Linkage.inode, Linkage.isPrimary] at hlm
      obtain ⟨h₁, -⟩ := ha.inodeIsAuth h (h.files_away hi hfile) hne (by rw [hd]; simp [Linkage.ino]) hdn
      simp [Linkage.ino, h₁]
  | primary oldin =>
    obtain ⟨dn, hdn⟩ := h.straydn (by rw [hd]; rfl)
    have hlm := h.linkmerge (i := oldin) (by rw [hd]; rfl)
    simp [hlm, hdn, forceJournalStray, hd, Linkage.inode, Linkage.ino, h.stray_auth dn hdn, needForceJournal_frag]

end Live

/-! ## The prepare and the rollback -/

/-- The prepare passes its assertions, a live rollback passes its own and
journals as the prepare did, and the destination is journaled only where a
primary link was overwritten, in a fragment that is open. -/
def JournalsAlike (I : InodeAuthority ι α) (w : ℤ) (M : MetaBlob ι α δ B) (s : Slave ι α δ L) (r : Rename δ)
    (s' : Slave ι α δ L) (resolve : Bool) : Prop :=
  (∃ b b', s.renamePrepare I w r M = .ok b ∧
    s'.doRenameRollback I w (s.rollback r) M (!M.empty b) resolve = .ok b' ∧ M.empty b' = M.empty b) ∧
  (s'.forceRollbackDest w (s'.find (s.rollback r)) = true →
    (s.rollback r).origDest.ino.isSome = true ∧ s'.dir r.destdn ∈ s'.cache.tree.dirs)

theorem Applied.journalsAlike {q : Prop} (h : s.Admitted I w r t' p') (ha : Applied q w s r t' p' s') {b : B}
    (hb : s.renamePrepare I w r M = .ok b) (resolve : Bool) :
    JournalsAlike I w M s r s' resolve ↔
      M.empty (s'.rollbackBlob I w (s.rollback r) M (s'.find (s.rollback r))) = M.empty b := by
  unfold JournalsAlike
  simp only [hb, Except.ok.injEq, exists_and_left, exists_eq_left', ha.doRenameRollback_ok h, Bool.not_not]
  constructor
  · rintro ⟨⟨_, ⟨hb, -⟩, -⟩, -⟩
    exact hb
  · intro hb
    refine ⟨⟨_, ⟨hb, rfl⟩, hb⟩, fun hf => ⟨?_, ?_⟩⟩
    · rw [ha.find h] at hf
      simp only [Slave.forceRollbackDest, Option.any_eq_true, Bool.and_eq_true, ha.isDir] at hf
      obtain ⟨i, -, ⟨j, hj, hdir⟩, -⟩ := hf
      exact Option.isSome_iff_exists.mpr ⟨j, h.ino_of_isDir (.inr rfl) hj hdir⟩
    · rw [ha.dir, ha.tree, h.after.dirs]
      exact (h.pinned r.destdn (.inr (.inl rfl))).1

/-- The prepare is silent where the rollback is, but for the fragments of the overwritten directory. -/
theorem Applied.empty_prepare {q : Prop} (h : s.Admitted I w r t' p') (ha : Applied q w s r t' p' s') {b : B}
    (hb : M.empty b = !(s.dentryIsAuth I w r.srcdn || s.journalsTarget I w r || s.journalsDest I w r))
    (hs : s.dentryIsAuth I w r.srcdn = false) (hq : q) :
    M.empty b = true ↔
      M.empty (s'.rollbackBlob I w (s.rollback r) M (s'.find (s.rollback r))) = true ∧
        ∀ oldin, (s.destdnl r).ino = some oldin → s.isDir oldin = true → ¬s.OwnsFrag w oldin := by
  obtain ⟨srci, hi⟩ := h.srci
  have hprep : M.empty b = true ↔ ¬s.journalsTarget I w r = true ∧ ¬s.journalsDest I w r = true := by
    rw [hb, hs, Bool.false_or, Bool.not_eq_true', Bool.or_eq_false_iff, Bool.not_eq_true,
      Bool.not_eq_true]
  rw [hprep, ha.journalsTarget h hi, ha.journalsDest h hs hi, ha.empty_rollback h hs hq hi]
  constructor
  · rintro ⟨ht, hd⟩
    refine ⟨⟨fun hb => hd (.inl hb), fun hn => ?_, fun oldin ho hne => ?_⟩, fun oldin ho hdir hown => ?_⟩
    · rw [← Bool.not_eq_true]
      exact fun hA => hd (.inr ⟨hn, hA⟩)
    · cases hl : s.destdnl r with
      | null => simp [hl, Linkage.inode] at ho
      | primary j =>
        rw [hl] at ho
        cases ho
        have ho : (s.destdnl r).ino = some oldin := by rw [hl]; rfl
        obtain ⟨dn, hdn⟩ := h.straydn ho
        exact ha.auth_oldin h hdn ho
      | remote j =>
        rw [hl] at ho
        cases ho
        have hlm : s.linkmerge r = false := by
          rw [linkmerge, hi, hl]
          simp [Linkage.inode, Ne.symm hne]
        rw [← Bool.not_eq_true]
        exact fun hA => ht (.inl ⟨hlm, oldin, hl, hA⟩)
    · exact ht (.inr ⟨oldin, ho, hdir, hown⟩)
  · rintro ⟨⟨hb, hn, ho⟩, hown⟩
    refine ⟨?_, ?_⟩
    · rintro (⟨hlm, oldin, hl, hA⟩ | ⟨oldin, hino, hdir, hfrag⟩)
      · by_cases hne : oldin = srci
        · -- both are remote links of one inode
          have hnone : (s.srcdnl r).ino = none := by
            cases hsl : s.srcdnl r with
            | null => rfl
            | remote j => rfl
            | primary j =>
              rw [hsl] at hi
              cases hi
              simp [linkmerge, hsl, hl, hne, Linkage.inode, Linkage.isPrimary] at hlm
          rw [hne, hn (by rw [hnone]; rfl)] at hA
          cases hA
        · rw [ho oldin (by rw [hl]; rfl) hne] at hA
          cases hA
      · exact hown oldin hino hdir hfrag
    · rintro (hb' | ⟨hnone, hA⟩)
      · exact hb hb'
      · rw [hn hnone] at hA
        cases hA

theorem journalsAlike_iff [AddCommGroup L] (h : s.Admitted I w r t' p') (hr : s.renameApply I r t' p' = .ok s')
    (resolve : Bool) :
    JournalsAlike I w M s r s' resolve ↔
      ∀ oldin, (s.destdnl r).ino = some oldin → s.isDir oldin = true → s.OwnsFrag w oldin →
        s.dentryIsAuth I w r.srcdn = true ∨ ∃ srci, (s.srcdnl r).ino = some srci ∧ s.OwnsBelow w srci := by
  have ha := h.applied hr
  obtain ⟨srci, hi⟩ := h.srci
  obtain ⟨b, hb, hempty⟩ := renamePrepare_ok h (M := M)
  rw [ha.journalsAlike h hb]
  cases hs : s.dentryIsAuth I w r.srcdn with
  | true =>
    rw [ha.empty_rollbackBlob h hi, hempty, hs]
    exact iff_of_true (by simp) fun _ _ _ _ => .inl rfl
  | false =>
    rw [Bool.eq_iff_iff, ha.empty_prepare h hempty hs hs, iff_self_and, ha.empty_rollback h hs hs hi]
    have hsrc : ∀ oldin, (s.destdnl r).ino = some oldin → s.isDir oldin = true →
        s.isDir srci = true ∧ (s.srcdnl r).ino = some srci := by
      intro oldin ho hdir
      have hd : s.isDir srci = true := (h.kinds srci oldin hi (ino_inode ho).2).trans hdir
      exact ⟨hd, h.ino_of_isDir (.inl rfl) hi hd⟩
    constructor
    · intro hno oldin ho hdir hown
      obtain ⟨hd, hino⟩ := hsrc oldin ho hdir
      obtain ⟨dn, hdn⟩ := h.straydn ho
      by_contra hb
      rw [not_or] at hb
      refine hno ⟨fun hb' => hb.2 ⟨srci, hino, hb'.2⟩, fun hn => by simp [hino] at hn, fun o hoi _ => ?_⟩
        oldin ho hdir hown
      rw [(ino_inode ho).2] at hoi
      cases hoi
      exact ha.auth_oldin h hdn ho
    · rintro hown ⟨hb, -⟩ oldin ho hdir hfrag
      obtain ⟨hd, hino⟩ := hsrc oldin ho hdir
      obtain hf | ⟨i, hi', hbelow⟩ := hown oldin ho hdir hfrag
      · cases hf
      · rw [hino] at hi'
        cases hi'
        exact hb ⟨hd, hbelow⟩

end Slave

/-! ## A directory over another -/

/-- The number of dentries. -/
def MetaBlob.counting (ι α δ : Type) : MetaBlob ι α δ ℕ where
  start := 0
  empty b := b == 0
  addPrimaryDentry _ b := b + 1
  addRemoteDentry _ b := b + 1
  addNullDentry _ b := b + 1
  addDirContext _ b := b
  addDir _ b := b
  journalCowDentry _ b := b
  predirtyJournalParents _ _ b := b
  noteRenamedDir _ b := b
  empty_start := rfl
  empty_addPrimaryDentry _ _ := rfl
  empty_addRemoteDentry _ _ := rfl
  empty_addNullDentry _ _ := rfl
  empty_addDirContext h := h
  empty_addDir h := h
  empty_journalCowDentry h := h
  empty_predirty h := h
  empty_noteRenamedDir _ _ := rfl

namespace Slave

/-- Fragment 0 is the root, and 1 a stray directory. The directories `a` and
`b` are fragments 2 and 3, and 4 is in `a`; `b` is in fragment `p`. -/
def homes (p : Fin 5) (h : ∀ d i q : Fin 5, some d = some i →
    ![none, none, some 0, some p, some 2] i = some q → q < d) : DirTree (Fin 5) (Fin 5) :=
  .small some ![none, none, some 0, some p, some 2] h

local instance dentriesNeZero : NeZero 4 := ⟨by decide⟩

/-- The slave, with the dentries of `a` and `b`, a stray dentry and one in `a`. -/
def slaveWith (c : Cache (Fin 5) (Fin 5) ℤ) : Slave (Fin 5) (Fin 5) (Fin 4) ℤ where
  cache := c
  projected := homes 0 (by decide)
  dir := ![0, 0, 1, 2]
  linkage := ![.primary 2, .primary 3, .null, .primary 4]
  parentDn := ![none, none, some 0, some 1, some 3]
  isDir _ := true
  isStray i := i == 1
  hasDentry _ := true
  hasInode _ := true

/-- "mv a b". -/
def aOverB : Rename (Fin 4) := ⟨0, 1, some 2⟩

/-- Rank 0 has the root and the stray directory, and rank 1 has `b`. -/
def owns : Cache (Fin 5) (Fin 5) ℤ :=
  (((Cache.empty (homes 0 (by decide))).delegateTo 0 0).delegateTo 1 0).delegateTo 3 1

/-- And what is in `a`. -/
def ownsBoth : Cache (Fin 5) (Fin 5) ℤ := owns.delegateTo 4 1

theorem admitted_homes {c : Cache (Fin 5) (Fin 5) ℤ} (hc : c = owns ∨ c = ownsBoth) :
    (slaveWith c).Admitted (.nearest _ _) 1 aOverB (homes 1 (by decide)) (homes 1 (by decide)) := by
  rcases hc with rfl | rfl <;> exact {
    rank := by decide +kernel
    inv := ⟨by decide +kernel, by decide +kernel, by decide +kernel, by decide +kernel, by decide +kernel⟩
    tree := ⟨by decide +kernel, by decide +kernel, by decide +kernel, by decide +kernel,
      by unfold Outside; decide +kernel, by unfold Outside; decide +kernel⟩
    after := ⟨rfl, rfl, by decide +kernel, by decide +kernel, by decide +kernel⟩
    projected := ⟨by decide +kernel, by decide +kernel, by decide +kernel, by decide +kernel,
      by unfold Outside; decide +kernel, by unfold Outside; decide +kernel⟩
    projectedAfter := ⟨rfl, rfl, by decide +kernel, by decide +kernel, by decide +kernel⟩
    frags := rfl
    files := by decide +kernel
    linked := by decide +kernel
    straydn_ne := by decide +kernel
    src := by decide +kernel
    stray := by decide +kernel
    ne := by decide +kernel
    fromStray := by decide +kernel
    kinds := by decide +kernel
    links := by decide +kernel
    dest_auth := by decide +kernel
    stray_auth := by decide +kernel
    pinned := by decide +kernel
    pinnedInode := by decide +kernel }

theorem journalsAlike_owns : ∃ s', (slaveWith ownsBoth).renameApply (.nearest _ _) aOverB (homes 1 (by decide))
    (homes 1 (by decide)) = .ok s' ∧
    JournalsAlike (.nearest _ _) 1 (.counting _ _ _) (slaveWith ownsBoth) aOverB s' false := by
  have h := admitted_homes (.inr rfl)
  have hr := eq_get (d := slaveWith ownsBoth) (x := (slaveWith ownsBoth).renameApply (.nearest _ _) aOverB
    (homes 1 (by decide)) (homes 1 (by decide))) (by decide +kernel)
  refine ⟨_, hr, (journalsAlike_iff h hr false).mpr fun oldin _ _ _ => .inr ⟨2, rfl, ?_⟩⟩
  exact ⟨2, by decide, 4, by decide, by decide, by decide, by decide⟩

/-- Rank 1 has `b` and nothing in `a`: the stray dentry was journaled, and now
nothing is. -/
theorem not_journalsAlike : ∃ s', (slaveWith owns).Admitted (.nearest _ _) 1 aOverB (homes 1 (by decide))
    (homes 1 (by decide)) ∧
    (slaveWith owns).renameApply (.nearest _ _) aOverB (homes 1 (by decide)) (homes 1 (by decide)) = .ok s' ∧
    (∃ b, (slaveWith owns).renamePrepare (.nearest _ _) 1 aOverB (.counting _ _ _) = .ok b ∧
      (MetaBlob.counting (Fin 5) (Fin 5) (Fin 4)).empty b = false) ∧
    ∀ resolve, s'.doRenameRollback (.nearest _ _) 1 ((slaveWith owns).rollback aOverB) (.counting _ _ _) true resolve =
      .error .assert := by
  have hr := eq_get (d := slaveWith owns) (x := (slaveWith owns).renameApply (.nearest _ _) aOverB
    (homes 1 (by decide)) (homes 1 (by decide))) (by decide +kernel)
  refine ⟨_, admitted_homes (.inl rfl), hr, ⟨1, rfl, rfl⟩, fun resolve => ?_⟩
  cases resolve
  · exact rfl
  · exact rfl

end Slave

end CephMds.SlaveRename
