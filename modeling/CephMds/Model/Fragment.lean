import CephMds.Model.Subtree

/-!
# Refragmentation of a directory

`MDCache::adjust_dir_fragments` with what `CDir::split` and `CDir::merge` do to
the fragments and to the subtree map. The new fragments are pointers that are
free before (`Steals`); the fragment that each dentry goes to, by the hash of
its name, is given by `pick` on the inodes of the dentries.
-/

namespace CephMds

variable {ι α : Type}

/-- The least depth among `srcs`. -/
def DirTree.leastDepth (t : DirTree ι α) (srcs : List α) : ℕ := (srcs.map t.depth).min?.getD 0

/-- `news` are free pointers, and every dentry of the fragments `srcs` of the
inode `i` has a place in `news`. -/
structure Steals (t : DirTree ι α) (i : ι) (srcs news : List α) (pick : ι → α) : Prop where
  src {s : α} : s ∈ srcs → t.inode s = some i
  ne_nil : srcs ≠ []
  nodup : news.Nodup
  free {f : α} : f ∈ news → t.inode f = none
  unused {f : α} {j : ι} : f ∈ news → t.parentDir j ≠ some f
  pick {j : ι} {s : α} : t.parentDir j = some s → s ∈ srcs → pick j ∈ news

section LeastDepth

variable {t : DirTree ι α} {srcs : List α}

theorem DirTree.leastDepth_le {s : α} (hs : s ∈ srcs) : t.leastDepth srcs ≤ t.depth s := by
  unfold DirTree.leastDepth
  cases hm : (srcs.map t.depth).min? with
  | none => exact Nat.zero_le _
  | some n => exact (List.min?_eq_some_iff.mp hm).2 _ (List.mem_map_of_mem hs)

theorem DirTree.leastDepth_mem (h : srcs ≠ []) : ∃ s ∈ srcs, t.leastDepth srcs = t.depth s := by
  unfold DirTree.leastDepth
  cases hm : (srcs.map t.depth).min? with
  | none =>
    rw [List.min?_eq_none_iff, List.map_eq_nil_iff] at hm
    exact absurd hm h
  | some n =>
    obtain ⟨s, hs, he⟩ := List.mem_map.mp (List.min?_eq_some_iff.mp hm).1
    exact ⟨s, hs, he.symm⟩

end LeastDepth

variable [DecidableEq ι] [LinearOrder α]

/-- The tree in which `news` are fragments of `i`, too, and have the dentries
of `srcs` (`add_dirfrag`, `steal_dentry`). -/
def DirTree.steal (t : DirTree ι α) (i : ι) (srcs news : List α) (pick : ι → α)
    (h : Steals t i srcs news pick) : DirTree ι α where
  dirs := t.dirs ∪ news.toFinset
  inode x := if x ∈ news then some i else t.inode x
  mem_dirs {x} := by
    rw [Finset.mem_union, t.mem_dirs, List.mem_toFinset]
    split <;> simp [*]
  dirfrags j := if j = i then t.dirfrags i ++ news else t.dirfrags j
  mem_dirfrags {x j} := by
    by_cases hj : j = i
    · subst hj
      rw [if_pos rfl, List.mem_append, t.mem_dirfrags]
      split <;> simp [*]
    · rw [if_neg hj, t.mem_dirfrags]
      split
      · rename_i hx
        rw [h.free hx, Option.some.injEq]
        exact ⟨(by rintro ⟨⟩), fun h => absurd h.symm hj⟩
      · rfl
  nodup_dirfrags j := by
    split
    · refine List.nodup_append.mpr ⟨t.nodup_dirfrags i, h.nodup, ?_⟩
      rintro x hx y hy rfl
      rw [t.mem_dirfrags, h.free hy] at hx
      cases hx
    · exact t.nodup_dirfrags j
  parentDir j := (t.parentDir j).map fun q => if q ∈ srcs then pick j else q
  isBase := t.isBase
  isRoot := t.isRoot
  root_base := t.root_base
  base_parent hb := by rw [t.base_parent hb]; rfl
  depth x := if x ∈ news then t.leastDepth srcs else t.depth x
  depth_lt {x q j} hx hq := by
    obtain ⟨p, hp, rfl⟩ := Option.map_eq_some_iff.mp hq
    by_cases hps : p ∈ srcs
    · rw [if_pos hps, if_pos (h.pick hp hps)]
      have hle := t.leastDepth_le hps
      by_cases hxn : x ∈ news
      · rw [if_pos hxn, Option.some.injEq] at hx
        subst hx
        exact absurd (t.depth_lt (h.src hps) hp) (lt_irrefl _)
      · rw [if_neg hxn] at hx ⊢
        exact hle.trans_lt (t.depth_lt hx hp)
    · have hpn : p ∉ news := fun hpn => h.unused hpn hp
      rw [if_neg hps, if_neg hpn]
      by_cases hxn : x ∈ news
      · rw [if_pos hxn] at hx ⊢
        obtain ⟨s, hs, he⟩ := t.leastDepth_mem h.ne_nil
        rw [he]
        exact t.depth_lt ((h.src hs).trans hx) hp
      · rw [if_neg hxn] at hx ⊢
        exact t.depth_lt hx hp

/-- The tree without the fragment `d` (`CInode::close_dirfrag`). -/
def DirTree.close (t : DirTree ι α) (d : α) : DirTree ι α where
  dirs := t.dirs.erase d
  inode := Function.update t.inode d none
  mem_dirs {x} := by
    by_cases hx : x = d <;> simp [hx, t.mem_dirs]
  dirfrags j := (t.dirfrags j).filter (· ≠ d)
  mem_dirfrags {x j} := by
    by_cases hx : x = d <;> simp [hx, t.mem_dirfrags]
  nodup_dirfrags j := (t.nodup_dirfrags j).filter _
  parentDir := t.parentDir
  isBase := t.isBase
  isRoot := t.isRoot
  root_base := t.root_base
  base_parent := t.base_parent
  depth := t.depth
  depth_lt {x q j} hx hq := by
    by_cases hxd : x = d
    · rw [hxd, Function.update_self] at hx
      cases hx
    · rw [Function.update_of_ne hxd] at hx
      exact t.depth_lt hx hq

namespace Cache

variable {L : Type}

open Checked

/-- The deletion of the fragment: a pointer that is used again starts with
the values of the constructor. -/
def closeDirfrag (c : Cache ι α L) (d : α) : Cache ι α L :=
  { c with tree := c.tree.close d, dirAuth := Function.update c.dirAuth d cdirAuthDefault }

/-- `finish_old_fragment`, for the pin. -/
def finishOldFragment (c : Cache ι α L) (d : α) : Checked (Cache ι α L) :=
  if c.isSubtreeRoot d then c.putPin d else return c

/-! ## Split -/

/-- `CDir::split` of `dir` into `subs`, which share its load (`fac`). -/
def splitDir (c : Cache ι α L) (i : ι) (dir : α) (subs : List α) (pick : ι → α) (fac : L → L)
    (h : Steals c.tree i [dir] subs pick) : Checked (Cache ι α L) :=
  finishOldFragment
    { c with
      tree := c.tree.steal i [dir] subs pick h
      dirAuth x := if x ∈ subs then c.dirAuth dir else c.dirAuth x
      pinSubtree x := if x ∈ subs then (if c.isSubtreeRoot dir then 1 else 0) else c.pinSubtree x
      exportBound x := if x ∈ subs then c.exportBound dir else c.exportBound x
      isAuth x := if x ∈ subs then c.isAuth dir else c.isAuth x
      popAuthSubtree x := if x ∈ subs then fac (c.popAuthSubtree dir) else c.popAuthSubtree x }
    dir

/-- "Was i a bound?". -/
def replaceBound (c : Cache ι α L) (parentSubtree : Option α) (dir : α) (subs : List α) :
    Checked (Cache ι α L) :=
  match parentSubtree with
  | none => return c
  | some r => do
    assert (dir ∈ c.bounds r)
    return subs.foldl (fun c f => c.insertBound r f) (c.eraseBound r dir)

/-- "Adjust my bounds": each goes to the new fragment it is below. -/
def distributeBounds (c : Cache ι α L) (bounds : Finset α) : Checked (Cache ι α L) :=
  (ascending bounds).foldlM (fun c p => do
    let q ← deref (c.getParentDir p)
    let frag ← deref (c.getSubtreeRoot q)
    return c.insertBound frag p) c

/-- "Did i change the subtree map?". -/
def splitSubtree (c : Cache ι α L) (parentSubtree : Option α) (dir : α) (subs : List α) :
    Checked (Cache ι α L) :=
  if c.isSubtreeRoot dir then do
    let c := subs.foldl (fun c f => c.setBounds f ∅) c
    let c ← c.replaceBound parentSubtree dir subs
    let bounds := c.bounds dir
    let c ← (c.eraseSubtree dir).distributeBounds bounds
    return c.setDirAuth dir cdirAuthDefault
  else return c

/-- `adjust_dir_fragments` with `bits > 0`: `dir` is split into `subs`. -/
def adjustDirFragmentsSplit (c : Cache ι α L) (i : ι) (dir : α) (subs : List α) (pick : ι → α)
    (fac : L → L) (h : Steals c.tree i [dir] subs pick) : Checked (Cache ι α L) := do
  let parentSubtree := (c.tree.parentDir i).bind c.getSubtreeRoot
  let c ← c.splitDir i dir subs pick fac h
  let c ← c.splitSubtree parentSubtree dir subs
  return c.closeDirfrag dir

/-! ## Merge -/

/-- "Taking srcfrag subtree bounds". -/
def takeBounds (parentSubtree : Option α) (b : Cache ι α L × Finset α) (dir : α) :
    Checked (Cache ι α L × Finset α) :=
  if b.1.isSubtreeRoot dir then do
    let bs ← deref (b.1.subtrees dir)
    let c := b.1.eraseSubtree dir
    return (parentSubtree.elim c fun r => c.eraseBound r dir, b.2 ∪ bs)
  else return b

/-- The loop of `CDir::merge` over the old fragments. -/
def mergeSources (c : Cache ι α L) (srcs : List α) : Checked (Cache ι α L) :=
  srcs.foldlM (fun c dir => do
    let c ← c.finishOldFragment dir
    return c.closeDirfrag dir) c

/-- `CDir::merge` of `srcs` into `f`, which ends with the authority of the
last of them. -/
def mergeDir [Zero L] (c : Cache ι α L) (i : ι) (srcs : List α) (f : α)
    (h : Steals c.tree i srcs [f] fun _ => f) : Checked (Cache ι α L) := do
  let auth := c.dirAuth (srcs.getLast h.ne_nil)
  let c ← mergeSources
    { c with
      tree := c.tree.steal i srcs [f] (fun _ => f) h
      dirAuth := Function.update c.dirAuth f auth
      pinSubtree := Function.update c.pinSubtree f 0
      exportBound := Function.update c.exportBound f (srcs.any c.exportBound)
      isAuth := Function.update c.isAuth f (c.isAuth (srcs.head h.ne_nil))
      popAuthSubtree := Function.update c.popAuthSubtree f 0 } srcs
  return if c.isSubtreeRoot f then c.getPin f else c

/-- `subtrees[f].swap(new_bounds)`, and `f` as a bound. -/
def mergeSubtree (c : Cache ι α L) (parentSubtree : Option α) (f : α) (newBounds : Finset α) :
    Cache ι α L :=
  let c := c.setBounds f newBounds
  parentSubtree.elim c fun r => c.insertBound r f

/-- `adjust_dir_fragments` with `bits <= 0`: `srcs` are merged into `f`. -/
def adjustDirFragmentsMerge [Zero L] (c : Cache ι α L) (i : ι) (srcs : List α) (f : α)
    (h : Steals c.tree i srcs [f] fun _ => f) : Checked (Cache ι α L) := do
  let parentSubtree := (c.tree.parentDir i).bind c.getSubtreeRoot
  let wasSubtree := srcs.any c.isSubtreeRoot
  -- The loop changes nothing but the map.
  let b ← srcs.foldlM (takeBounds parentSubtree) (c, ∅)
  let c ← mergeDir { c with subtrees := b.1.subtrees } i srcs f h
  return if wasSubtree then c.mergeSubtree parentSubtree f b.2 else c

end Cache

end CephMds
