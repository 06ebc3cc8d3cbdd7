import CephMds.Model.Fragment
import Mathlib

/-!
# Removal of an inode with what is cached below it

`MDCache::remove_inode_recursive` and `MDCache::remove_subtree`. `inodes` stands
for `inode_map`, in the order in which the items of a fragment are visited; the
items that are no primary dentries have nothing to do with the subtree map and
are left out, and so are the other pins and dirty states of what is removed.
-/

namespace CephMds

variable {ι α L : Type} [DecidableEq ι] [LinearOrder α]

/-- The tree in which the inode `k` has no dentry (`CDir::unlink_inode`). -/
def DirTree.unlink (t : DirTree ι α) (k : ι) : DirTree ι α where
  dirs := t.dirs
  inode := t.inode
  mem_dirs := t.mem_dirs
  dirfrags := t.dirfrags
  mem_dirfrags := t.mem_dirfrags
  nodup_dirfrags := t.nodup_dirfrags
  parentDir := Function.update t.parentDir k none
  isBase := t.isBase
  isRoot := t.isRoot
  root_base := t.root_base
  base_parent {i} hb := by
    by_cases hi : i = k
    · rw [hi, Function.update_self]
    · rw [Function.update_of_ne hi, t.base_parent hb]
  depth := t.depth
  depth_lt {d q i} hd hq := by
    by_cases hi : i = k
    · rw [hi, Function.update_self] at hq
      cases hq
    · rw [Function.update_of_ne hi] at hq
      exact t.depth_lt hd hq

namespace Cache

open Checked

def unlinkInode (c : Cache ι α L) (k : ι) : Cache ι α L := { c with tree := c.tree.unlink k }

/-- The inodes whose primary dentry is in the fragment. -/
def items (c : Cache ι α L) (inodes : List ι) (subdir : α) : List ι :=
  inodes.filter fun k => c.tree.parentDir k = some subdir

/-- The end of `remove_subtree`: `dir` is no bound any more. -/
def leaveBounds (c : Cache ι α L) (dir : α) : Checked (Cache ι α L) :=
  match c.getParentDir dir with
  | none => return c
  | some q => do
    -- A null pointer is no key, and so has no bounds.
    assert ((c.getSubtreeRoot q).any fun p => dir ∈ c.bounds p)
    let p ← deref (c.getSubtreeRoot q)
    return c.eraseBound p dir

def removeSubtree (c : Cache ι α L) (dir : α) : Checked (Cache ι α L) := do
  assert (c.subtrees dir).isSome
  assert (c.bounds dir = ∅)
  let c ← (c.eraseSubtree dir).putPin dir
  c.leaveBounds dir

def removeIfRoot (c : Cache ι α L) (subdir : α) : Checked (Cache ι α L) :=
  if c.isSubtreeRoot subdir then c.removeSubtree subdir else return c

/-- `remove_inode`: unlinked, if it is linked, and deleted. -/
def removeInode (c : Cache ι α L) (o : ι) : Cache ι α L := c.unlinkInode o

/-- "Removing dirfrag": each inode in it is unlinked, and removed by `recurse`. -/
def removeDirfrag (inodes : List ι) (recurse : Cache ι α L → ι → Checked (Cache ι α L)) (c : Cache ι α L)
    (subdir : α) : Checked (Cache ι α L) := do
  let c ← (c.items inodes subdir).foldlM (fun c tin => recurse (c.unlinkInode tin) tin) c
  let c ← c.removeIfRoot subdir
  return c.closeDirfrag subdir

/-- `remove_inode_recursive`, to a number of levels. -/
def removeLevels (inodes : List ι) : ℕ → Cache ι α L → ι → Checked (Cache ι α L)
  | 0, _, _ => .error .fuel
  | n + 1, c, i => do
    let c ← (c.tree.dirfrags i).foldlM (removeDirfrag inodes (removeLevels inodes n)) c
    return c.removeInode i

/-- More levels than there are fragments above one another. -/
def levels (c : Cache ι α L) : ℕ := c.tree.dirs.sup c.tree.depth + 2

def removeInodeRecursive (c : Cache ι α L) (inodes : List ι) (i : ι) : Checked (Cache ι α L) :=
  removeLevels inodes c.levels c i

end Cache

end CephMds
