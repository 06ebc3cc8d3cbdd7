import CephMds.Model.Items
import CephMds.Model.Stat

/-!
# Is a directory empty?

`Server::_dir_is_nonempty`. A directory has a fragment for each leaf of its
fragtree, with the dentries and the projected fnode; some of them are in the
cache.
-/

namespace CephMds.EmptyDir

open Stat

structure Leaf where
  dir : Items.CDir
  /-- `get_projected_fnode()`, as it is known. -/
  fnode : Fnode

structure Directory (α : Type) where
  leaves : Finset α
  leaf : α → Leaf
  /-- The fragments in the cache, as `get_dirfrags` lists them. -/
  dirfrags : List α
  nodup : dirfrags.Nodup
  mem_leaves {f : α} : f ∈ dirfrags → f ∈ leaves
  /-- `dirstat` of the projected inode. -/
  dirstat : FragInfo

/-- What is added up for a fragment. -/
def counted (dirstatVersion : ℕ) (pf : Fnode) : FragInfo :=
  if pf.accountedFragstat.version = dirstatVersion then pf.accountedFragstat else pf.fragstat

/-- The loop over the fragments, which ends at one that has entries. -/
def addAll (dirstatVersion : ℕ) : FragInfo → List Fnode → Option FragInfo
  | dirstat, [] => some dirstat
  | dirstat, pf :: ls =>
    if pf.fragstat.size ≠ 0 then none
    else addAll dirstatVersion (dirstat.add (counted dirstatVersion pf)) ls

/-- `Server::_dir_is_nonempty`. -/
def Directory.dirIsNonempty {α : Type} (d : Directory α) : Bool :=
  match addAll d.dirstat.version FragInfo.zero (d.dirfrags.map fun f => (d.leaf f).fnode) with
  | none => true
  | some dirstat => dirstat.size ≠ d.dirstat.size

end CephMds.EmptyDir
