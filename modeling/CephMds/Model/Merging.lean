import CephMds.Framework.BinaryPath
import CephMds.Framework.Run
import Mathlib

/-!
# Merging dirfrags that have become small

The second half of `MDBalancer::do_fragmenting`, which goes through the merge
queue and calls `MDCache::merge_dir` for the largest frag it finds. A frag is a
node of a binary tree. What `merge_dir` does to the cache is an argument.
-/

namespace CephMds.Merging

open BinaryPath

/-- `frag_t`: `get_sibling` and `parent` are `sibling` and `parent`. -/
abbrev Frag := BinaryPath

/-- What is asked of a dirfrag. -/
structure CDir where
  isAuth : Bool
  fragSize : ℤ

def CDir.shouldMerge (mergeSize : ℤ) (dir : CDir) : Bool := dir.fragSize < mergeSize

/-- A directory: the leaves of its fragtree, and those that are cached. -/
structure Directory where
  leaves : List Frag
  prefixFree : PrefixFree fun f => f ∈ leaves
  dirfrags : Frag → Option CDir
  cached {f : Frag} {dir : CDir} : dirfrags f = some dir → f ∈ leaves

namespace Directory

variable (mergeSize : ℤ) (d : Directory)

def leavesUnder (fg : Frag) : List Frag := d.leaves.filter fun g => fg.isSuffixOf g

/-- `get_dirfrags_under`: whether all leaves under a frag are cached, and those that are. -/
def getDirfragsUnder (fg : Frag) : Bool × List CDir :=
  ((d.leavesUnder fg).all fun g => (d.dirfrags g).isSome, (d.leavesUnder fg).filterMap d.dirfrags)

/-- The test in the loop: all siblings are cached, and should merge. -/
def sibsShouldMerge (sibfg : Frag) : Bool :=
  let (complete, sibs) := d.getDirfragsUnder sibfg
  complete && sibs.all fun sib => sib.isAuth && sib.shouldMerge mergeSize

/-- What the loop makes of `fg`. -/
def mergeFrag (fg : Frag) : Frag := ascend (d.sibsShouldMerge mergeSize) fg

/-- The frag that `merge_dir` is called for, if it is. -/
def visit (f : Frag) : Option Frag :=
  match d.dirfrags f with
  | none => none
  | some dir =>
    -- "Ok who's the joker?"
    if !dir.isAuth || f == [] then none
    else if d.mergeFrag mergeSize f ≠ f then some (d.mergeFrag mergeSize f) else none

end Directory

variable {ι : Type}

/-- The directories of the cache. -/
abbrev Cache (ι : Type) := ι → Option Directory

/-- A call of `merge_dir`, in the cache at that moment. -/
structure MergeCall (ι : Type) where
  cache : Cache ι
  diri : ι
  queued : Frag
  fg : Frag

/-- One of the queue: the call, if there is one. -/
def mergeCall (mergeSize : ℤ) (c : Cache ι) (df : ι × Frag) : Option (MergeCall ι) :=
  (c df.1).bind fun d => (d.visit mergeSize df.2).map fun fg => ⟨c, df.1, df.2, fg⟩

/-- The cache after one of the queue. -/
def mergeStep (mergeDir : Cache ι → ι → Frag → Cache ι) (mergeSize : ℤ) (c : Cache ι) (df : ι × Frag) :
    Option (Cache ι) :=
  some ((mergeCall mergeSize c df).elim c fun m => mergeDir c m.diri m.fg)

/-- The calls of `merge_dir` by `do_fragmenting`, for the merge queue in its order. -/
def doFragmenting (mergeDir : Cache ι → ι → Frag → Cache ι) (mergeSize : ℤ) : Cache ι → List (ι × Frag) → List (MergeCall ι)
  | _, [] => []
  | c, df :: q =>
    match mergeCall mergeSize c df with
    | none => doFragmenting mergeDir mergeSize c q
    | some m => m :: doFragmenting mergeDir mergeSize (mergeDir c m.diri m.fg) q

end CephMds.Merging
