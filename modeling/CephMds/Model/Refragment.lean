import CephMds.Framework.LeadingBits
import CephMds.Model.DentryKey
import CephMds.Model.Freeze
import CephMds.Model.Stat
import Mathlib

/-!
# Splitting and merging dirfrags

`CDir::split` and `CDir::merge`, with `steal_dentry` and the other functions
that they call, and `MDCache::adjust_dir_fragments` but for the subtree map. The
auth pins, the freezing state and the waiters of a dirfrag are those of
`Freeze.CDir`. Of `include/frag.h` and `CInode` there is what a dirfrag reads of
them: a frag stands for the hashes with certain leading bits, the fragtree has a
leaf for each hash. The popularity of a dirfrag and the bloom filter are left
out. A counter is an integer, so that one that falls below zero shows.
-/

namespace CephMds.Refragment

open Checked Dentries Waiting Stat
open Freeze (Surroundings)

/-! ## Data -/

/-- `frag_t`: `value`, `bits`, `mask`, `mask_shift`, `contains` and `make_child`. -/
abbrev Frag := Leading 24

/-- `DT_DIR`. -/
def dtDir : Byte := 4

/-- What is read of the inode of a primary dentry. -/
structure CInode where
  ino : ℕ
  isDir : Bool
  /-- `inode.accounted_rstat`. -/
  accountedRstat : NestInfo
  /-- The same of the projected inodes, the latest one at the end. -/
  projectedRstats : List NestInfo
  dirtyRstat : Bool

/-- `get_projected_inode()->accounted_rstat`. -/
def CInode.projectedRstat (i : CInode) : NestInfo := i.projectedRstats.getLast?.getD i.accountedRstat

/-- `CDentry::linkage_t`. -/
inductive Linkage
  | null
  | remote (ino : ℕ) (dType : Byte)
  | primary (inode : CInode)

structure Dentry where
  name : List Byte
  last : Snapid
  linkage : Linkage
  dirty : Bool
  authPins : ℕ
  nestedAuthPins : ℕ
  /-- `get_num_dir_auth_pins`. -/
  dirAuthPins : ℕ

def Dentry.key (dn : Dentry) : Key := ⟨dn.name, dn.last⟩

def Dentry.isHead (dn : Dentry) : Bool := dn.last = cephNosnap

/-- The pins of a dirfrag that `Freeze.CDir` does not have. `other` stands for those that no
function here takes or puts. -/
inductive Pin
  | child
  | subtree
  | importbound
  | exportbound
  | sticky
  | replicated
  | dirty
  | other
  deriving DecidableEq

def Pin.all : List Pin := [.child, .subtree, .importbound, .exportbound, .sticky, .replicated, .dirty, .other]

structure CDir (ν κ : Type) where
  frag : Frag
  items : Std.ExtTreeMap Key Dentry
  numHeadItems : ℤ
  numHeadNull : ℤ
  numSnapItems : ℤ
  numSnapNull : ℤ
  numDirty : ℤ
  version : ℕ
  fnode : Fnode
  dirtyRstatInodes : List ℕ
  complete : Bool
  dirty : Bool
  importbound : Bool
  exportbound : Bool
  rejoinundef : Bool
  sticky : Bool
  replicaMap : Std.ExtTreeMap ℤ ℕ
  pins : Pin → ℕ
  freeze : Freeze.CDir ν κ

/-- What is read of the inode of the directory. -/
structure Diri where
  /-- The versions of `rstat` and `dirstat` of the projected inode. -/
  rstatVersion : ℕ
  dirstatVersion : ℕ
  hashDentryName : List Byte → ℕ
  dirfragtree : Cover 24
  surroundings : Surroundings

def Diri.pickDirfrag (i : Diri) (name : List Byte) : Frag := i.dirfragtree.pick (i.hashDentryName name)

namespace CDir

variable {ν κ : Type}

/-- The constructor. -/
def new (frag : Frag) (auth : Bool) : CDir ν κ where
  frag := frag
  items := ∅
  numHeadItems := 0
  numHeadNull := 0
  numSnapItems := 0
  numSnapNull := 0
  numDirty := 0
  version := 0
  fnode := ⟨.zero, .zero, .zero, .zero⟩
  dirtyRstatInodes := []
  complete := false
  dirty := false
  importbound := false
  exportbound := false
  rejoinundef := false
  sticky := false
  replicaMap := ∅
  pins _ := 0
  freeze := .new auth

variable (d : CDir ν κ) (i : Diri)

def isAuth : Bool := d.freeze.isAuth

def isSubtreeRoot : Bool := d.freeze.isSubtreeRoot

def getNumAny : ℤ := d.numHeadItems + d.numHeadNull + d.numSnapItems + d.numSnapNull

def get (p : Pin) : CDir ν κ := { d with pins := Function.update d.pins p (d.pins p + 1) }

def put (p : Pin) : Checked (CDir ν κ) := do
  assert (0 < d.pins p)
  pure { d with pins := Function.update d.pins p (d.pins p - 1) }

def getNumRef : ℕ :=
  (Pin.all.map d.pins).sum + d.freeze.pinAuthpin + d.freeze.pinFrozen + d.freeze.waiters.pinWaiter +
    d.freeze.waiters.pinDnwaiter

/-! ## Statistics -/

/-- `nsubdirs++`, or `nfiles++`. -/
def countEntry (isDir : Bool) : CDir ν κ :=
  { d with fnode.fragstat.count := d.fnode.fragstat.count + if isDir then (0, 1) else (1, 0) }

/-- The statistics of a head dentry with a primary inode. -/
def countInode (inode : CInode) : CDir ν κ :=
  let d := d.countEntry inode.isDir
  let d := { d with fnode.rstat := d.fnode.rstat.add inode.projectedRstat }
  if inode.dirtyRstat then { d with dirtyRstatInodes := d.dirtyRstatInodes ++ [inode.ino] } else d

/-- The counters and the statistics of `steal_dentry`. -/
def countDentry (dn : Dentry) : CDir ν κ :=
  match dn.linkage with
  | .null => if dn.isHead then { d with numHeadNull := d.numHeadNull + 1 } else { d with numSnapNull := d.numSnapNull + 1 }
  | .primary inode =>
    if dn.isHead then countInode { d with numHeadItems := d.numHeadItems + 1 } inode
    else { d with numSnapItems := d.numSnapItems + 1 }
  | .remote _ dType =>
    if dn.isHead then countEntry { d with numHeadItems := d.numHeadItems + 1 } (dType == dtDir)
    else { d with numSnapItems := d.numSnapItems + 1 }

/-- The inode leaves the list of its old dirfrag when it is pushed on another. -/
def dropDirtyRstat (dn : Dentry) : CDir ν κ :=
  match dn.linkage with
  | .primary inode =>
    if dn.isHead && inode.dirtyRstat then { d with dirtyRstatInodes := d.dirtyRstatInodes.erase inode.ino } else d
  | _ => d

/-! ## Stealing -/

def adjustNestedAuthPins (inc dirinc : ℤ) : Checked (CDir ν κ) := do
  let freeze ← d.freeze.adjustNestedAuthPins i.surroundings inc dirinc
  pure { d with freeze := freeze }

/-- The auth pins of a dentry that goes from `old` to `d`. -/
def moveAuthPins (old : CDir ν κ) (dn : Dentry) : Checked (CDir ν κ × CDir ν κ) :=
  if dn.authPins ≠ 0 ∨ dn.nestedAuthPins ≠ 0 then do
    let ap := dn.authPins + dn.nestedAuthPins
    let dap := dn.dirAuthPins
    assert (dap ≤ ap)
    let d ← d.adjustNestedAuthPins i ap dap
    let old ← old.adjustNestedAuthPins i (-ap) (-dap)
    pure (d, old)
  else pure (d, old)

def insertItem (dn : Dentry) : CDir ν κ := { d with items := d.items.insert dn.key dn }

def eraseItem (dn : Dentry) : CDir ν κ := { d with items := d.items.erase dn.key }

/-- `get(PIN_CHILD)`, before the first dentry is counted. -/
def getChild : CDir ν κ := if d.getNumAny == (0 : ℤ) then d.get .child else d

/-- `put(PIN_CHILD)`, after the last one. -/
def putChild : Checked (CDir ν κ) := if d.items.isEmpty then d.put .child else pure d

def countDirty (dn : Dentry) : CDir ν κ := if dn.dirty then { d with numDirty := d.numDirty + 1 } else d

/-- `steal_dentry`: `d` takes a dentry from `old`. -/
def stealDentry (old : CDir ν κ) (k : Key) : Checked (CDir ν κ × CDir ν κ) := do
  let dn ← deref old.items[k]?
  let old ← (old.eraseItem dn).putChild
  let s ← ((d.insertItem dn).getChild.countDentry dn).moveAuthPins i (old.dropDirtyRstat dn) dn
  pure (s.1.countDirty dn, s.2)

/-! ## Before and after -/

def prepareOldFragment (replay : Bool) : CDir ν κ :=
  if !replay && d.isAuth then { d with freeze := d.freeze.authPin .self } else d

def prepareNewFragment (replay : Bool) : CDir ν κ :=
  if !replay && d.isAuth then { d with freeze := d.freeze.doFreezeDir, complete := true } else d

/-- `WAIT_ANY_MASK`. -/
def waitAnyMask : UInt64 := 0 - 1

/-- "Take waiters _before_ unfreeze". -/
def releaseFreeze : Checked (CDir ν κ) := do
  let waiters ← d.freeze.waiters.takeWaiting waitAnyMask
  if d.isAuth then do
    let freeze ← Freeze.CDir.authUnpin i.surroundings { d.freeze with waiters := waiters } .self
    assert freeze.frozenDir
    let freeze ← freeze.unfreezeDir i.surroundings
    pure { d with freeze := freeze }
  else pure { d with freeze.waiters := waiters }

def putIf (b : Bool) (p : Pin) : Checked (CDir ν κ) := if b then d.put p else pure d

def clearReplicaMap : Checked (CDir ν κ) := do
  let d ← d.putIf (!d.replicaMap.isEmpty) .replicated
  pure { d with replicaMap := ∅ }

/-- `mark_clean`, which asks for `STATE_DIRTY` once more. -/
def markClean : Checked (CDir ν κ) := putIf { d with dirty := false } d.dirty .dirty

def resetCounters : CDir ν κ :=
  { d with numHeadItems := 0, numHeadNull := 0, numSnapItems := 0, numSnapNull := 0 }

def finishOldFragment (replay : Bool) : Checked (CDir ν κ) := do
  let d ← (if !replay then d.releaseFreeze i else pure d : Checked _)
  assert (d.freeze.nestedAuthPins == 0)
  assert (d.freeze.dirAuthPins == 0)
  assert (d.freeze.authPins == 0)
  let d := d.resetCounters
  let d ← (if d.isAuth then d.clearReplicaMap else pure d : Checked _)
  let d ← (if d.dirty then d.markClean else pure d : Checked _)
  let d ← d.putIf d.importbound .importbound
  let d ← d.putIf d.exportbound .exportbound
  let d ← d.putIf d.isSubtreeRoot .subtree
  -- `put(PIN_AUTHPIN)` is not reached: there are no auth pins.
  assert (d.getNumRef == d.sticky.toNat)
  pure d

def getIf (b : Bool) (p : Pin) : CDir ν κ := if b then d.get p else d

def initFragmentPins : CDir ν κ :=
  let d := d.getIf (!d.replicaMap.isEmpty) .replicated
  let d := d.getIf d.dirty .dirty
  let d := d.getIf d.exportbound .exportbound
  let d := d.getIf d.importbound .importbound
  d.getIf d.isSubtreeRoot .subtree

/-- `mark_complete`, if `b`. -/
def markComplete (b : Bool) : CDir ν κ := { d with complete := d.complete || b }

def setDirAuth (a : Auth) : Checked (CDir ν κ) := do
  let freeze ← d.freeze.setDirAuth i.surroundings a
  pure { d with freeze := freeze }

/-- `STATE_DIRTY`, `STATE_EXPORTBOUND`, `STATE_IMPORTBOUND` and `STATE_REJOINUNDEF`
(`MASK_STATE_FRAGMENT_KEPT`) of `old` are set. -/
def setKept (old : CDir ν κ) : CDir ν κ :=
  { d with
    dirty := d.dirty || old.dirty
    exportbound := d.exportbound || old.exportbound
    importbound := d.importbound || old.importbound
    rejoinundef := d.rejoinundef || old.rejoinundef }

/-- What a dirfrag has not told the inode yet, taken from what it has: "give any outstanding frag
stat differential". Statistics of another version do not count. -/
def addDiffs (diffs : NestInfo × FragInfo) : NestInfo × FragInfo :=
  (if d.fnode.accountedRstat.version = i.rstatVersion then diffs.1.addDelta d.fnode.accountedRstat d.fnode.rstat
    else diffs.1,
   if d.fnode.accountedFragstat.version = i.dirstatVersion then
    diffs.2.addDelta d.fnode.accountedFragstat d.fnode.fragstat
    else diffs.2)

/-- "Fix up new frag fragstats". -/
def fixUp : CDir ν κ :=
  let rstat := { d.fnode.rstat with version := i.rstatVersion }
  let fragstat := { d.fnode.fragstat with version := i.dirstatVersion }
  { d with fnode := ⟨fragstat, fragstat, rstat, rstat⟩ }

def give (diffs : NestInfo × FragInfo) : CDir ν κ :=
  { d with
    fnode.accountedRstat := d.fnode.accountedRstat.add diffs.1
    fnode.accountedFragstat := d.fnode.accountedFragstat.add diffs.2 }

/-! ## Split -/

/-- One of "create subfrag dirs". -/
def subfrag (replay : Bool) (frag : Frag) : Checked (CDir ν κ) := do
  let f := setKept (new frag d.isAuth) d
  let f := { f with complete := d.complete, replicaMap := d.replicaMap, freeze.dirAuth := d.freeze.dirAuth }
  let f := { f.initFragmentPins with version := d.version }
  let f ← f.setDirAuth i d.freeze.dirAuth
  pure (f.prepareNewFragment replay)

/-- One of "repartition dentries". -/
def repartition (frag : Frag) (s : CDir ν κ × List (CDir ν κ)) (k : Key) : Checked (CDir ν κ × List (CDir ν κ)) := do
  let dn ← deref s.1.items[k]?
  let n := frag.index (i.pickDirfrag dn.name)
  let f ← deref s.2[n]?
  let p ← f.stealDentry i s.1 k
  pure (p.2, s.2.set n p.1)

/-- The dirfrag as it is left, and the new ones. -/
def split (bits : ℕ) (h : d.frag.bits + bits ≤ 24) (replay : Bool) : Checked (CDir ν κ × List (CDir ν κ)) := do
  assert (replay || d.complete || !d.isAuth)
  let frags := (List.range (2 ^ bits)).map (d.frag.child bits h)
  let diffs := d.addDiffs i (.zero, .zero)
  let old := d.prepareOldFragment replay
  let subs ← frags.mapM (old.subfrag i replay)
  -- The first dentry is taken until there is none: one after the other.
  let s ← (old.items.toList.map Prod.fst).foldlM (repartition i d.frag) (old, subs)
  let subs := (s.2.map fun f => f.fixUp i).modifyHead fun f => f.give diffs
  let old ← s.1.finishOldFragment i replay
  pure (old, subs)

/-! ## Merge -/

/-- "Merge replica map". -/
def mergeReplicas (old : CDir ν κ) : CDir ν κ :=
  { d with replicaMap := old.replicaMap.toList.foldl (fun m p => m.insert p.1 (max (m.getD p.1 0) p.2)) d.replicaMap }

/-- "Merge version", and "merge state". -/
def takeState (old : CDir ν κ) : CDir ν κ :=
  { (d.mergeReplicas old).setKept old with
    version := max d.version old.version
    freeze.dirAuth := old.freeze.dirAuth }

/-- The iteration of `merge` for one dirfrag. -/
def mergeFrag (replay : Bool) (s : CDir ν κ × NestInfo × FragInfo) (dir : CDir ν κ) :
    Checked (CDir ν κ × NestInfo × FragInfo) := do
  assert (!dir.isAuth || dir.complete || replay)
  let diffs := dir.addDiffs i s.2
  let dir := dir.prepareOldFragment replay
  let p ← (dir.items.toList.map Prod.fst).foldlM
    (fun (p : CDir ν κ × CDir ν κ) k => p.1.stealDentry i p.2 k) (s.1, dir)
  let _ ← p.2.finishOldFragment i replay
  pure (p.1.takeState p.2, diffs)

def merge (subs : List (CDir ν κ)) (replay : Bool) : Checked (CDir ν κ) := do
  let front ← deref subs.head?
  let d ← d.setDirAuth i front.freeze.dirAuth
  let s ← subs.foldlM (mergeFrag i replay) (d.prepareNewFragment replay, .zero, .zero)
  let d := s.1.markComplete (s.1.isAuth && !replay)
  pure ((d.fixUp i).give s.2).initFragmentPins

end CDir

/-! ## A directory -/

/-- A directory inode with the dirfrags that are in the cache. -/
structure Directory (ν κ : Type) where
  inode : Diri
  dirfrags : List (CDir ν κ)

namespace Directory

variable {ν κ : Type} (s : Directory ν κ)

/-- The fragtree as `fragtree_t` left it. -/
def setTree (tree : Cover 24) : Diri := { s.inode with dirfragtree := tree }

/-- `adjust_dir_fragments`, where `bits` is above zero. -/
def splitFrag (tree : Cover 24) (dir : CDir ν κ) (bits : ℕ) (h : dir.frag.bits + bits ≤ 24) (replay : Bool) :
    Checked (Directory ν κ) := do
  let p ← dir.split (s.setTree tree) bits h replay
  pure ⟨s.setTree tree, s.dirfrags.filter (fun f => f.frag ≠ dir.frag) ++ p.2⟩

/-- `get_dirfrags_under`. -/
def getDirfragsUnder (frag : Frag) : List (CDir ν κ) := s.dirfrags.filter fun f => frag.covers f.frag

/-- `adjust_dir_fragments`, where it is not. -/
def mergeFrags (tree : Cover 24) (basefrag : Frag) (replay : Bool) : Checked (Directory ν κ) := do
  let srcfrags := s.getDirfragsUnder basefrag
  let front ← deref srcfrags.head?
  let f ← (CDir.new basefrag front.isAuth).merge (s.setTree tree) srcfrags replay
  pure ⟨s.setTree tree, s.dirfrags.filter (fun f => !basefrag.covers f.frag) ++ [f]⟩

end Directory

end CephMds.Refragment
