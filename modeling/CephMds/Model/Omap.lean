import CephMds.Framework.Run
import CephMds.Framework.Writes
import CephMds.Model.DentryKey

/-!
# The object of a directory fragment

A directory fragment with the contents of its dentries, the object that holds
them (the header and the omap), and the writes between the two: `pre_dirty`,
`mark_dirty`, `commit`, `_commit`, `_omap_commit`, `_committed` and
`try_remove_dentries_for_stray` of `CDir`. A write (`Mutation`) is atomic and
reaches the object in the order of issue. What `encode_bare` writes of an inode
is `ι`, and what `fnode_t` has besides the fields used here is `φ`; the parts of
`CInode` that are called are a parameter (`InodeOps`). The inodes' own dirty
flags are in `Model.Commit`. `history` records what happened to the contents.
-/

namespace CephMds.Omap

open Checked Dentries Writes

variable {ι φ : Type}

/-! ## Data -/

/-- `CDentry::linkage_t`. -/
inductive Linkage (ι : Type)
  | null
  | remote (ino : ℕ) (dType : Byte)
  | primary (inode : ι)
  deriving DecidableEq

def Linkage.isNull : Linkage ι → Bool
  | .null => true
  | _ => false

structure Dentry (ι : Type) where
  first : Snapid
  version : ℕ
  dirty : Bool
  fragmenting : Bool
  linkage : Linkage ι
  deriving DecidableEq

structure Fnode (φ : Type) where
  version : ℕ
  snapPurgedThru : Snapid
  rest : φ
  deriving DecidableEq

/-- What is stored behind the marker `L` or `I`. -/
inductive Stored (ι : Type)
  | remote (ino : ℕ) (dType : Byte)
  | primary (inode : ι)
  deriving DecidableEq

/-- A value of the omap. -/
structure Entry (ι : Type) where
  first : Snapid
  stored : Stored ι
  deriving DecidableEq

/-- What is to be stored for a dentry, if it is linked. -/
def Dentry.entry (dn : Dentry ι) : Option (Entry ι) :=
  match dn.linkage with
  | .null => none
  | .remote ino dType => some ⟨dn.first, .remote ino dType⟩
  | .primary inode => some ⟨dn.first, .primary inode⟩

structure CDir (ι φ : Type) where
  fnode : Fnode φ
  projectedVersion : ℕ
  committingVersion : ℕ
  committedVersion : ℕ
  stateDirty : Bool
  stateCommitting : Bool
  items : Std.ExtTreeMap Key (Dentry ι)
  /-- The versions that are waited for, in ascending order. -/
  waitingForCommit : List ℕ

/-- The object; the header is missing where there is none. -/
structure Disk (ι φ : Type) where
  header : Option (Fnode φ)
  omap : Std.ExtTreeMap (List Byte) (Entry ι)

/-- An `ObjectOperation`. -/
structure Mutation (ι φ : Type) where
  header : Option (Fnode φ)
  toSet : List (List Byte × Entry ι)
  toRemove : List (List Byte)

/-- `omap_set`, then `omap_rm_keys`. -/
def Mutation.ops (m : Mutation ι φ) : List (List Byte × Option (Entry ι)) :=
  m.toSet.map (fun p => (p.1, some p.2)) ++ m.toRemove.map fun k => (k, none)

/-- `mutate`. -/
def Disk.mutate (d : Disk ι φ) (m : Mutation ι φ) : Disk ι φ where
  header := m.header.or d.header
  omap := putAll d.omap m.ops

/-- An update of a dentry, with the fnode that goes with it. A dentry that does
not exist yet begins at `first`. -/
structure Update (ι φ : Type) where
  key : Key
  first : Snapid
  linkage : Linkage ι
  rest : φ

/-- What happened to the content of a dentry. -/
inductive Change (ι : Type)
  | update (version : ℕ) (key : Key) (content : Option (Entry ι))
  | trim (key : Key)
  | purge (key : Key) (snaps : Finset Snapid)
  deriving DecidableEq

structure State (ι φ : Type) where
  dir : CDir ι φ
  disk : Disk ι φ
  /-- Issued, and not yet applied. -/
  pending : List (Mutation ι φ)
  /-- The versions of the commits that have been applied and are to complete. -/
  acked : List ℕ
  prepared : List (ℕ × Update ι φ)
  history : List (Change ι)

/-! ## Surroundings -/

/-- What the fragment sees of `SnapRealm`. -/
structure Realm where
  snaps : Finset Snapid
  lastDestroyed : Snapid
  pastParentsOpen : Bool

/-- `encode_bare` gives `length` bytes, with first and marker;
`purge_stale_snap_data` where it is called. -/
structure InodeOps (ι : Type) where
  length : Entry ι → ℕ
  purgeStaleSnapData : Finset Snapid → ι → ι

/-- What a function of the fragment finds around it. -/
structure Surroundings where
  realm : Realm
  maxDirCommitSize : UInt32
  /-- `nlink == 0` without a snaprealm. -/
  unlinked : Bool
  stray : Bool
  /-- Nobody has a reference to the dentry and its inode, but for being dirty. -/
  idle : Key → Bool
  projected : Key → Bool

/-! ## Dirty -/

/-- `CDir::pre_dirty`. -/
def CDir.preDirty (d : CDir ι φ) (min : ℕ) : CDir ι φ := { d with projectedVersion := max min d.projectedVersion + 1 }

/-- `CDir::mark_dirty`, with the rest of the projected fnode. -/
def CDir.markDirty (d : CDir ι φ) (pv : ℕ) (rest : φ) : Checked (CDir ι φ) := do
  assert (d.fnode.version < pv)
  assert (pv ≤ d.projectedVersion)
  pure { d with fnode := { d.fnode with version := pv, rest := rest }, stateDirty := true }

/-- The dentry after an update: the linkage is changed, and it is marked dirty. -/
def Update.dentry (u : Update ι φ) (pv : ℕ) : Option (Dentry ι) → Dentry ι
  | some dn => { dn with version := pv, dirty := true, linkage := u.linkage }
  | none => ⟨u.first, pv, true, false, u.linkage⟩

/-- Takes a version for an update. -/
def State.prepare (s : State ι φ) (min : ℕ) (u : Update ι φ) : State ι φ :=
  let d := s.dir.preDirty min
  { s with dir := d, prepared := s.prepared ++ [(d.projectedVersion, u)] }

/-- Applies the first of the prepared updates. -/
def State.apply (s : State ι φ) : Checked (State ι φ) :=
  match s.prepared with
  | [] => pure s
  | (pv, u) :: us => do
    let dn := u.dentry pv s.dir.items[u.key]?
    let d ← s.dir.markDirty pv u.rest
    pure { s with
      dir := { d with items := d.items.insert u.key dn }
      prepared := us
      history := s.history ++ [.update pv u.key dn.entry] }

/-! ## Commit -/

/-- `p == snaps.end() || *p > last` for `p = snaps.lower_bound(first)`. -/
def noSnap (snaps : Finset Snapid) (first last : Snapid) : Bool :=
  match (ascending snaps).find? (first ≤ ·) with
  | none => true
  | some p => last < p

/-- "Snap purge?" -/
def snapPurge (realm : Realm) (f : Fnode φ) : Option (Finset Snapid) :=
  if !realm.pastParentsOpen then none
  else if f.snapPurgedThru < realm.lastDestroyed then some realm.snaps
  else none

/-- `try_trim_snap_dentry`. -/
def tryTrimSnapDentry (e : Surroundings) (k : Key) (dn : Dentry ι) (snaps : Finset Snapid) : Bool :=
  noSnap snaps dn.first k.snapid && e.idle k

/-- What `_encode_dentry` does to the dentry. -/
def InodeOps.encodeDentry (o : InodeOps ι) (snaps : Option (Finset Snapid)) (dn : Dentry ι) : Dentry ι :=
  match dn.linkage, snaps with
  | .primary i, some snaps => { dn with linkage := .primary (o.purgeStaleSnapData snaps i) }
  | _, _ => dn

/-- The local variables of `_omap_commit`. -/
structure Batch (ι φ : Type) where
  writeSize : UInt32
  toSet : List (List Byte × Entry ι)
  toRemove : List (List Byte)
  issued : List (Mutation ι φ)
  items : Std.ExtTreeMap Key (Dentry ι)
  changes : List (Change ι)

namespace Batch

def remove (b : Batch ι φ) (key : List Byte) : Batch ι φ :=
  { b with writeSize := b.writeSize + UInt32.ofNat key.length, toRemove := b.toRemove ++ [key] }

def set (b : Batch ι φ) (key : List Byte) (x : Entry ι) (length : ℕ) : Batch ι φ :=
  { b with writeSize := b.writeSize + UInt32.ofNat (key.length + length), toSet := b.toSet ++ [(key, x)] }

/-- A batch that has become large enough is issued. -/
def flush (b : Batch ι φ) (maxWriteSize : UInt32) : Batch ι φ :=
  if b.writeSize ≥ maxWriteSize then
    { b with writeSize := 0, toSet := [], toRemove := [], issued := b.issued ++ [⟨none, b.toSet, b.toRemove⟩] }
  else b

/-- The history of the snapshots that are purged from an inode. -/
def purged (k : Key) (dn : Dentry ι) : Option (Finset Snapid) → List (Change ι)
  | some snaps =>
    match dn.linkage with
    | .primary _ => [.purge k snaps]
    | _ => []
  | none => []

/-- The loop body of `_omap_commit`. -/
def commitDentry (o : InodeOps ι) (e : Surroundings) (snaps : Option (Finset Snapid)) (b : Batch ι φ)
    (p : Key × Dentry ι) : Batch ι φ :=
  if p.1.snapid != cephNosnap && snaps.any (tryTrimSnapDentry e p.1 p.2) then
    let b := b.remove p.1.encode
    { b with items := b.items.erase p.1, changes := b.changes ++ [.trim p.1] }
  else if !p.2.dirty && (!p.2.fragmenting || p.2.linkage.isNull) then b
  else
    let dn := o.encodeDentry snaps p.2
    match dn.entry with
    | none => (b.remove p.1.encode).flush e.maxDirCommitSize
    | some x =>
      let b := b.set p.1.encode x (o.length x)
      { b with items := b.items.insert p.1 dn, changes := b.changes ++ purged p.1 p.2 snaps }.flush
        e.maxDirCommitSize

end Batch

variable (o : InodeOps ι) (e : Surroundings)

namespace State

variable (s : State ι φ)

/-- `CDir::_omap_commit`. The header goes with the last batch. -/
def omapCommit : State ι φ :=
  let b := s.dir.items.toList.foldl (Batch.commitDentry o e (snapPurge e.realm s.dir.fnode))
    ⟨0, [], [], [], s.dir.items, []⟩
  { s with
    dir := { s.dir with items := b.items }
    pending := s.pending ++ b.issued ++ [⟨some s.dir.fnode, b.toSet, b.toRemove⟩]
    history := s.history ++ b.changes }

/-- `CDir::_commit`. -/
def _commit (want : ℕ) : Checked (State ι φ) := do
  assert (want ≤ s.dir.fnode.version || s.dir.fnode.version == 0)
  if s.dir.committedVersion ≥ want then pure s
  else if s.dir.committingVersion ≥ want then do
    assert s.dir.stateCommitting
    pure s
  else if s.dir.committingVersion > s.dir.committedVersion then pure s
  else pure (omapCommit o e { s with
    dir := { s.dir with committingVersion := s.dir.fnode.version, stateCommitting := true } })

/-- `CDir::try_remove_dentries_for_stray`, of a directory that has no snaprealm. -/
def tryRemoveDentriesForStray : State ι φ := { s with dir := { s.dir with
  items := s.dir.items.filterMap fun k dn =>
    if (k.snapid == cephNosnap && !dn.linkage.isNull) || e.projected k then some dn
    else if e.idle k then none
    else some { dn with dirty := false }
  stateDirty := false } }

/-- The version that is asked for: 0 is the current one. -/
def wanted (want : ℕ) : ℕ := if want = 0 then s.dir.fnode.version else want

/-- `CDir::commit`. -/
def commit (want : ℕ) : Checked (State ι φ) := do
  assert (s.wanted want ≤ s.dir.fnode.version || s.dir.fnode.version == 0)
  assert (s.dir.committedVersion < s.wanted want)
  if e.unlinked then pure (s.tryRemoveDentriesForStray e)
  else _commit o e { s with
    dir := { s.dir with
      waitingForCommit := s.dir.waitingForCommit.orderedInsert (· ≤ ·) (s.wanted want) } } (s.wanted want)

/-! ## Completion -/

/-- The next write reaches the object. With the header of a commit all of it has. -/
def write : State ι φ :=
  match s.pending with
  | [] => s
  | m :: ms => { s with
    disk := s.disk.mutate m
    pending := ms
    acked := s.acked ++ (m.header.map (·.version)).toList }

/-- "Take note", and "dentries clean?" A clean null dentry of a stray directory
is dropped. -/
def note (v : ℕ) : State ι φ := { s with dir := { s.dir with
  committedVersion := v
  stateCommitting := if s.dir.committingVersion = v then false else s.dir.stateCommitting
  stateDirty := if v = s.dir.fnode.version then false else s.dir.stateDirty
  items := s.dir.items.filterMap fun k dn =>
    if v ≥ dn.version && dn.dirty then
      if e.stray && e.idle k && !e.projected k && dn.linkage.isNull then none else some { dn with dirty := false }
    else some dn } }

/-- "Finishers?" -/
def kickWaiters : Checked (State ι φ) :=
  let ws := s.dir.waitingForCommit.dropWhile (· ≤ s.dir.committedVersion)
  let s := { s with dir := { s.dir with waitingForCommit := ws } }
  match ws with
  | [] => pure s
  | want :: _ => s._commit o e want

/-- `CDir::_committed(0, v)`. -/
def _committed (v : ℕ) : Checked (State ι φ) := do
  assert (v > s.dir.committedVersion)
  assert (v ≤ s.dir.committingVersion)
  kickWaiters o e (s.note e v)

end State

/-! ## Runs -/

inductive Action (ι φ : Type)
  | prepare (min : ℕ) (u : Update ι φ)
  | apply
  | commit (want : ℕ) (e : Surroundings)
  | write
  | committed (v : ℕ) (e : Surroundings)

def State.perform (s : State ι φ) : Action ι φ → Checked (State ι φ)
  | .prepare min u => pure (s.prepare min u)
  | .apply => s.apply
  | .commit want e => s.commit o e want
  | .write => pure s.write
  | .committed v e => State._committed o e { s with acked := s.acked.erase v } v

/-- A step, undefined where an assertion fails; what completes was applied. -/
def State.step (s : State ι φ) : Action ι φ → Option (State ι φ)
  | .committed v e => if v ∈ s.acked then (s.perform o (.committed v e)).toOption else none
  | a => (s.perform o a).toOption

/-- What an action that may write finds around it. -/
def Action.surroundings : Action ι φ → Option Surroundings
  | .commit _ e => some e
  | .committed _ e => some e
  | _ => none

/-- The directory is linked, or has a snaprealm. -/
def Action.linked (a : Action ι φ) : Bool := a.surroundings.all fun e => !e.unlinked

/-- A fragment that has just been fetched, or created where there is no object. -/
def State.load (disk : Disk ι φ) (fnode : Fnode φ) (items : Std.ExtTreeMap Key (Dentry ι)) : State ι φ where
  dir := {
    fnode := fnode
    projectedVersion := fnode.version
    committingVersion := fnode.version
    committedVersion := fnode.version
    stateDirty := false
    stateCommitting := false
    items := items
    waitingForCommit := [] }
  disk := disk
  pending := []
  acked := []
  prepared := []
  history := []

end CephMds.Omap
