import CephMds.Model.Omap

/-!
# The dentries of the dirfrags

The items of a `CDir`, the counters and pins that go with them, and the
functions that add, link, unlink, remove and steal dentries. A counter is an
integer, so that one that falls below zero shows. The pin `PIN_INODEPIN` of a
dentry is held as long as its primary inode is referenced, and is not counted
apart. `corpse` and `stolen` are not in the source: they say which dirfrags have
lost a dentry to `steal_dentry`, and which dentries came that way.
-/

namespace CephMds.Items

open Checked Dentries Writes

/-! ## Data -/

structure Inode where
  ino : ℕ
  dirty : Bool
  /-- The pins but for `PIN_DIRTY`. -/
  pins : ℕ
  deriving DecidableEq

def Inode.numRef (i : Inode) : ℕ := i.pins + i.dirty.toNat

/-- `CDentry::linkage_t`. -/
inductive Linkage
  | null
  | remote (ino : ℕ) (dType : Byte)
  | primary (inode : Inode)
  deriving DecidableEq

def Linkage.isNull : Linkage → Bool
  | .null => true
  | _ => false

/-- `PIN_INODEPIN`. -/
def Linkage.inodePin : Linkage → ℕ
  | .primary i => if i.numRef = 0 then 0 else 1
  | _ => 0

structure Dentry where
  name : List Byte
  first : Snapid
  last : Snapid
  linkage : Linkage
  dirty : Bool
  isNew : Bool
  projected : Bool
  /-- There are client leases, with their pin. -/
  leases : Bool
  /-- `PIN_FRAGMENTING`. -/
  fragmenting : ℕ
  stateFragmenting : Bool
  /-- The other pins. -/
  pins : ℕ
  stolen : Bool
  deriving DecidableEq

namespace Dentry

def key (dn : Dentry) : Key := ⟨dn.name, dn.last⟩

def isHead (dn : Dentry) : Bool := dn.last = cephNosnap

def isNull (dn : Dentry) : Bool := dn.linkage.isNull

def numRef (dn : Dentry) : ℕ :=
  dn.pins + dn.fragmenting + dn.leases.toNat + dn.dirty.toNat + dn.linkage.inodePin

/-- A new dentry. -/
def make (name : List Byte) (first last : Snapid) (linkage : Linkage) : Dentry where
  name := name
  first := first
  last := last
  linkage := linkage
  dirty := false
  isNew := false
  projected := false
  leases := false
  fragmenting := 0
  stateFragmenting := false
  pins := 0
  stolen := false

end Dentry

structure CDir where
  items : Std.ExtTreeMap Key Dentry
  numHeadItems : ℤ
  numHeadNull : ℤ
  numSnapItems : ℤ
  numSnapNull : ℤ
  /-- `PIN_CHILD`. -/
  child : ℕ
  dnPinnedFrag : Bool
  stateDirty : Bool
  corpse : Bool

namespace CDir

variable (d : CDir)

def getNumAny : ℤ := d.numHeadItems + d.numHeadNull + d.numSnapItems + d.numSnapNull

/-- Adds `n` to the counter of a kind of dentries. -/
def count (head null : Bool) (n : ℤ) : CDir :=
  match head, null with
  | true, true => { d with numHeadNull := d.numHeadNull + n }
  | true, false => { d with numHeadItems := d.numHeadItems + n }
  | false, true => { d with numSnapNull := d.numSnapNull + n }
  | false, false => { d with numSnapItems := d.numSnapItems + n }

/-- `put(PIN_CHILD)`. -/
def putChild : Checked CDir := do
  assert (0 < d.child)
  pure { d with child := d.child - 1 }

/-- `assert(get_num_any() == items.size())`. -/
def checkSize : Checked CDir := do
  assert (d.getNumAny == d.items.size)
  pure d

/-! ## Adding -/

/-- `add_null_dentry`, `add_primary_dentry` and `add_remote_dentry`. -/
def addDentry (dn : Dentry) : Checked CDir := do
  assert (!d.items.contains dn.key)
  let dn := if d.dnPinnedFrag then { dn with fragmenting := dn.fragmenting + 1, stateFragmenting := true } else dn
  let d := { d with items := d.items.insert dn.key dn }.count dn.isHead dn.isNull 1
  let d := if d.getNumAny = 1 then { d with child := d.child + 1 } else d
  d.checkSize

def addNullDentry (name : List Byte) (first last : Snapid) : Checked CDir :=
  d.addDentry (.make name first last .null)

def addPrimaryDentry (name : List Byte) (i : Inode) (first last : Snapid) : Checked CDir :=
  d.addDentry (.make name first last (.primary i))

def addRemoteDentry (name : List Byte) (ino : ℕ) (dType : Byte) (first last : Snapid) : Checked CDir :=
  d.addDentry (.make name first last (.remote ino dType))

/-! ## Linking -/

/-- The linkage of a dentry is changed. -/
def relink (dn : Dentry) (l : Linkage) : CDir :=
  let d := { d with items := d.items.insert dn.key { dn with linkage := l } }
  (d.count dn.isHead l.isNull 1).count dn.isHead dn.isNull (-1)

/-- `link_primary_inode` and `link_remote_inode`. -/
def link (k : Key) (l : Linkage) : Checked CDir := do
  let dn ← deref d.items[k]?
  assert dn.isNull
  (d.relink dn l).checkSize

def linkPrimaryInode (k : Key) (i : Inode) : Checked CDir := d.link k (.primary i)

def linkRemoteInode (k : Key) (ino : ℕ) (dType : Byte) : Checked CDir := d.link k (.remote ino dType)

/-- `unlink_inode`, which takes the inode of the dentry without asking. -/
def unlinkInode (k : Key) : Checked CDir := do
  let dn ← deref d.items[k]?
  if dn.isNull then throw .null
  (d.relink dn .null).checkSize

/-! ## Removing -/

/-- "Unpin?" -/
def unpinChild (empty : Bool) : Checked CDir := if empty then d.putChild else pure d

/-- `remove_dentry`. -/
def removeDentry (k : Key) : Checked CDir := do
  let dn ← deref d.items[k]?
  assert (!dn.leases)
  assert (!d.dnPinnedFrag || 0 < dn.fragmenting)
  let d := d.count dn.isHead dn.isNull (-1)
  assert (d.items.contains dn.key)
  let d := { d with items := d.items.erase dn.key }
  let d ← d.unpinChild (d.getNumAny == 0)
  d.checkSize

/-- `try_remove_unlinked_dn`. -/
def tryRemoveUnlinkedDn (k : Key) : Checked CDir := do
  let dn ← deref d.items[k]?
  assert dn.isNull
  if dn.numRef ≠ dn.dirty.toNat then pure d
  else if dn.isNew then d.removeDentry k
  else pure d

/-- `try_trim_snap_dentry`. -/
def tryTrimSnapDentry (k : Key) (snaps : Finset Snapid) : Checked CDir := do
  let dn ← deref d.items[k]?
  assert (dn.last ≠ cephNosnap)
  let idle := match dn.linkage with
    | .primary i => i.numRef == i.dirty.toNat
    | _ => true
  if Omap.noSnap snaps dn.first dn.last && dn.numRef == dn.dirty.toNat && idle then d.removeDentry k else pure d

/-- `remove_null_dentries`. -/
def removeNullDentries : Checked CDir := do
  let d ← d.items.toList.foldlM (fun (d : CDir) p =>
    if p.2.isNull && !p.2.projected then d.removeDentry p.1 else pure d) d
  assert (d.numSnapNull == 0)
  assert (d.numHeadNull == 0)
  d.checkSize

/-- What `try_remove_dentries_for_stray` does to a dentry before it looks at the references. -/
def releaseForStray (clearDirty : Bool) (dn : Dentry) : Dentry :=
  let dn := if clearDirty then { dn with dirty := false } else dn
  if dn.isHead then { dn with leases := false }
  else
    match dn.linkage with
    | .primary i => if clearDirty then { dn with linkage := .primary { i with dirty := false } } else dn
    | _ => dn

/-- The loop body of `try_remove_dentries_for_stray`. -/
def removeForStray (clearDirty : Bool) (d : CDir) (p : Key × Dentry) : Checked CDir :=
  if (p.2.isHead && !p.2.isNull) || p.2.projected then pure d
  else
    let dn := releaseForStray clearDirty p.2
    let d := { d with items := d.items.insert p.1 dn }
    if dn.numRef = 0 then d.removeDentry p.1 else pure d

/-- `try_remove_dentries_for_stray`. -/
def tryRemoveDentriesForStray (snaprealm : Bool) : Checked CDir := do
  let d ← d.items.toList.foldlM (removeForStray (!snaprealm)) d
  pure (if snaprealm then d else { d with stateDirty := false })

/-! ## Stealing -/

/-- The part of `finish_old_fragment` that has to do with the dentries. -/
def finishOldFragment : CDir :=
  { d with numHeadItems := 0, numHeadNull := 0, numSnapItems := 0, numSnapNull := 0, corpse := false }

end CDir

/-- `steal_dentry`: `d` takes a dentry from `old`. -/
def stealDentry (d old : CDir) (k : Key) : Checked (CDir × CDir) := do
  let dn ← deref old.items[k]?
  let d := { d with items := d.items.insert dn.key { dn with stolen := true } }
  let old := { old with items := old.items.erase dn.key, corpse := true }
  let old ← old.unpinChild old.items.isEmpty
  let d := if d.getNumAny = 0 then { d with child := d.child + 1 } else d
  pure (d.count dn.isHead dn.isNull 1, old)

/-! ## Runs -/

/-- Something else happens to a dentry: its other pins and its flags change. -/
structure Touch where
  dirty : Bool
  isNew : Bool
  projected : Bool
  leases : Bool
  pins : ℕ
  inode : Inode

def Touch.dentry (t : Touch) (dn : Dentry) : Dentry :=
  { dn with
    dirty := t.dirty
    isNew := t.isNew
    projected := t.projected
    leases := t.leases
    pins := t.pins
    linkage := match dn.linkage with
      | .primary _ => .primary t.inode
      | l => l }

def CDir.touch (d : CDir) (k : Key) (t : Touch) : Checked CDir := do
  let dn ← deref d.items[k]?
  pure { d with items := d.items.insert k (t.dentry dn) }

/-- What is done with one dirfrag. -/
inductive Op
  | addNull (name : List Byte) (first last : Snapid)
  | addPrimary (name : List Byte) (i : Inode) (first last : Snapid)
  | addRemote (name : List Byte) (ino : ℕ) (dType : Byte) (first last : Snapid)
  | linkPrimary (k : Key) (i : Inode)
  | linkRemote (k : Key) (ino : ℕ) (dType : Byte)
  | unlink (k : Key)
  | remove (k : Key)
  | tryRemoveUnlinked (k : Key)
  | tryTrimSnap (k : Key) (snaps : Finset Snapid)
  | removeNull
  | removeForStray (snaprealm : Bool)
  | touch (k : Key) (t : Touch)

def CDir.perform (d : CDir) : Op → Checked CDir
  | .addNull name first last => d.addNullDentry name first last
  | .addPrimary name i first last => d.addPrimaryDentry name i first last
  | .addRemote name ino dType first last => d.addRemoteDentry name ino dType first last
  | .linkPrimary k i => d.linkPrimaryInode k i
  | .linkRemote k ino dType => d.linkRemoteInode k ino dType
  | .unlink k => d.unlinkInode k
  | .remove k => d.removeDentry k
  | .tryRemoveUnlinked k => d.tryRemoveUnlinkedDn k
  | .tryTrimSnap k snaps => d.tryTrimSnapDentry k snaps
  | .removeNull => d.removeNullDentries
  | .removeForStray snaprealm => d.tryRemoveDentriesForStray snaprealm
  | .touch k t => d.touch k t

inductive Action
  | op (i : ℕ) (o : Op)
  | steal (i old : ℕ) (k : Key)
  | finishOld (i : ℕ)

/-- The dirfrags. -/
abbrev State := ℕ → CDir

def State.step (s : State) : Action → Option State
  | .op i o => ((s i).perform o).toOption.map fun d => Function.update s i d
  | .steal i old k => (stealDentry (s i) (s old) k).toOption.map fun p =>
    Function.update (Function.update s old p.2) i p.1
  | .finishOld i => some (Function.update s i (s i).finishOldFragment)

/-! ## What the callers see to -/

/-- The dentry is there, and is as the function needs it. -/
def CDir.has (d : CDir) (k : Key) (p : Dentry → Bool) : Bool := d.items[k]?.any p

/-- The preconditions of the functions, as their assertions have them. -/
def CDir.admits (d : CDir) : Op → Bool
  | .addNull name _ last => !d.items.contains ⟨name, last⟩
  | .addPrimary name _ _ last => !d.items.contains ⟨name, last⟩
  | .addRemote name _ _ _ last => !d.items.contains ⟨name, last⟩
  | .linkPrimary k _ => d.has k Dentry.isNull
  | .linkRemote k _ _ => d.has k Dentry.isNull
  | .unlink k => d.has k fun dn => !dn.isNull
  | .remove k => d.has k fun dn => !dn.leases
  | .tryRemoveUnlinked k => d.has k Dentry.isNull
  | .tryTrimSnap k _ => d.has k fun dn => !dn.isHead
  | .removeNull => d.items.toList.all fun p => !p.2.isNull || !p.2.projected && !p.2.leases
  | .removeForStray _ => true
  | .touch k _ => d.has k fun _ => true

/-- A dirfrag that has lost a dentry to `steal_dentry` is left alone until it has lost all of
them and `finish_old_fragment` is called; it loses them to one that is not being refragmented. -/
def State.admits (s : State) : Action → Bool
  | .op i o => !(s i).corpse && (s i).admits o
  | .steal i old k => i != old && !(s i).corpse && !(s i).dnPinnedFrag && !(s i).items.contains k &&
    (s old).items.contains k
  | .finishOld i => (s i).items.isEmpty

end CephMds.Items
