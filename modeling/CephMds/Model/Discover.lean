import CephMds.Framework.BinaryPath
import CephMds.Model.DentryKey
import CephMds.Model.Subtree

/-!
# Discovering a path

`MDCache::handle_discover` of an active MDS, with the part of `CDir` that it
uses: `lookup`, `add_null_dentry` and `fetch`. Inodes are pointers of a type `ι`,
and the answers of a `CInode` about itself, of a lock and of the functions that
tell whether something is frozen are values in the state; nothing that is done
here changes them. The class of the reply is an argument, of which it is known
how a reply begins and when it is empty (`ReplyClass.Lawful`). Replica maps and
pins are left out.
-/

namespace CephMds.Discover

open Checked Dentries

/-! ## The cache -/

/-- `CDentry::linkage_t`. -/
inductive Linkage (ι : Type)
  | null
  | remote
  | primary (inode : ι)

/-- A dentry, which is valid from `first` up to the snapshot in its key. -/
structure Dentry (ι : Type) where
  first : Snapid
  linkage : Linkage ι
  /-- `lock.is_xlocked()`. -/
  xlocked : Bool

structure CDir (ι : Type) where
  isAuth : Bool
  authority : Auth
  isFrozenTree : Bool
  isFrozenDir : Bool
  canAuthPin : Bool
  version : ℕ
  isComplete : Bool
  /-- `STATE_FETCHING`. -/
  fetching : Bool
  items : Std.ExtTreeMap Key (Dentry ι)
  /-- `get_num_any()`. -/
  numAny : ℤ

structure Inode where
  isDir : Bool
  isAuth : Bool
  isMultiversion : Bool
  authority : Auth
  isFrozen : Bool
  isFrozenInode : Bool
  /-- A dirfrag that is opened below is in a tree that is freezing. -/
  isFreezingBelow : Bool
  /-- There are no links, and no snaprealm. -/
  unlinked : Bool
  pickDirfrag : List Byte → BinaryPath
  /-- `dirfragtree.is_leaf`. -/
  isLeaf : BinaryPath → Bool
  /-- `dirfragtree[fg.value()]`. -/
  leafAt : BinaryPath → BinaryPath

structure State (ι : Type) where
  /-- `inode_map`. -/
  inodeMap : ℕ → Snapid → Option ι
  inode : ι → Inode
  dirfrags : ι → BinaryPath → Option (CDir ι)
  /-- `fragments`: those of an inode, with `all_frozen`. -/
  fragments : ι → List (BinaryPath × Bool)

namespace CDir

variable {ι : Type}

/-- A dirfrag that is not in the cache and is opened. -/
def make (i : Inode) : CDir ι where
  isAuth := i.isAuth
  authority := i.authority
  isFrozenTree := false
  isFrozenDir := false
  canAuthPin := i.isAuth && !i.isFreezingBelow
  version := 0
  isComplete := false
  fetching := false
  items := ∅
  numAny := 0

variable (d : CDir ι)

def isAmbiguousAuth : Bool := d.authority.second ≠ cdirAuthUnknown

def lookup (name : List Byte) (snap : Snapid) : Option (Key × Dentry ι) :=
  Dentries.lookup Dentry.first d.items name snap

/-- The dentry that `add_null_dentry` makes. -/
def nullDentry (first : Snapid) : Dentry ι := ⟨first, .null, false⟩

def addNullDentry (name : List Byte) (first last : Snapid) : Checked (CDir ι) := do
  assert (!d.items.contains ⟨name, last⟩)
  let d := { d with items := d.items.insert ⟨name, last⟩ (nullDentry first), numAny := d.numAny + 1 }
  assert (d.numAny == d.items.size)
  pure d

/-- `fetch`, below an inode that is unlinked or is not. -/
def fetch (unlinked ignoreAuthpinnability : Bool) : Checked (CDir ι) := do
  assert d.isAuth
  assert (!d.isComplete)
  if !d.canAuthPin && !ignoreAuthpinnability then pure d
  -- "unlinked directory inode shouldn't have any entry"
  else if unlinked then pure { d with version := if d.version = 0 then 1 else d.version, isComplete := true }
  else if d.fetching then pure d
  else pure { d with fetching := true }

end CDir

namespace State

variable {ι : Type} (s : State ι)

def getInode (ino : ℕ) (snap : Snapid) : Option ι := s.inodeMap ino snap

/-- `fragment_are_all_frozen`, for a dirfrag that is frozen. -/
def fragmentAreAllFrozen (i : ι) (fg : BinaryPath) : Checked Bool :=
  match (s.fragments i).find? fun p => p.1.isSuffixOf fg with
  | some p => pure p.2
  | none => throw .assert

def setDir [DecidableEq ι] (i : ι) (fg : BinaryPath) (d : CDir ι) : State ι :=
  { s with dirfrags := Function.update s.dirfrags i (Function.update (s.dirfrags i) fg (some d)) }

end State

/-! ## The messages -/

structure MDiscover where
  source : ℤ
  baseIno : ℕ
  baseDirFrag : BinaryPath
  snapid : Snapid
  want : List (List Byte)
  wantsBaseDir : Bool
  wantsXlocked : Bool

/-- `get_dentry(i)`, which is a name of the path. -/
def MDiscover.getDentry (m : MDiscover) (i : ℕ) : Checked (List Byte) := deref m.want[i]?

/-- What a trace starts with. -/
inductive StartsWith
  | dir
  | dentry
  | inode
  deriving DecidableEq

/-- What is encoded in a trace. -/
inductive Replica (ι : Type)
  | dir (i : ι) (fg : BinaryPath)
  | dentry (i : ι) (fg : BinaryPath) (k : Key)
  | inode (i : ι)

structure Reply (ι : Type) where
  startsWith : StartsWith
  trace : List (Replica ι)
  flagErrorDir : Bool
  errorDentry : Option (List Byte)
  dirAuthHint : ℤ
  baseDirFrag : BinaryPath

/-- `MDiscoverReply`: the reply to a request before anything is in it, and `is_empty`. -/
structure ReplyClass (ι : Type) where
  make : MDiscover → Reply ι
  isEmpty : Reply ι → Bool

structure ReplyClass.Lawful {ι : Type} (c : ReplyClass ι) : Prop where
  isEmpty_make (m : MDiscover) : c.isEmpty (c.make m) = true
  isEmpty_iff (r : Reply ι) : c.isEmpty r = true ↔
    r.trace = [] ∧ r.flagErrorDir = false ∧ r.dirAuthHint = cdirAuthUnknown

namespace Reply

variable {ι : Type} (r : Reply ι)

/-- Something is encoded, which is what the trace starts with if it is the first. -/
def add (what : StartsWith) (x : Replica ι) : Reply ι :=
  { r with startsWith := if r.trace = [] then what else r.startsWith, trace := r.trace ++ [x] }

/-- `set_flag_error_dir`. -/
def errorDir : Reply ι := { r with flagErrorDir := true }

end Reply

/-! ## The handler -/

def mdsInoRoot : ℕ := 1

def maxMds : ℕ := 256

/-- `MDS_INO_IS_BASE`: the root, or the directory of an MDS. -/
def mdsInoIsBase (ino : ℕ) : Bool := ino = mdsInoRoot ∨ maxMds ≤ ino ∧ ino < maxMds + maxMds

variable {ι : Type} [DecidableEq ι] (c : ReplyClass ι) (m : MDiscover) (s : State ι)

/-- The root or another base inode is wanted, and nothing in it. -/
def MDiscover.wantsBase : Bool := mdsInoIsBase m.baseIno && !m.wantsBaseDir && m.want.isEmpty

/-- The base inode, which may be one of several versions. -/
def State.baseInode : Option ι :=
  match s.getInode m.baseIno m.snapid with
  | some i => some i
  | none =>
    if m.snapid ≠ cephNosnap then (s.getInode m.baseIno cephNosnap).filter fun i => (s.inode i).isMultiversion else none

/-- The reply of an MDS that does not have the base inode. -/
def noBase : Checked (Reply ι) :=
  if !m.wantsBaseDir && !m.want.isEmpty then do
    let name ← m.getDentry 0
    pure { c.make m with errorDentry := some name }.errorDir
  else pure (c.make m).errorDir

/-- "Get started": where the loop starts, and the reply. -/
def start : Checked (Option ι × Reply ι) := do
  let reply := c.make m
  if m.wantsBase then
    match s.getInode m.baseIno cephNosnap with
    | none => throw .assert
    | some cur => pure (some cur, { reply with startsWith := .inode, trace := reply.trace ++ [.inode cur] })
  else
    match s.baseInode m with
    | some cur => pure (some cur, reply)
    | none => do
      let reply ← noBase c m
      pure (none, reply)

/-- What a request is queued for. -/
inductive Wait (ι : Type)
  | unfreezeInode (i : ι)
  | unfreezeDir (i : ι) (fg : BinaryPath)
  | fetch (i : ι) (fg : BinaryPath)
  | readLock (i : ι) (fg : BinaryPath) (k : Key)

/-- How the loop body ends. -/
inductive Step (ι : Type)
  | descend (reply : Reply ι) (next : ι)
  | stop (s : State ι) (reply : Reply ι)
  | retry (s : State ι) (on : Wait ι)

/-- Waits if the reply is empty, and sends it if it is not. -/
def holdOff (reply : Reply ι) (on : Wait ι) : Step ι := if c.isEmpty reply then .retry s on else .stop s reply

/-- The frag of the directory `cur`. -/
def pickFrag (i : ℕ) (cur : Inode) : Checked BinaryPath :=
  if m.want.isEmpty then do
    assert (m.wantsBaseDir || mdsInoIsBase m.baseIno)
    pure (if cur.isLeaf m.baseDirFrag then m.baseDirFrag else cur.leafAt m.baseDirFrag)
  else do
    pure (cur.pickDirfrag (← m.getDentry i))

/-- "Only hint if empty." -/
def hint (i : ℕ) (a : Auth) (reply : Reply ι) : Reply ι :=
  if c.isEmpty reply then
    { reply with
      dirAuthHint := a.first
      errorDentry := if i < m.want.length then m.want[i]? else reply.errorDentry }
  else reply

/-- The last dentry of the path may be locked or frozen, if that is wanted. -/
def allowed (i : ℕ) : Bool := (m.want.isEmpty || i == m.want.length - 1) && m.wantsXlocked

/-- What is done with the dentry that is looked for. -/
def replicate (i : ℕ) (cur : ι) (fg : BinaryPath) (reply : Reply ι) (k : Key) (dn : Dentry ι) : Checked (Step ι) :=
  if dn.xlocked && !allowed m i then pure (holdOff c s reply (.readLock cur fg k))
  else match dn.linkage with
    | .primary next =>
      if (s.inode next).isFrozenInode && !allowed m i then pure (holdOff c s reply (.unfreezeInode next))
      else do
        let reply := reply.add .dentry (.dentry cur fg k)
        assert (s.inode next).isAuth
        pure (.descend { reply with trace := reply.trace ++ [.inode next] } next)
    -- "stop on null or remote link"
    | _ => pure (.stop s (reply.add .dentry (.dentry cur fg k)))

/-- No dentry has been found. -/
def miss (i : ℕ) (cur : ι) (fg : BinaryPath) (d : CDir ι) (reply : Reply ι) : Checked (Step ι) :=
  if !d.isComplete then do
    let d ← d.fetch (s.inode cur).unlinked (c.isEmpty reply && m.wantsBaseDir && d.version == 0)
    pure (holdOff c (s.setDir cur fg d) reply (.fetch cur fg))
  else do
    let name ← m.getDentry i
    let d ← d.addNullDentry name 2 cephNosnap
    replicate c m (s.setDir cur fg d) i cur fg reply ⟨name, cephNosnap⟩ (CDir.nullDentry 2)

/-- "Add dir". -/
def addDir (cur : ι) (fg : BinaryPath) (d : CDir ι) (reply : Reply ι) : Checked (Reply ι) :=
  if d.version = 0 then pure reply
  else if c.isEmpty reply && !m.wantsBaseDir then pure { reply with baseDirFrag := fg }
  else do
    assert (!d.isAmbiguousAuth)
    pure (reply.add .dir (.dir cur fg))

/-- What is done with a dirfrag that is open and not frozen. -/
def search (i : ℕ) (cur : ι) (fg : BinaryPath) (d : CDir ι) (reply : Reply ι) : Checked (Step ι) := do
  let reply ← addDir c m cur fg d reply
  if d.version = 0 then miss c m s i cur fg d reply
  else if m.want.isEmpty then pure (.stop s reply)
  else
    let name ← m.getDentry i
    match d.lookup name m.snapid with
    | some (k, dn) => replicate c m s i cur fg reply k dn
    | none => miss c m s i cur fg d reply

/-- `is_frozen_tree() || (is_frozen_dir() && fragment_are_all_frozen())`. -/
def isFrozen (cur : ι) (fg : BinaryPath) (d : CDir ι) : Checked Bool :=
  if d.isFrozenTree then pure true else if d.isFrozenDir then s.fragmentAreAllFrozen cur fg else pure false

/-- What is done when the frag has been picked. -/
def enter (i : ℕ) (cur : ι) (fg : BinaryPath) (reply : Reply ι) : Checked (Step ι) :=
  match s.dirfrags cur fg with
  | none =>
    if !(s.inode cur).isAuth then pure (.stop s (hint c m i (s.inode cur).authority reply))
    else if (s.inode cur).isFrozen then pure (holdOff c s reply (.unfreezeInode cur))
    else
      let d := CDir.make (s.inode cur)
      search c m (s.setDir cur fg d) i cur fg d reply
  | some d =>
    if !d.isAuth then pure (.stop s (hint c m i d.authority reply))
    else do
      if ← isFrozen s cur fg d then
        if m.wantsBaseDir && m.baseDirFrag != fg then pure (.stop s reply.errorDir)
        else pure (holdOff c s reply (.unfreezeDir cur fg))
      else search c m s i cur fg d reply

/-- The loop body. -/
def visit (i : ℕ) (cur : ι) (reply : Reply ι) : Checked (Step ι) :=
  if !(s.inode cur).isDir then pure (.stop s reply.errorDir)
  else do
    let fg ← pickFrag m i (s.inode cur)
    enter c m s i cur fg reply

/-- How the request is dealt with. -/
inductive Outcome (ι : Type)
  | retry (s : State ι) (on : Wait ι)
  | reply (s : State ι) (reply : Reply ι)

/-- The loop. -/
def loop : ℕ → ℕ → ι → Reply ι → Checked (Outcome ι)
  | 0, _, _, _ => throw .fuel
  | fuel + 1, i, cur, reply =>
    if i < m.want.length || m.want.isEmpty then do
      match ← visit c m s i cur reply with
      | .descend reply next => loop fuel (i + 1) next reply
      | .stop s reply => pure (.reply s reply)
      | .retry s on => pure (.retry s on)
    else pure (.reply s reply)

/-- "How did we do?" -/
def answer : Outcome ι → Checked (Outcome ι)
  | .retry s on => pure (.retry s on)
  | .reply s reply => do
    assert (!c.isEmpty reply)
    pure (.reply s reply)

/-- `MDCache::handle_discover`. -/
def handleDiscover (whoami : ℤ) : Checked (Outcome ι) := do
  assert (m.source != whoami)
  let (cur, reply) ← start c m s
  match cur with
  | none => answer c (.reply s reply)
  | some cur => do answer c (← loop c m s (m.want.length + 1) 0 cur reply)

end CephMds.Discover
