import CephMds.Framework.Run
import CephMds.Model.Caps

/-!
# Waiting for flushed caps

The flushes of any number of inodes, the list `flushing_caps` of each session
in its order, and what waits for them: `Client::wait_sync_caps` and
`Client::_fsync`. Of a cap it matters which session has it and what is
implemented; `newer` and `newerAuth` stand for the comparisons of sequence
numbers. `sent`, `sentTid`, `ackedTid`, `losses` and `flushes` are the history:
what was sent and acknowledged, how often the session of the auth cap was lost,
and the flushes that `mark_caps_flushing` has started.
-/

namespace CephMds.SyncCaps

open Checked
open Caps (Mask fileExcl fileWr fileBuffer)

/-- `CEPH_CAP_ANY_FILE_WR`. -/
def anyFileWr : Mask := {fileExcl, fileWr, fileBuffer}

structure Inode where
  /-- By rank, with what is implemented. -/
  caps : Std.ExtTreeMap ℕ Mask
  authCap : Option ℕ
  dirtyCaps : Mask
  flushingCaps : Mask
  flushingCapTid : Fin 22 → BitVec 16
  lastFlushTid : ℕ
  flushingCapSeq : ℕ
  /-- The flushes sent, with their tids. -/
  sent : List (ℕ × Mask)
  /-- The last flush of each bit. -/
  sentTid : Fin 22 → ℕ
  /-- The last flush of each bit that was acknowledged. -/
  ackedTid : Fin 22 → ℕ
  losses : ℕ

/-- A flush that `mark_caps_flushing` has started, with its first tid. -/
structure Flush where
  seq : ℕ
  ino : ℕ
  bits : Mask
  tid : ℕ
  losses : ℕ

structure Client where
  inodes : ℕ → Inode
  mdsSessions : Finset ℕ
  /-- `flushing_caps` of each session. -/
  flushingCaps : ℕ → List ℕ
  lastFlushSeq : ℕ
  flushes : List Flush

namespace Inode

def new : Inode where
  caps := ∅
  authCap := none
  dirtyCaps := ∅
  flushingCaps := ∅
  flushingCapTid _ := 0
  lastFlushTid := 0
  flushingCapSeq := 0
  sent := []
  sentTid _ := 0
  ackedTid _ := 0
  losses := 0

/-- `send_cap`, as far as it is about what is flushed. -/
def sendCap (i : Inode) (flush : Mask) : Inode :=
  if flush = ∅ then i
  else
    { i with
      lastFlushTid := i.lastFlushTid + 1
      flushingCapTid := fun b => if b ∈ flush then BitVec.ofNat 16 (i.lastFlushTid + 1) else i.flushingCapTid b
      sent := (i.lastFlushTid + 1, flush) :: i.sent
      sentTid := fun b => if b ∈ flush then i.lastFlushTid + 1 else i.sentTid b }

/-- The bits that the ack of the flush `n` cleans. -/
def cleaned (i : Inode) (n : ℕ) (dirty : Mask) : Mask :=
  dirty.filter fun b => i.flushingCapTid b = BitVec.ofNat 16 n

/-- The ack of the flush `n`. -/
def ack (i : Inode) (n : ℕ) (dirty : Mask) : Inode :=
  { i with
    flushingCaps := i.flushingCaps \ i.cleaned n dirty
    ackedTid := fun b => if b ∈ dirty then max (i.ackedTid b) n else i.ackedTid b }

end Inode

namespace Client

/-- No inode has any cap. -/
def initial : Client := ⟨fun _ => .new, ∅, fun _ => [], 0, []⟩

def setInode (c : Client) (ino : ℕ) (i : Inode) : Client := { c with inodes := Function.update c.inodes ino i }

/-- `flushing_cap_item.is_on_list()`. -/
def isOnList (c : Client) (ino : ℕ) : Bool := decide (∃ mds ∈ c.mdsSessions, (c.flushingCaps mds).contains ino)

/-- `flushing_cap_item.remove_myself()`. -/
def removeMyself (c : Client) (ino : ℕ) : Client :=
  { c with flushingCaps := fun mds => (c.flushingCaps mds).filter (· != ino) }

/-- `flushing_caps.push_back(&in->flushing_cap_item)`, which takes it from where it was. -/
def pushBack (c : Client) (mds ino : ℕ) : Client :=
  { c with flushingCaps := fun m => (c.flushingCaps m).filter (· != ino) ++ if m = mds then [ino] else [] }

/-- `_get_or_open_mds_session`. -/
def openSession (c : Client) (mds : ℕ) : Client := { c with mdsSessions := insert mds c.mdsSessions }

/-- `flush_caps` of an inode. -/
def flushCaps (c : Client) (ino mds : ℕ) : Checked Client := do
  let cap ← deref (c.inodes ino).authCap
  assert (cap == mds)
  pure (c.setInode ino ((c.inodes ino).sendCap (c.inodes ino).flushingCaps))

/-- `mark_caps_dirty`. -/
def markCapsDirty (c : Client) (ino : ℕ) (caps : Mask) : Client :=
  c.setInode ino { c.inodes ino with dirtyCaps := (c.inodes ino).dirtyCaps ∪ caps }

/-- `mark_caps_flushing`. -/
def markCapsFlushing (c : Client) (ino : ℕ) : Checked Client := do
  let i := c.inodes ino
  let mds ← deref i.authCap
  assert (decide (i.dirtyCaps ≠ ∅))
  let seq := c.lastFlushSeq + 1
  let c := c.setInode ino { i with
    flushingCaps := i.flushingCaps ∪ i.dirtyCaps
    dirtyCaps := ∅
    flushingCapSeq := seq }
  pure { c.pushBack mds ino with
    lastFlushSeq := seq
    flushes := ⟨seq, ino, i.dirtyCaps, i.lastFlushTid + 1, i.losses⟩ :: c.flushes }

/-- `check_caps`, where it comes to the auth cap with dirty caps. -/
def checkCaps (c : Client) (ino : ℕ) : Checked Client := do
  let mds ← deref (c.inodes ino).authCap
  assert (decide (mds ∈ c.mdsSessions))
  let flushing := (c.inodes ino).dirtyCaps
  let c ← c.markCapsFlushing ino
  pure (c.setInode ino ((c.inodes ino).sendCap flushing))

/-- `flush_snaps`, for a cap snap. -/
def flushSnap (c : Client) (ino : ℕ) : Client :=
  c.setInode ino { c.inodes ino with lastFlushTid := (c.inodes ino).lastFlushTid + 1 }

/-- `handle_cap_flush_ack`, of the flush `n`. -/
def handleCapFlushAck (c : Client) (ino n : ℕ) (dirty : Mask) : Client :=
  let i := (c.inodes ino).ack n dirty
  let c' := c.setInode ino i
  if (c.inodes ino).cleaned n dirty ≠ ∅ ∧ (c.inodes ino).flushingCaps ≠ ∅ ∧ i.flushingCaps = ∅ then c'.removeMyself ino
  else c'

/-- `remove_cap`. -/
def removeCap (c : Client) (ino mds : ℕ) : Checked Client := do
  let i := c.inodes ino
  assert (i.caps.contains mds)
  let i' := { i with caps := i.caps.erase mds }
  if i.authCap = some mds then pure ((c.removeMyself ino).setInode ino { i' with authCap := none })
  else pure (c.setInode ino i')

/-- `add_update_cap`. -/
def addUpdateCap (c : Client) (ino mds : ℕ) (issued : Mask) (auth newer : Bool) : Client :=
  let i := c.inodes ino
  let i' := { i with caps := i.caps.insert mds ((i.caps[mds]?).getD ∅ ∪ issued) }
  if auth ∧ i.authCap ≠ some mds ∧ (i.authCap = none ∨ newer) then
    let c := if i.authCap.isSome ∧ c.isOnList ino then c.pushBack mds ino else c
    c.setInode ino { i' with authCap := some mds }
  else c.setInode ino i'

/-- The cap of the peer that an import replaces. -/
def removePeer (c : Client) (ino : ℕ) (peer : Option ℕ) : Checked Client :=
  match peer with
  | some peer => if (c.inodes ino).caps.contains peer then c.removeCap ino peer else pure c
  | none => pure c

/-- `handle_cap_import`. -/
def handleCapImport (c : Client) (ino mds : ℕ) (issued : Mask) (newer : Bool) (peer : Option ℕ) : Checked Client := do
  let c ← (c.addUpdateCap ino mds issued true newer).removePeer ino peer
  if (c.inodes ino).authCap = some mds ∧ (c.inodes ino).flushingCaps ≠ ∅ then c.flushCaps ino mds else pure c

/-- The cap of the peer, in `handle_cap_export`. -/
def exportTo (c : Client) (ino mds peer : ℕ) (newer newerAuth : Bool) : Client :=
  let c := c.openSession peer
  let i := c.inodes ino
  if i.caps.contains peer then
    if newer then
      let authCap := if i.authCap = some mds then some peer else i.authCap
      let c := if authCap = some peer ∧ c.isOnList ino then c.pushBack peer ino else c
      c.setInode ino { i with
        authCap := authCap
        caps := i.caps.insert peer ((i.caps[peer]?).getD ∅ ∪ (i.caps[mds]?).getD ∅) }
    else c
  else c.addUpdateCap ino peer ((i.caps[mds]?).getD ∅) (i.authCap == some mds) newerAuth

/-- `handle_cap_export`. -/
def handleCapExport (c : Client) (ino mds : ℕ) (peer : Option ℕ) (newer newerAuth : Bool) : Checked Client :=
  if (c.inodes ino).caps.contains mds then
    (match peer with
      | some peer => c.exportTo ino mds peer newer newerAuth
      | none => c).removeCap ino mds
  else pure c

/-- `kick_flushing_caps`. -/
def kickFlushingCaps (c : Client) (mds : ℕ) : Checked Client :=
  (c.flushingCaps mds).foldlM (fun c ino =>
    if (c.inodes ino).flushingCaps ≠ ∅ then c.flushCaps ino mds else pure c) c

/-- `remove_session_caps`, for the cap of one inode. -/
def removeSessionCap (i : Inode) (mds : ℕ) : Inode :=
  if i.authCap = some mds then
    { i with caps := i.caps.erase mds, authCap := none, dirtyCaps := ∅, flushingCaps := ∅, losses := i.losses + 1 }
  else { i with caps := i.caps.erase mds }

/-- `_closed_mds_session`: `remove_session_caps`, and the session is erased. -/
def closedMdsSession (c : Client) (mds : ℕ) : Client :=
  { c with
    inodes := fun ino => removeSessionCap (c.inodes ino) mds
    mdsSessions := c.mdsSessions.erase mds
    flushingCaps := fun m => (c.flushingCaps m).filter fun ino => (c.inodes ino).authCap != some mds }

/-- `wait_sync_caps` finds nothing to wait for. -/
def waitSyncCaps (c : Client) (want : ℕ) : Bool :=
  decide (∀ mds ∈ c.mdsSessions, ∀ ino ∈ (c.flushingCaps mds).head?, want < (c.inodes ino).flushingCapSeq)

end Client

inductive Action
  | openSession (mds : ℕ)
  | closedMdsSession (mds : ℕ)
  /-- A grant, or a release. -/
  | setImplemented (ino mds : ℕ) (implemented : Mask)
  | markCapsDirty (ino : ℕ) (caps : Mask)
  | checkCaps (ino : ℕ)
  | flushSnap (ino : ℕ)
  /-- An MDS acknowledges the flush `n`, or some of its bits. -/
  | flushAck (ino mds n : ℕ) (dirty : Mask)
  /-- `add_update_cap`, from a reply. -/
  | addUpdateCap (ino mds : ℕ) (issued : Mask) (auth newer : Bool)
  | handleCapImport (ino mds : ℕ) (issued : Mask) (newer : Bool) (peer : Option ℕ)
  | handleCapExport (ino mds : ℕ) (peer : Option ℕ) (newer newerAuth : Bool)
  | removeCap (ino mds : ℕ)
  | kickFlushingCaps (mds : ℕ)

def Client.step (c : Client) : Action → Option Client
  | .openSession mds => some (c.openSession mds)
  | .closedMdsSession mds => some (c.closedMdsSession mds)
  | .setImplemented ino mds implemented =>
    if (c.inodes ino).caps.contains mds then
      some (c.setInode ino { c.inodes ino with caps := (c.inodes ino).caps.insert mds implemented })
    else none
  | .markCapsDirty ino caps => some (c.markCapsDirty ino caps)
  | .checkCaps ino => (c.checkCaps ino).toOption
  | .flushSnap ino => some (c.flushSnap ino)
  | .flushAck ino mds n dirty =>
    if (c.inodes ino).caps.contains mds ∧ ∃ p ∈ (c.inodes ino).sent, p.1 = n ∧ dirty ⊆ p.2 then
      some (c.handleCapFlushAck ino n dirty)
    else none
  | .addUpdateCap ino mds issued auth newer =>
    if mds ∈ c.mdsSessions then some (c.addUpdateCap ino mds issued auth newer) else none
  | .handleCapImport ino mds issued newer peer =>
    if mds ∈ c.mdsSessions then (c.handleCapImport ino mds issued newer peer).toOption else none
  | .handleCapExport ino mds peer newer newerAuth => (c.handleCapExport ino mds peer newer newerAuth).toOption
  | .removeCap ino mds => (c.removeCap ino mds).toOption
  | .kickFlushingCaps mds => (c.kickFlushingCaps mds).toOption

/-! ## `_fsync` -/

/-- The caps of an inode, and which of them are flushed. -/
def Client.flushEach (c : Client) (ino : ℕ) : Checked Client :=
  (c.inodes ino).caps.toList.foldlM (fun c p =>
    if p.2 \ anyFileWr ≠ ∅ then do
      assert (decide (p.1 ∈ c.mdsSessions))
      c.flushCaps ino p.1
    else pure c) c

/-- `_fsync` with data and metadata, up to where it waits, with `wait_on_flush` if metadata was flushed. -/
def Client.fsyncStart (c : Client) (ino : ℕ) : Checked (Client × Option ℕ) :=
  if (c.inodes ino).dirtyCaps \ anyFileWr ≠ ∅ then do
    let c ← c.flushEach ino
    pure (c, some (c.inodes ino).lastFlushTid)
  else pure (c, none)

/-- `_fsync` can return zero, after a successful writeback. -/
def Client.fsyncReturns (c : Client) (waitOnFlush : Option ℕ) : Bool := waitOnFlush.all c.waitSyncCaps

end CephMds.SyncCaps
