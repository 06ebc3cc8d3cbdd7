import CephMds.Framework.Run
import CephMds.Model.Caps

/-!
# Runs of a client that flushes caps

Any number of inodes, with the messages and the calls that change their caps. A
flush is acknowledged with its tid, cut to 16 bits, and with the bits that were
flushed, or some of them: any number of times, as long as fewer than 65536 flushes
of the inode have followed.
-/

namespace CephMds.Caps

open Checked Writes

structure Client where
  inodes : Std.ExtTreeMap ℕ Inode
  numFlushingCaps : ℤ

/-- What happens to an inode. -/
inductive Call
  | markCapsDirty (caps : Mask)
  | checkCaps (env : Env) (isDelayed : Bool)
  /-- `flush_snaps`, of one cap snap or of all. -/
  | flushSnaps (allAgain : Bool) (again : Option ℕ)
  /-- The ack of the flush `n`. -/
  | flushAck (n : ℕ) (dirty : Mask)
  | grant (env : Env) (mds : ℕ) (m : Msg)
  | importCap (env : Env) (mds : ℕ) (m : Msg)
  | exportCap (env : Env) (mds : ℕ) (m : Msg)
  /-- `add_update_cap`, from a reply. -/
  | addUpdateCap (env : Env) (mds : ℕ) (g : Grant)
  | removeCap (mds : ℕ)

/-- A flush of which an ack may come. -/
def Inode.flushed (inode : Inode) (n : ℕ) (dirty : Mask) : Bool :=
  decide (inode.lastFlushTid < n + 65536) && inode.sent.any fun
    | .caps _ tid _ flush => tid == n && decide (flush ≠ ∅) && decide (dirty ⊆ flush)
    | .flushsnap .. => false

def Local.call (l : Local) : Call → Checked Local
  | .markCapsDirty caps => pure { l with inode := l.inode.markCapsDirty caps }
  | .checkCaps env isDelayed => l.checkCaps env isDelayed
  | .flushSnaps allAgain again => do
    let inode ← l.inode.flushSnaps allAgain again
    pure { l with inode := inode }
  | .flushAck n dirty => do
    assert (l.inode.flushed n dirty)
    pure (l.handleCapFlushAck (BitVec.ofNat 16 n) dirty)
  | .grant env mds m => l.handleCapGrant env mds false m
  | .importCap env mds m => l.handleCapImport env mds m
  | .exportCap env mds m => l.handleCapExport env mds m
  | .addUpdateCap env mds g => l.addUpdateCap env mds g
  | .removeCap mds => do
    let inode ← l.inode.removeCap mds
    pure { l with inode := inode }

/-- A function of an inode. -/
def Client.onInode (f : ℕ → Local → Checked Local) (c : Client) (ino : ℕ) : Checked Client :=
  match c.inodes[ino]? with
  | none => pure c
  | some inode => do
    let l ← f ino ⟨inode, c.numFlushingCaps⟩
    pure ⟨c.inodes.insert ino l.inode, l.numFlushingCaps⟩

inductive Action
  | newInode (ino : ℕ)
  | call (ino : ℕ) (a : Call)
  /-- `kick_flushing_caps`, with the environment of each inode. -/
  | kickFlushingCaps (env : ℕ → Env) (mds : ℕ)
  /-- `remove_session_caps`. -/
  | removeSessionCaps (mds : ℕ)

def Client.step (c : Client) : Action → Option Client
  | .newInode ino =>
    if c.inodes.contains ino then none else some { c with inodes := c.inodes.insert ino .new }
  | .call ino a => (c.onInode (fun _ l => l.call a) ino).toOption
  | .kickFlushingCaps env mds =>
    (c.inodes.keys.foldlM (Client.onInode fun ino l => l.kickFlushingCaps (env ino) mds) c).toOption
  | .removeSessionCaps mds => (c.inodes.keys.foldlM (Client.onInode fun _ l => l.removeSessionCaps mds) c).toOption

def Client.empty : Client := ⟨∅, 0⟩

end CephMds.Caps
