import CephMds.Framework.Run
import CephMds.Framework.Check

/-!
# Truncation of a file

One inode: the requests that truncate it (`Server::handle_client_setattr`,
`do_open_truncate` and their completion `C_MDS_inode_update_finish`), the
truncation of its data (`MDCache::truncate_inode` to `truncate_inode_logged`)
and what a replay makes of the journal. An entry of the journal holds the
inode as of that entry, and its segment. Entries complete in the order in
which they were submitted. The request and its completion, the message to the
client, the snap context, the waiters and the locks are left out.

The expiry of segments is not part of the sources. It drops the oldest
segment, once the entries of the segment are logged and the inode is written
to its directory as of the last of them, and not while the inode is in the
`truncating_inodes` of the segment.
-/

namespace CephMds.Truncate

open Checked

/-- The fields of `inode_t` that a truncation uses. The sizes are of 64 bits,
the sequence number and the counter of 32. -/
structure Inode where
  size : ℕ
  truncateSeq : ℕ
  truncateSize : ℕ
  truncateFrom : ℕ
  truncatePending : ℕ
  deriving DecidableEq

namespace Inode

def isTruncating (i : Inode) : Bool := 0 < i.truncatePending

/-- `inode_t::truncate`. -/
def truncate (i : Inode) (oldSize newSize : ℕ) : Checked Inode := do
  assert (newSize < oldSize)
  return { size := newSize, truncateSeq := (i.truncateSeq + 1) % 2 ^ 32, truncateSize := newSize,
           truncateFrom := oldSize, truncatePending := (i.truncatePending + 1) % 2 ^ 32 }

/-- What `truncate_inode_finish` projects. The counter wraps. -/
def finish (i : Inode) : Inode :=
  { i with truncateFrom := 0, truncatePending := (i.truncatePending + (2 ^ 32 - 1)) % 2 ^ 32 }

end Inode

/-- What an entry of the journal says of the inode besides its fields. -/
inductive Record
  /-- A request; with `add_truncate_start` if it makes the file smaller. -/
  | update (truncatingSmaller : Bool)
  /-- `add_truncate_finish`, with the segment where the truncation started. -/
  | finish (ls : ℕ)
  deriving DecidableEq

structure Entry where
  /-- The sequence number of its segment. -/
  ls : ℕ
  record : Record
  inode : Inode
  deriving DecidableEq

/-- `Filer::truncate` under way, with the segment of its `C_IO_MDC_TruncateFinish`. -/
structure Op where
  ls : ℕ
  offset : ℕ
  length : ℕ
  seq : ℕ
  deriving DecidableEq

structure Mds where
  inode : Inode
  /-- The inode as of the last entry that was dropped with its segment. -/
  base : Inode
  /-- The entries that are logged and applied. -/
  logged : List Entry
  /-- The entries that were submitted after them. -/
  queue : List Entry
  /-- The segments before the current one. -/
  older : List ℕ
  current : ℕ
  /-- The segments with the inode in `truncating_inodes`. -/
  truncatingInodes : Finset ℕ
  /-- The references under `PIN_TRUNCATING`. -/
  pinTruncating : ℕ
  authPins : ℕ
  outstanding : List Op
  deriving DecidableEq

namespace Mds

/-- `mdlog->segments`, in order. -/
def segments (s : Mds) : List ℕ := s.older ++ [s.current]

def getProjectedInode (s : Mds) : Inode := (s.queue.getLast?.map Entry.inode).getD s.inode

/-- `project_inode` to `submit_entry`. -/
def submit (s : Mds) (record : Record) (i : Inode) : Mds :=
  { s with queue := s.queue ++ [⟨s.current, record, i⟩] }

/-- `handle_client_setattr`; with no size if `CEPH_SETATTR_SIZE` is not in the mask. -/
def setattr (s : Mds) (size : Option ℕ) (oldSize : ℕ) : Checked Mds :=
  let pi := s.getProjectedInode
  match size with
  | none => return s.submit (.update false) pi
  | some size =>
    if size < max pi.size oldSize then
      if pi.isTruncating then return s -- waits for `WAIT_TRUNC`
      else do
        let i ← pi.truncate (max pi.size oldSize) size
        return s.submit (.update true) i
    else return s.submit (.update false) { pi with size := size }

/-- `handle_client_open` with `O_TRUNC`, and `do_open_truncate`. -/
def openTruncate (s : Mds) (oldSize : ℕ) : Checked Mds :=
  let pi := s.getProjectedInode
  if pi.isTruncating then return s -- waits for `WAIT_TRUNC`
  else if 0 < max pi.size oldSize then do
    let i ← pi.truncate (max pi.size oldSize) 0
    return s.submit (.update true) i
  else return s.submit (.update false) pi

/-- `_truncate_inode`. -/
def startTruncate (s : Mds) (ls : ℕ) : Checked Mds := do
  let pi := s.inode
  assert pi.isTruncating
  assert (pi.truncateSize < 2 ^ 63)
  assert (pi.truncateFrom < 2 ^ 63)
  assert (pi.truncateSize < pi.truncateFrom)
  return { s with
    authPins := s.authPins + 1
    outstanding := s.outstanding ++
      [⟨ls, pi.truncateSize, pi.truncateFrom - pi.truncateSize, pi.truncateSeq⟩] }

/-- `add_recovered_truncate`, and the first part of `truncate_inode`. -/
def addTruncate (s : Mds) (ls : ℕ) : Mds :=
  { s with truncatingInodes := insert ls s.truncatingInodes, pinTruncating := s.pinTruncating + 1 }

def truncateInode (s : Mds) (ls : ℕ) : Checked Mds := (s.addTruncate ls).startTruncate ls

def truncateInodeFinish (s : Mds) (ls : ℕ) : Checked Mds := do
  assert (ls ∈ s.truncatingInodes)
  return { s with truncatingInodes := s.truncatingInodes.erase ls }.submit (.finish ls) s.getProjectedInode.finish

/-- `put(PIN_TRUNCATING)`. -/
def put (s : Mds) : Checked Mds := do
  assert (0 < s.pinTruncating)
  return { s with pinTruncating := s.pinTruncating - 1 }

def authUnpin (s : Mds) : Checked Mds := do
  assert (0 < s.authPins)
  return { s with authPins := s.authPins - 1 }

/-- `truncate_inode_logged`, without the application of the entry. -/
def truncateInodeLogged (s : Mds) : Checked Mds := do
  let s ← s.put
  s.authUnpin

/-- The completion of an entry: `C_MDS_inode_update_finish` or `C_MDC_TruncateLogged`. -/
def complete (s : Mds) (e : Entry) : Checked Mds :=
  match e.record with
  | .update truncatingSmaller =>
    if truncatingSmaller && s.inode.isTruncating then s.truncateInode e.ls else return s
  | .finish _ => s.truncateInodeLogged

/-- The oldest entry that was submitted is logged and applied. -/
def journaled (s : Mds) : Checked Mds :=
  match s.queue with
  | [] => return s
  | e :: queue => { s with inode := e.inode, queue := queue, logged := s.logged ++ [e] }.complete e

/-- An operation on the data is done: `C_IO_MDC_TruncateFinish`. -/
def truncated (s : Mds) (i : ℕ) : Checked Mds := do
  let op ← deref s.outstanding[i]?
  { s with outstanding := s.outstanding.eraseIdx i }.truncateInodeFinish op.ls

def removeRecoveredTruncate (s : Mds) (ls : ℕ) : Checked Mds := do
  assert (ls ∈ s.truncatingInodes)
  { s with truncatingInodes := s.truncatingInodes.erase ls }.put

/-- The replay of an entry. -/
def replay (s : Mds) (e : Entry) : Checked Mds :=
  let s := { s with inode := e.inode }
  match e.record with
  | .update truncatingSmaller => return if truncatingSmaller then s.addTruncate e.ls else s
  | .finish ls => if ls ∈ s.segments then s.removeRecoveredTruncate ls else return s

def startRecoveredTruncates (s : Mds) : Checked Mds :=
  s.segments.foldlM (fun s ls => if ls ∈ s.truncatingInodes then s.startTruncate ls else return s) s

/-- A crash, with `log` and the segments `older` in the journal, and the
recovery, which begins a new segment. -/
def recover (s : Mds) (log : List Entry) (older : List ℕ) (current : ℕ) : Checked Mds := do
  let s : Mds :=
    { inode := s.base, base := s.base, logged := log, queue := [], older := older, current := current,
      truncatingInodes := ∅, pinTruncating := 0, authPins := 0, outstanding := [] }
  let s ← log.foldlM replay s
  s.startRecoveredTruncates

/-- The oldest segment expires. -/
def trim (s : Mds) : Mds :=
  match s.older with
  | [] => s
  | ls :: older =>
    { s with
      base := ((s.logged.takeWhile (·.ls = ls)).getLast?.map Entry.inode).getD s.base
      logged := s.logged.dropWhile (·.ls = ls)
      older := older }

end Mds

inductive Action
  | setattr (size : Option ℕ) (oldSize : ℕ)
  | openTruncate (oldSize : ℕ)
  | journaled
  /-- The `i`-th operation that is under way is done. -/
  | truncated (i : ℕ)
  | newSegment (ls : ℕ)
  | trim
  /-- After `n` more entries and the first `k` segments reached the journal. -/
  | crash (n k ls : ℕ)
  deriving DecidableEq

namespace Mds

/-- The entries and the segments that a crash leaves. -/
def survivingLog (s : Mds) (n : ℕ) : List Entry := s.logged ++ s.queue.take n

def survivingSegments (s : Mds) (k : ℕ) : List ℕ := s.segments.take k

/-- When an action can happen. -/
def Possible (s : Mds) : Action → Prop
  | .setattr size oldSize => oldSize < 2 ^ 64 ∧ ∀ n ∈ size, n < 2 ^ 64
  | .openTruncate oldSize => oldSize < 2 ^ 64
  | .journaled => s.queue ≠ []
  | .truncated i => i < s.outstanding.length
  | .newSegment ls => s.current < ls
  | .trim => ∃ ls ∈ s.older.head?, ls ∉ s.truncatingInodes ∧ ∀ e ∈ s.queue, e.ls ≠ ls
  | .crash n k ls => (∀ e ∈ s.survivingLog n, e.ls ∈ s.survivingSegments k) ∧ ∀ x ∈ s.survivingSegments k, x < ls

instance decidablePossible (s : Mds) : ∀ a, Decidable (s.Possible a)
  | .setattr size oldSize => inferInstanceAs (Decidable (oldSize < 2 ^ 64 ∧ ∀ n ∈ size, n < 2 ^ 64))
  | .openTruncate oldSize => inferInstanceAs (Decidable (oldSize < 2 ^ 64))
  | .journaled => inferInstanceAs (Decidable (s.queue ≠ []))
  | .truncated i => inferInstanceAs (Decidable (i < s.outstanding.length))
  | .newSegment ls => inferInstanceAs (Decidable (s.current < ls))
  | .trim =>
    inferInstanceAs (Decidable
      (∃ ls ∈ s.older.head?, ls ∉ s.truncatingInodes ∧ ∀ e ∈ s.queue, e.ls ≠ ls))
  | .crash n k ls =>
    inferInstanceAs (Decidable
      ((∀ e ∈ s.survivingLog n, e.ls ∈ s.survivingSegments k) ∧ ∀ x ∈ s.survivingSegments k, x < ls))

def perform (s : Mds) : Action → Checked Mds
  | .setattr size oldSize => s.setattr size oldSize
  | .openTruncate oldSize => s.openTruncate oldSize
  | .journaled => s.journaled
  | .truncated i => s.truncated i
  | .newSegment ls => return { s with older := s.segments, current := ls }
  | .trim => return s.trim
  | .crash n k ls => s.recover (s.survivingLog n) (s.survivingSegments k) ls

/-- A file that is not being truncated, with an empty journal. -/
def initial (i : Inode) (ls : ℕ) : Mds where
  inode := i
  base := i
  logged := []
  queue := []
  older := []
  current := ls
  truncatingInodes := ∅
  pinTruncating := 0
  authPins := 0
  outstanding := []

end Mds

/-- A possible step that fails no assertion. -/
def step (s : Mds) (a : Action) : Option Mds := if s.Possible a then (s.perform a).toOption else none

end CephMds.Truncate
