import CephMds.Framework.Run
import CephMds.Model.Caps

/-!
# A chain of migrations

The authority over an inode moves along the ranks `A0, .., An`. Rank `k` sends
reply traces and grants (`pre`), then its `IMPORT`, more traces and grants (`post`),
and then the `EXPORT` to rank `k + 1`. Rank 0 begins after its import. The messages
of one rank arrive in this order, those of different ranks in any order.
-/

namespace CephMds.Caps

open Checked Writes

/-- A reply trace, or a grant. -/
structure Note where
  isTrace : Bool
  seq : ℕ
  caps : Mask

structure Chain where
  n : ℕ
  rank : ℕ → ℕ
  capId : ℕ → ℕ
  /-- The sequence number and the caps of the import. -/
  seq : ℕ → ℕ
  caps : ℕ → Mask
  wanted : Mask
  /-- The cap that the client had from the rank before. -/
  had : ℕ → Option Note
  pre : ℕ → List Note
  post : ℕ → List Note

/-- A message as it arrives. -/
inductive Delivery
  | trace (g : Grant)
  | grant (m : Msg)
  | importCap (m : Msg)
  | exportCap (m : Msg)

namespace Chain

def peer (ch : Chain) (k : ℕ) : Peer := ⟨ch.rank k, ch.capId k, BitVec.ofNat 32 (ch.seq k), BitVec.ofNat 32 k⟩

/-- A trace or a grant of rank `k`, with the auth flag or not. -/
def noteMsg (ch : Chain) (k mseq : ℕ) (auth : Bool) (note : Note) : Delivery :=
  if note.isTrace then .trace ⟨ch.capId k, note.caps, BitVec.ofNat 32 note.seq, BitVec.ofNat 32 mseq, auth⟩
  else .grant ⟨ch.capId k, note.caps, BitVec.ofNat 32 note.seq, BitVec.ofNat 32 mseq, ch.wanted, ⟨0, 0, 0, 0⟩⟩

def importMsg (ch : Chain) (k : ℕ) : Delivery :=
  .importCap ⟨ch.capId k, ch.caps k, BitVec.ofNat 32 (ch.seq k), BitVec.ofNat 32 k, ch.wanted, ch.peer (k - 1)⟩

/-- The export from `k` to `k + 1`. -/
def exportMsg (ch : Chain) (k : ℕ) : Delivery :=
  .exportCap ⟨ch.capId k, ∅, 0, BitVec.ofNat 32 k, ∅, ch.peer (k + 1)⟩

/-- The messages of rank `k`. -/
def queue (ch : Chain) (k : ℕ) : List Delivery :=
  (ch.pre k).map (ch.noteMsg k 0 false) ++ ch.importMsg k :: (ch.post k).map (ch.noteMsg k k true) ++
    if k < ch.n then [ch.exportMsg k] else []

end Chain

/-- `handle_caps`, or a reply. -/
def Local.receive (l : Local) (env : Env) (mds : ℕ) : Delivery → Checked Local
  | .trace g => l.addUpdateCap env mds g
  | .grant m => if l.inode.caps.contains mds then l.handleCapGrant env mds false m else pure l
  | .importCap m => l.handleCapImport env mds m
  | .exportCap m => l.handleCapExport env mds m

/-- The client, and how many messages of each rank it has received. -/
structure Migrating where
  l : Local
  done : ℕ → ℕ

namespace Migrating

/-- The next message of rank `k` arrives. -/
def step (ch : Chain) (s : Migrating) (a : ℕ × Env) : Option Migrating :=
  if a.1 ≤ ch.n then
    match (ch.queue a.1)[s.done a.1]? with
    | none => none
    | some d => (s.l.receive a.2 (ch.rank a.1) d).toOption.map fun l =>
      ⟨l, Function.update s.done a.1 (s.done a.1 + 1)⟩
  else none

/-- The caps that the client has at first. -/
def startCaps (ch : Chain) : Std.ExtTreeMap ℕ Cap :=
  (List.range (ch.n + 1)).foldl (fun m k =>
    match if k = 0 then some ⟨false, ch.seq 0, ch.caps 0⟩ else ch.had k with
    | none => m
    | some note => m.insert (ch.rank k)
        ⟨ch.capId k, note.caps, note.caps, ch.wanted, BitVec.ofNat 32 note.seq, BitVec.ofNat 32 note.seq, 0⟩) ∅

/-- The cap of rank 0 is the auth cap, and no message has arrived yet. -/
def start (ch : Chain) (inode : Inode) : Migrating where
  l := ⟨{ inode with caps := startCaps ch, authCap := some (ch.rank 0) }, 0⟩
  done k := if k = 0 then 1 else 0

end Migrating

end CephMds.Caps
