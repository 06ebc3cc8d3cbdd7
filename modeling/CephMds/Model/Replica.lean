import CephMds.Framework.Check
import CephMds.Framework.Run
import Mathlib.Data.List.AList
import Mathlib.Data.UInt

/-!
# Replicas of a cached object

The authority of an object and the ranks that replicate it. The authority
numbers the replicas it sends to a rank (`MDSCacheObject::add_replica`), a
rank that trims its replica returns the number in an expire message, and
`MDCache::handle_cache_expire` forgets the rank where the number is the
current one. `replicas` and `expires` are the messages on their way to and
from each rank, oldest first. The object is not being exported and its
authority is past rejoin: expires are neither delayed nor dropped unread.
-/

namespace CephMds.Replica

open Checked

variable {ρ : Type} [DecidableEq ρ]

/-- The part of `MDSCacheObject` that the authority keeps: `replica_map`, and
the references held for `PIN_REPLICATED`. -/
structure Object (ρ : Type) where
  replicaMap : AList fun _ : ρ => UInt32
  pinReplicated : ℕ

/-- `get(PIN_REPLICATED)`. -/
def Object.getPin (o : Object ρ) : Object ρ := { o with pinReplicated := o.pinReplicated + 1 }

/-- `put(PIN_REPLICATED)`. -/
def Object.putPin (o : Object ρ) : Checked (Object ρ) := do
  assert (0 < o.pinReplicated)
  pure { o with pinReplicated := o.pinReplicated - 1 }

/-- `add_replica(mds)`, with the nonce it returns. The nonce is an `unsigned`. -/
def Object.addReplica (o : Object ρ) (mds : ρ) : Object ρ × UInt32 :=
  match o.replicaMap.lookup mds with
  | some n => ({ o with replicaMap := o.replicaMap.insert mds (n + 1) }, n + 1)
  | none =>
    let o := if o.replicaMap.entries.isEmpty then o.getPin else o
    ({ o with replicaMap := o.replicaMap.insert mds 1 }, 1)

/-- `get_replica_nonce(mds)`. -/
def Object.getReplicaNonce (o : Object ρ) (mds : ρ) : Checked UInt32 :=
  match o.replicaMap.lookup mds with
  | some n => pure n
  | none => throw .assert

/-- `remove_replica(mds)`. -/
def Object.removeReplica (o : Object ρ) (mds : ρ) : Checked (Object ρ) := do
  assert (o.replicaMap.lookup mds).isSome
  let o := { o with replicaMap := o.replicaMap.erase mds }
  if o.replicaMap.entries.isEmpty then o.putPin else pure o

/-- What `handle_cache_expire` does for the expire of the object from `mds`. -/
def Object.handleCacheExpire (o : Object ρ) (mds : ρ) (nonce : UInt32) : Checked (Object ρ) := do
  let current ← o.getReplicaNonce mds
  if nonce = current then o.removeReplica mds else pure o

structure State (ρ : Type) where
  auth : Object ρ
  /-- `replica_nonce` at the ranks that hold the object. -/
  held : ρ → Option UInt32
  replicas : ρ → List UInt32
  expires : ρ → List UInt32

def init (ρ : Type) [DecidableEq ρ] : State ρ := ⟨⟨∅, 0⟩, fun _ => none, fun _ => [], fun _ => []⟩

inductive Action (ρ : Type)
  /-- The authority sends a replica to the rank. -/
  | encodeReplica (mds : ρ)
  /-- The rank receives the oldest replica on its way. -/
  | decodeReplica (mds : ρ)
  /-- The rank trims its replica. -/
  | trim (mds : ρ)
  /-- The authority receives the oldest expire from the rank. -/
  | handleCacheExpire (mds : ρ)
  deriving DecidableEq

def State.encodeReplica (s : State ρ) (mds : ρ) : State ρ :=
  let (o, nonce) := s.auth.addReplica mds
  { s with auth := o, replicas := Function.update s.replicas mds (s.replicas mds ++ [nonce]) }

/-- One step; undefined where the action is not possible or an assertion fails. -/
def step (s : State ρ) : Action ρ → Option (State ρ)
  | .encodeReplica mds => some (s.encodeReplica mds)
  | .decodeReplica mds =>
    match s.replicas mds with
    | [] => none
    | n :: ns => some { s with
        held := Function.update s.held mds (some n)
        replicas := Function.update s.replicas mds ns }
  | .trim mds =>
    match s.held mds with
    | none => none
    | some n => some { s with
        held := Function.update s.held mds none
        expires := Function.update s.expires mds (s.expires mds ++ [n]) }
  | .handleCacheExpire mds =>
    match s.expires mds with
    | [] => none
    | n :: ns => match s.auth.handleCacheExpire mds n with
      | .error _ => none
      | .ok o => some { s with auth := o, expires := Function.update s.expires mds ns }

/-- The nonces of the rank that are in use: those of the expires on their way,
of the replica held, and of the replicas on their way, oldest first. -/
def State.nonces (s : State ρ) (mds : ρ) : List UInt32 :=
  s.expires mds ++ (s.held mds).toList ++ s.replicas mds

/-- The nonce that is about to be sent is not in use. -/
def Fresh (s : State ρ) : Action ρ → Prop
  | .encodeReplica mds => (s.auth.addReplica mds).2 ∉ s.nonces mds
  | _ => True

instance (s : State ρ) : (a : Action ρ) → Decidable (Fresh s a)
  | .encodeReplica mds => inferInstanceAs (Decidable ((s.auth.addReplica mds).2 ∉ s.nonces mds))
  | .decodeReplica _ => .isTrue trivial
  | .trim _ => .isTrue trivial
  | .handleCacheExpire _ => .isTrue trivial

end CephMds.Replica
