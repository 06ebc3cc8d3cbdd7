import CephMds.Framework.Channel
import CephMds.Framework.Run
import Mathlib

/-!
# The load exchange of the balancer

`MDBalancer::send_heartbeat` and `MDBalancer::handle_heartbeat` of the ranks of
a cluster that is active, not degraded, and whose caches are open. What a rank
measures when it sends (`get_load` and the import map) is an argument.
`Exchange` is the cluster with the heartbeats on their way.
-/

namespace CephMds

variable {n : ℕ} {Λ M : Type}

/-- `MHeartbeat`. -/
structure MHeartbeat (Λ M : Type) where
  load : Λ
  beat : ℕ
  importMap : M
  deriving DecidableEq

/-- What a rank measures: `get_load`, and how much it imports from whom. -/
structure Measured (Λ M : Type) where
  load : Λ
  importMap : M

/-- The fields of `MDBalancer` that the exchange uses. -/
structure Balancer (n : ℕ) (Λ M : Type) where
  beatEpoch : ℕ
  mdsLoad : Fin n → Option Λ
  mdsImportMap : Fin n → Option M

namespace Balancer

variable [NeZero n]

/-- `mds_load.size()`. -/
def mdsLoadSize (b : Balancer n Λ M) : ℕ := (Finset.univ.filter fun who => (b.mdsLoad who).isSome).card

/-- `MDBalancer::send_heartbeat`, with the message for all other ranks. -/
def sendHeartbeat (b : Balancer n Λ M) (whoami : Fin n) (now : Measured Λ M) :
    Balancer n Λ M × MHeartbeat Λ M :=
  let epoch := if whoami = 0 then b.beatEpoch + 1 else b.beatEpoch
  ({ beatEpoch := epoch
     mdsLoad := Function.update (fun _ => none) whoami (some now.load)
     mdsImportMap := Function.update b.mdsImportMap whoami (some now.importMap) },
    { load := now.load, beat := epoch, importMap := now.importMap })

/-- "From mds0, new epoch". -/
def newEpoch (b : Balancer n Λ M) (whoami : Fin n) (now : Measured Λ M) (who : Fin n)
    (m : MHeartbeat Λ M) : Balancer n Λ M × Option (MHeartbeat Λ M) :=
  if who = 0 then
    let (b, hb) := sendHeartbeat { b with beatEpoch := m.beat } whoami now
    (b, some hb)
  else (b, none)

/-- Sets `mds_load[who]` and `mds_import_map[who]`. -/
def insertLoad (b : Balancer n Λ M) (who : Fin n) (m : MHeartbeat Λ M) : Balancer n Λ M :=
  { b with
    mdsLoad := Function.update b.mdsLoad who (some m.load)
    mdsImportMap := Function.update b.mdsImportMap who (some m.importMap) }

/-- `MDBalancer::handle_heartbeat`, with what it sends. -/
def handleHeartbeat (b : Balancer n Λ M) (whoami : Fin n) (now : Measured Λ M) (who : Fin n)
    (m : MHeartbeat Λ M) : Balancer n Λ M × Option (MHeartbeat Λ M) :=
  let (b, sent) := b.newEpoch whoami now who m
  (b.insertLoad who m, sent)

/-- "Let's go!": the test at the end of `handle_heartbeat`, `n` being the size
of the cluster. -/
def balances (b : Balancer n Λ M) : Bool := b.mdsLoadSize == n

end Balancer

/-! ## The cluster -/

/-- A decision to balance: who takes it, in which epoch, and on which loads. -/
structure Decision (n : ℕ) (Λ : Type) where
  whoami : Fin n
  beatEpoch : ℕ
  mdsLoad : Fin n → Option Λ
  deriving DecidableEq

/-- All ranks, the heartbeats on their way, and what has been sent and decided so far. -/
structure Exchange (n : ℕ) (Λ M : Type) where
  ranks : Fin n → Balancer n Λ M
  net : Channels (Fin n) (MHeartbeat Λ M)
  sent : List (Fin n × MHeartbeat Λ M)
  decisions : List (Decision n Λ)

/-- A tick of rank 0 that sends, or the arrival of a heartbeat at a rank. -/
inductive Exchange.Action (n : ℕ) (Λ M : Type)
  | tick (now : Measured Λ M)
  | deliver (who whoami : Fin n) (now : Measured Λ M)

namespace Exchange

variable [NeZero n]

/-- No rank has seen an epoch. -/
def initial : Exchange n Λ M where
  ranks _ := ⟨0, fun _ => none, fun _ => none⟩
  net := .empty _ _
  sent := []
  decisions := []

/-- Rank `whoami` sends `hb` to all others. -/
def broadcast (s : Exchange n Λ M) (whoami : Fin n) (hb : MHeartbeat Λ M) : Exchange n Λ M :=
  { s with net := s.net.broadcast whoami hb, sent := (whoami, hb) :: s.sent }

/-- The state of `whoami` is `b`. -/
def setRank (s : Exchange n Λ M) (whoami : Fin n) (b : Balancer n Λ M) : Exchange n Λ M :=
  { s with ranks := Function.update s.ranks whoami b }

/-- `whoami` balances if it has a load of every rank. -/
def decide (s : Exchange n Λ M) (whoami : Fin n) : Exchange n Λ M :=
  let b := s.ranks whoami
  if b.balances then { s with decisions := ⟨whoami, b.beatEpoch, b.mdsLoad⟩ :: s.decisions } else s

def step (s : Exchange n Λ M) : Action n Λ M → Option (Exchange n Λ M)
  | .tick now =>
    let (b, hb) := (s.ranks 0).sendHeartbeat 0 now
    some ((s.setRank 0 b).broadcast 0 hb)
  | .deliver who whoami now =>
    match s.net who whoami with
    | [] => none
    | m :: ms =>
      let (b, sent) := (s.ranks whoami).handleHeartbeat whoami now who m
      let s := { s with net := s.net.put who whoami ms }.setRank whoami b
      some ((sent.elim s (s.broadcast whoami)).decide whoami)

end Exchange

end CephMds
