import CephMds.Framework.Run
import CephMds.Framework.Check

/-!
# Beacons and their acknowledgements

`Beacon::_send`, `Beacon::handle_mds_beacon` and `Beacon::is_laggy`. A reading
of the clock comes with each step. The map `seq_stamp` is a list in the order
of its keys. The timer, the content of a beacon, and the monitor session that
is opened again are left out.
-/

namespace CephMds.Beacons

open Checked

structure Beacon where
  lastSeq : ℕ
  seqStamp : List (ℕ × ℕ)
  lastAckedStamp : ℕ
  wasLaggy : Bool
  laggyUntil : ℕ
  lastMonReconnect : ℕ

/-- `mds_beacon_grace` and `mds_beacon_interval`. -/
structure Conf where
  grace : ℕ
  interval : ℕ

/-- `m[k] = v`. -/
def insert (m : List (ℕ × ℕ)) (k v : ℕ) : List (ℕ × ℕ) :=
  m.filter (fun p => p.1 < k) ++ (k, v) :: m.filter (fun p => k < p.1)

namespace Beacon

/-- The constructor. -/
def initial : Beacon := ⟨0, [], 0, false, 0, 0⟩

/-- `_send`. -/
def send (b : Beacon) (isHealthy : Bool) (now : ℕ) : Beacon :=
  if !isHealthy then b
  else { b with lastSeq := b.lastSeq + 1, seqStamp := insert b.seqStamp (b.lastSeq + 1) now }

/-- The beacon `seq`, sent at `stamp`, is acknowledged. -/
def acknowledge (conf : Conf) (b : Beacon) (seq stamp now : ℕ) : Checked Beacon := do
  assert (stamp > b.lastAckedStamp)
  let rtt := now - stamp
  let b := { b with lastAckedStamp := stamp }
  let b := if b.wasLaggy && rtt < conf.grace then { b with wasLaggy := false, laggyUntil := now } else b
  return { b with seqStamp := b.seqStamp.dropWhile fun p => p.1 ≤ seq }

/-- `handle_mds_beacon`. -/
def handleMdsBeacon (conf : Conf) (b : Beacon) (seq now : ℕ) : Checked Beacon :=
  match b.seqStamp.find? fun p => p.1 = seq with
  | some p => b.acknowledge conf seq p.2 now
  | none => return b

/-- `is_laggy`, with the beacon after it. -/
def isLaggy (conf : Conf) (b : Beacon) (now : ℕ) : Bool × Beacon :=
  if b.lastAckedStamp = 0 then (false, b)
  else
    let since := now - b.lastAckedStamp
    if since > conf.grace then
      let b := { b with wasLaggy := true }
      if since > conf.grace * 2 ∧ now > b.lastMonReconnect + conf.interval then
        (true, { b with lastMonReconnect := now })
      else (true, b)
    else (false, b)

end Beacon

/-- The beacon with what has happened: the last reading of the clock, the time
each beacon was sent at, and the highest one that has been acknowledged. -/
structure System where
  beacon : Beacon
  clock : ℕ
  sent : ℕ → ℕ
  acked : ℕ

def System.initial : System := ⟨.initial, 0, fun _ => 0, 0⟩

inductive Action
  | send (isHealthy : Bool)
  | ack (seq : ℕ)
  | isLaggy
  deriving DecidableEq

/-- A step at a reading of the clock. It is undefined if the assertion fails. -/
def step (conf : Conf) (s : System) : Action × ℕ → Option System
  | (.send isHealthy, now) =>
    let b := s.beacon.send isHealthy now
    some { s with beacon := b, clock := now, sent := if isHealthy then Function.update s.sent b.lastSeq now else s.sent }
  | (.ack seq, now) =>
    (s.beacon.handleMdsBeacon conf seq now).toOption.map fun b =>
      { s with beacon := b, clock := now, acked := if seq ≤ s.beacon.lastSeq then max s.acked seq else s.acked }
  | (.isLaggy, now) => some { s with beacon := (s.beacon.isLaggy conf now).2, clock := now }

end CephMds.Beacons
