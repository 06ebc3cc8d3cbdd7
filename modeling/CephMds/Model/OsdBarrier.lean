import CephMds.Framework.Run
import CephMds.Framework.Check
import Mathlib

/-!
# The OSD epoch barrier

`MDS::set_osd_epoch_barrier` with its two callers, `MDS::handle_mds_map` and
the command `osdmap barrier` of `MDS::asok_command`. Of the map it matters
which rank and state it gives to this daemon, and whether the daemon can go on
with it; what the daemon does on a change of its state, and the wait of the
command for the map, do not touch the barrier and are left out.
-/

namespace CephMds.OsdBarrier

open Checked

/-- `MDSMap::DaemonState`. -/
inductive DaemonState
  | null
  | boot
  | standby
  | creating
  | starting
  | standbyReplay
  | oneshotReplay
  | replay
  | resolve
  | reconnect
  | rejoin
  | clientreplay
  | active
  | stopping
  deriving DecidableEq, Repr

/-- What the map says of this daemon. The rank is negative if it has none. -/
structure MdsMap where
  epoch : ℕ
  /-- The compatset can be written. -/
  writeable : Bool
  rank : ℤ
  state : DaemonState
  standbyForRank : ℤ

structure Mds where
  mdsmapEpoch : ℕ
  whoami : ℤ
  state : DaemonState
  wantState : DaemonState
  standbyType : DaemonState
  osdEpoch : ℕ
  osdEpochBarrier : ℕ
  /-- After `suicide` or `respawn`. -/
  down : Bool

/-- The conversion to `epoch_t`, of 32 bits. -/
def toEpoch (e : ℤ) : ℕ := (e % 2 ^ 32).toNat

namespace Mds

/-- The constructor and `init`. -/
def initial (standbyType : DaemonState) (osdEpoch : ℕ) : Mds where
  mdsmapEpoch := 0
  whoami := -1
  state := .boot
  wantState := .boot
  standbyType := standbyType
  osdEpoch := osdEpoch
  osdEpochBarrier := 0
  down := false

def setOsdEpochBarrier (s : Mds) (e : ℕ) : Mds := { s with osdEpochBarrier := e }

/-- The daemon is not in the map. -/
def dropped (s : Mds) : Mds :=
  if s.wantState = .standby then { s with state := .boot, wantState := .boot }
  else if s.wantState = .boot then s
  else { s with down := true }

/-- "Did it change?", to the end. -/
def enter (s : Mds) (oldstate : DaemonState) : Checked Mds := do
  assert (oldstate ≠ s.state → oldstate = .standbyReplay → s.state = .replay)
  assert (oldstate ≠ s.state → oldstate ≠ .standbyReplay → s.state = .stopping → oldstate = .active)
  let s := if oldstate ≠ s.state then { s with wantState := s.state } else s
  return if s.state = .active then s.setOsdEpochBarrier s.osdEpoch else s

/-- `handle_mds_map`. -/
def handleMdsMap (s : Mds) (m : MdsMap) : Checked Mds :=
  if m.epoch ≤ s.mdsmapEpoch then return s
  else if !m.writeable then return { s with mdsmapEpoch := m.epoch, down := true }
  else
    let t := { s with mdsmapEpoch := m.epoch, whoami := m.rank, state := m.state }
    if m.state = .standby then
      return { t with wantState := if s.standbyType ≠ .null then s.standbyType else .standby }
    else if m.state = .standbyReplay ∧ s.standbyType ≠ .null ∧ s.standbyType ≠ .standbyReplay then
      return { t with wantState := s.standbyType, state := s.state }
    else if m.rank < 0 then
      if m.state = .standbyReplay ∨ m.state = .oneshotReplay then
        enter { t with whoami := m.standbyForRank } s.state
      else return t.dropped
    else t.enter s.state

/-- `asok_command` for `osdmap barrier`. -/
def osdmapBarrier (s : Mds) (targetEpoch : Option ℤ) : Mds :=
  if s.whoami < 0 then s else targetEpoch.elim s fun e => s.setOsdEpochBarrier (toEpoch e)

end Mds

inductive Action
  | mdsMap (m : MdsMap)
  | osdmapBarrier (targetEpoch : Option ℤ)
  /-- A map reaches the objecter. -/
  | osdMap (epoch : ℕ)

/-- A step of a daemon that is up. Epochs of OSD maps do not decrease. -/
def step (s : Mds) : Action → Option Mds
  | .mdsMap m => if s.down then none else (s.handleMdsMap m).toOption
  | .osdmapBarrier e => if s.down then none else some (s.osdmapBarrier e)
  | .osdMap e => if s.down || e < s.osdEpoch then none else some { s with osdEpoch := e }

end CephMds.OsdBarrier
