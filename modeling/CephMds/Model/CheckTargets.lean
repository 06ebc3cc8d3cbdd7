import CephMds.Framework.Check
import Mathlib

/-!
# The export targets of a rank in the map

`MDBalancer::check_targets`, which asks the monitor for the export targets that
are needed, and for how many calls a rank has been in the map without being one
of them. Of `my_targets` it reads the ranks only.
-/

namespace CephMds.Rebalance

/-- `old_prev_targets`: its ranks, and "# iterations they _haven't_ been targets". -/
structure PrevTargets where
  ranks : Finset ℤ
  count : ℤ → ℤ

namespace PrevTargets

def empty : PrevTargets := ⟨∅, fun _ => 0⟩

/-- `old_prev_targets[rank] = n`. -/
def assign (m : PrevTargets) (rank n : ℤ) : PrevTargets :=
  ⟨insert rank m.ranks, Function.update m.count rank n⟩

def erase (m : PrevTargets) (rank : ℤ) : PrevTargets := { m with ranks := m.ranks.erase rank }

end PrevTargets

/-- `mds_bal_target_removal_min` and `mds_bal_target_removal_max`. -/
structure Removal where
  targetRemovalMin : ℤ
  targetRemovalMax : ℤ

/-- The variables of `check_targets`. -/
structure Checking where
  oldPrevTargets : PrevTargets
  needTargets : Finset ℤ
  wantTargets : Finset ℤ
  send : Bool
  ok : Bool

namespace Checking

/-- "Make sure map targets are in the old_prev_targets map". -/
def visitMapTarget (myTargets : Finset ℤ) (m : PrevTargets) (p : ℤ) : PrevTargets :=
  let m := if p ∈ m.ranks then m else m.assign p 0
  if p ∈ myTargets then m else m.assign p (m.count p + 1)

/-- "Check if the current MonMap has all our targets". -/
def visitMyTarget (mapTargets : Finset ℤ) (c : Checking) (i : ℤ) : Checking :=
  let c := { c with needTargets := insert i c.needTargets, oldPrevTargets := c.oldPrevTargets.assign i 0 }
  if i ∈ mapTargets then c else { c with send := true, ok := false }

/-- One of `old_prev_targets`. -/
def visitPrevTarget (cfg : Removal) (mapTargets : Finset ℤ) (c : Checking) (p : ℤ) : Checking :=
  if p ∉ mapTargets ∧ p ∉ c.needTargets then { c with oldPrevTargets := c.oldPrevTargets.erase p }
  else
    let c := if c.oldPrevTargets.count p < cfg.targetRemovalMin then { c with wantTargets := insert p c.wantTargets } else c
    if cfg.targetRemovalMax ≤ c.oldPrevTargets.count p then { c with send := true } else c

end Checking

/-- What `check_targets` leaves, sends and returns. -/
structure CheckedTargets where
  oldPrevTargets : PrevTargets
  sent : Option (Finset ℤ)
  ok : Bool

open Checking in
/-- `check_targets`. -/
def checkTargets (cfg : Removal) (mapTargets myTargets : Finset ℤ) (m : PrevTargets) : CheckedTargets :=
  let m := (ascending mapTargets).foldl (visitMapTarget myTargets) m
  let c := (ascending myTargets).foldl (visitMyTarget mapTargets) ⟨m, ∅, ∅, false, true⟩
  let c := { c with wantTargets := c.needTargets }
  let c := (ascending c.oldPrevTargets.ranks).foldl (visitPrevTarget cfg mapTargets) c
  ⟨c.oldPrevTargets, if c.send then some c.wantTargets else none, c.ok⟩

/-- One call: the targets of the map, and those of the balancer. -/
structure TargetCall where
  mapTargets : Finset ℤ
  myTargets : Finset ℤ

/-- `old_prev_targets` after some calls. -/
def checkAll (cfg : Removal) (calls : List TargetCall) : PrevTargets :=
  calls.foldl (fun m c => (checkTargets cfg c.mapTargets c.myTargets m).oldPrevTargets) .empty

end CephMds.Rebalance
