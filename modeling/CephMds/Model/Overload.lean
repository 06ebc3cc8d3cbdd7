import CephMds.Framework.Run
import CephMds.Model.PrepRebalance
import Mathlib

/-!
# Whether a rank has been overloaded for long enough

The test in `MDBalancer::prep_rebalance` before anything is matched, and the
epochs that it compares. `Rounds` is rank 0, which counts the epochs and starts
again from 1 after a restart, and a rank that balances in some of them.
-/

namespace CephMds.Rebalance

/-- The epochs of `MDBalancer`. -/
structure Epochs where
  beatEpoch : ℤ
  lastEpochUnder : ℤ
  lastEpochOver : ℤ
  deriving DecidableEq

/-- The loads that a round rests on. -/
structure Loads where
  clusterSize : ℕ
  load : ℤ → ℚ

/-- "Under or over?" -/
def Loads.under (l : Loads) (minRebalance : ℚ) (whoami : ℤ) : Bool :=
  l.load whoami < targetLoad l.clusterSize l.load * (1 + minRebalance)

/-- "Am i over long enough?" Returns whether `prep_rebalance` goes on. -/
def Epochs.overLongEnough (b : Epochs) (under : Bool) : Epochs × Bool :=
  if under then ({ b with lastEpochUnder := b.beatEpoch }, false)
  else
    let b := { b with lastEpochOver := b.beatEpoch }
    (b, !(b.lastEpochUnder ≠ 0 && b.beatEpoch - b.lastEpochUnder < 2))

/-- A round that a rank has evaluated. -/
structure Round where
  epoch : ℤ
  under : Bool
  goesOn : Bool
  deriving DecidableEq

/-- The epoch of rank 0, the epochs of the rank, and its rounds from the latest on. -/
structure Rounds where
  rank0 : ℤ
  epochs : Epochs
  done : List Round
  deriving DecidableEq

def Rounds.initial : Rounds := ⟨0, ⟨0, 0, 0⟩, []⟩

/-- Rank 0 sends a heartbeat and the rank balances, or it does not; or rank 0 restarts. -/
inductive RoundAction
  | evaluate (loads : Loads)
  | skip
  | restart

/-- The settings of the rank. -/
structure Gate where
  minRebalance : ℚ
  whoami : ℤ

def Rounds.step (g : Gate) (s : Rounds) : RoundAction → Option Rounds
  | .evaluate loads =>
    let beat := s.rank0 + 1
    let under := loads.under g.minRebalance g.whoami
    let (epochs, goesOn) := { s.epochs with beatEpoch := beat }.overLongEnough under
    some ⟨beat, epochs, ⟨beat, under, goesOn⟩ :: s.done⟩
  | .skip => some { s with rank0 := s.rank0 + 1 }
  | .restart => some { s with rank0 := 0 }

end CephMds.Rebalance
