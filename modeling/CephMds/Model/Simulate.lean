import CephMds.Framework.Check
import Mathlib

/-!
# The simulator of the balancer

`tools/simulate.lua`: the policy that spills the load evenly (`when`, `where`) and
the loop that applies it. Ranks are counted from 1 to `n`, loads are rational
numbers, a table that has no entry for a rank is empty. A loop is run with a
bound on its iterations. The order in which `pairs` goes through the transfers
is an argument.
-/

namespace CephMds.Simulate

open Checked

/-- `MDSs`. -/
abbrev Loads := ℕ → ℚ

/-- `my_map`: for each rank the targets, and what is sent to them. -/
abbrev MyMap := ℕ → List (ℕ × ℚ)

/-! ## The policy -/

/-- `t = t+1`, around. -/
def next (n t : ℕ) : ℕ := if n < t + 1 then 1 else t + 1

/-- "Make sure no one else is going to hit your target". -/
def go (n : ℕ) (myMap : MyMap) (i t : ℕ) : Bool :=
  !(List.range' 1 n).any fun j => (myMap j).any fun p => p.1 == t && decide (j < i)

/-- The loop over `t`, which ends with a target for `i` or without one. -/
def seek (n : ℕ) (mdss : Loads) (myMap : MyMap) (i : ℕ) : ℕ → ℕ → Checked (Option ℕ)
  | 0, _ => throw .fuel
  | fuel + 1, t =>
    if next n t = i then pure none
    else if mdss (next n t) < 1 ∧ go n myMap i (next n t) then pure (some (next n t))
    else seek n mdss myMap i fuel (next n t)

/-- `my_map[i][t] = MDSs[i]/2`, for what was found. -/
def assign (mdss : Loads) (myMap : MyMap) (i : ℕ) : Option ℕ → MyMap
  | none => myMap
  | some t => Function.update myMap i ((t, mdss i / 2) :: myMap i)

/-- The loop body for one rank. -/
def plan (fuel n : ℕ) (mdss : Loads) (myMap : MyMap) (i : ℕ) : Checked MyMap := do
  let r ← seek n mdss myMap i fuel i
  pure (assign mdss myMap i r)

/-- "Construct state for other MDSs". -/
def planAll (fuel n : ℕ) (mdss : Loads) : Checked MyMap := (List.range' 1 n).foldlM (plan fuel n mdss) fun _ => []

/-- `where`: the targets of `whoami`. -/
def where' (fuel n : ℕ) (mdss : Loads) (whoami : ℕ) : Checked (ℕ → ℚ) := do
  let myMap ← planAll fuel n mdss
  pure ((List.range' 1 n).foldl (fun targets j =>
    if j = whoami then (myMap j).foldl (fun targets p => Function.update targets p.1 p.2) targets else targets) fun _ => 0)

def when (mdss : Loads) (whoami : ℕ) : Bool := 0 < mdss whoami

/-! ## The loop -/

/-- `MDSs` and `load_transfer_map`. -/
structure State where
  mdss : Loads
  loadTransferMap : ℕ → ℕ → ℚ

/-- What one rank decides. -/
def decideRank (fuel n : ℕ) (s : State) (whoami : ℕ) : Checked State :=
  if when s.mdss whoami then do
    let targets ← where' fuel n s.mdss whoami
    pure { s with loadTransferMap := Function.update s.loadTransferMap whoami targets }
  else pure s

/-- One transfer: from a rank to a target. -/
def transfer (loadTransferMap : ℕ → ℕ → ℚ) (mdss : Loads) (p : ℕ × ℕ) : Loads :=
  let sendLoad := loadTransferMap p.1 p.2
  if 0 < sendLoad then
    let mdss := Function.update mdss p.2 (mdss p.2 + sendLoad)
    Function.update mdss p.1 (mdss p.1 - sendLoad)
  else mdss

/-- One iteration, which goes through the transfers in an order. -/
def iteration (fuel n : ℕ) (s : State) (order : List (ℕ × ℕ)) : Checked State := do
  let s ← (List.range' 1 n).foldlM (decideRank fuel n) s
  pure { s with mdss := order.foldl (transfer s.loadTransferMap) s.mdss }

/-- Some iterations, from given loads. -/
def simulate (fuel n : ℕ) (mdss : Loads) (orders : List (List (ℕ × ℕ))) : Checked State :=
  orders.foldlM (iteration fuel n) ⟨mdss, fun _ _ => 0⟩

/-- All pairs of ranks. -/
def pairs (n : ℕ) : List (ℕ × ℕ) := (List.range' 1 n) ×ˢ (List.range' 1 n)

end CephMds.Simulate
