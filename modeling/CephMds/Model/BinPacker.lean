import CephMds.Framework.Check
import CephMds.Framework.Text
import Mathlib

/-!
# The bin packer

`MDBinPacker.lua`, which chooses the dirfrags to send by one of several strategies,
and `fragment_selector_luahook`, which gives it the loads and reads the positions
that it returns. Loads are rational numbers.
-/

namespace CephMds.BinPacker

open Checked Text

/-! ## Lua -/

/-- The keys of `strategy_map`. -/
inductive Strategy
  | smallFirst
  | smallFirstPlus1
  | bigFirst
  | bigFirstPlus1
  | half
  | bigHalf
  | smallHalf
  deriving DecidableEq, Repr

/-- `{i, load}`. -/
abbrev Dirfrag := ℤ × ℚ

/-- What `nextmin` is at first. -/
def sentinel : Dirfrag := (-1, 2147483648)

structure Sending where
  sum : ℚ
  sendDfs : List Dirfrag
  nextmin : Dirfrag

/-- The loop body of `send_until_target`. -/
def Sending.visit (target : ℚ) (s : Sending) (df : Dirfrag) : Sending :=
  if s.sum + df.2 ≤ target then { s with sum := s.sum + df.2, sendDfs := s.sendDfs ++ [df] }
  else { s with nextmin := if df.2 < s.nextmin.2 then df else s.nextmin }

/-- `send_until_target`. -/
def sendUntilTarget (smallToLarge : Bool) (target : ℚ) (dirfrags : List Dirfrag) : List Dirfrag × Dirfrag :=
  let s := (if smallToLarge then dirfrags else dirfrags.reverse).foldl (Sending.visit target) ⟨0, [], sentinel⟩
  (s.sendDfs, s.nextmin)

/-- The selected dirfrags, and the one that is added to them. -/
def plus1 (s : List Dirfrag × Dirfrag) : List Dirfrag := s.1 ++ [s.2]

/-- `strategy_map`. -/
def Strategy.select (target : ℚ) (dirfrags : List Dirfrag) : Strategy → List Dirfrag
  | smallFirst => (sendUntilTarget true target dirfrags).1
  | smallFirstPlus1 => plus1 (sendUntilTarget true target dirfrags)
  | bigFirst => (sendUntilTarget true target dirfrags).1
  | bigFirstPlus1 => plus1 (sendUntilTarget false target dirfrags)
  -- Up to `math.ceil(#dirfrags/2)`.
  | half => dirfrags.take ((dirfrags.length + 1) / 2)
  -- From the last down to `#dirfrags/2+1`, which need not be an integer.
  | bigHalf => dirfrags.reverse.take (dirfrags.length / 2)
  | smallHalf => dirfrags.take (dirfrags.length / 2)

def load (dfs : List Dirfrag) : ℚ := (dfs.map Prod.snd).sum

/-- `arg` from its third entry on. -/
def dirfrags (loads : List ℚ) : List Dirfrag := loads.mapIdx fun i load => ((i : ℤ) + 1, load)

/-- The loop body of `pack`: the smallest distance so far, and what is sent then. -/
def tryStrategy (target : ℚ) (dfs : List Dirfrag) (best : ℚ × List Dirfrag) (s : Strategy) : ℚ × List Dirfrag :=
  let send := s.select target dfs
  let d := |load send - target|
  if d < best.1 then (d, send) else best

/-- What `pack` sends. -/
def packed (strategies : List Strategy) (target : ℚ) (loads : List ℚ) : List Dirfrag :=
  (strategies.foldl (tryStrategy target (dirfrags loads)) (2147483648, [])).2

/-- `pack`. -/
def pack (strategies : List Strategy) (target : ℚ) (loads : List ℚ) : List Char :=
  let ret := spaced ((packed strategies target loads).map fun v => ofInt v.1)
  if ret = [] then ['-', '1'] else ret

/-! ## C++ -/

/-- LINE_MAX. -/
def lineMax : ℕ := 2048

/-- What the hook adds to. -/
structure Exporting (γ : Type) where
  exports : List γ
  amount : ℚ

variable {γ : Type}

/-- The loop body over the tokens. -/
def exportToken (metaLoad : γ → ℚ) (frags : List γ) (e : Exporting γ) (token : List Char) : Checked (Exporting γ) := do
  let dfIndex := toInt token - 1
  assert (decide (0 ≤ dfIndex))
  let frag ← deref frags[dfIndex.toNat]?
  pure ⟨e.exports ++ [frag], e.amount + metaLoad frag⟩

/-- `fragment_selector_luahook`, with the dirfrags in ascending order of their loads; `amount` is `have`. A text
that `ret` cannot hold is a fault, and so is an index outside of `frags`. -/
def fragmentSelectorLuahook (metaLoad : γ → ℚ) (strategies : List Strategy) (smaller : List (ℚ × γ)) (target : ℚ)
    (e : Exporting γ) : Checked (Exporting γ) :=
  if smaller.length = 0 then pure e
  else do
    let ret := pack strategies target (smaller.reverse.map Prod.fst)
    assert (decide (ret.length < lineMax))
    if ret = ['-', '1'] then pure e
    else (tokens ret).foldlM (exportToken metaLoad (smaller.reverse.map Prod.snd)) e

end CephMds.BinPacker
