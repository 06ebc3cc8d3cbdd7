import CephMds.Framework.Check
import CephMds.Framework.Text
import CephMds.Model.CheckTargets
import CephMds.Model.LuaBalancer
import CephMds.Model.TryRebalance

/-!
# The result of a script

What `custom_balancer` and `fragment_selector_luahook` do after `luaL_dostring`.
A script returns a text, which is copied to the buffer `ret`, or fails; the
buffer is read in either case. It is on the stack and not initialised, so its
content before is an argument. How numbers are read (`atof`) is a parameter.
-/

namespace CephMds.Scripts

open Checked Rebalance Text

/-- `ret` after `luaL_dostring`: a script that fails leaves what was there. -/
def received (result : Option (List Char)) (ret : List Char) : List Char := result.getD ret

/-! ## `custom_balancer` -/

/-- `my_targets`, which has been cleared, with what is read from `ret`. -/
def myTargets (atof : List Char → ℚ) (ret : List Char) : List (ℤ × ℚ) :=
  let r := ret.foldl (LuaBalancer.Reading.next atof) ⟨[], 0, fun _ => none⟩
  (List.range r.m).filterMap fun k => (r.myTargets k).map fun x => ((k : ℤ), x)

/-- What a round of the balancer reads: the dirfrags, the settings, the export targets in the map,
and the fully authoritative subtree roots. -/
structure Setting (α : Type) where
  dirFrags : DirFrags α
  config : Config
  removal : Removal
  mapTargets : Finset ℤ
  oldPrevTargets : PrevTargets
  whoami : ℤ
  roots : List α

/-- The targets of a round, and what is exported. -/
structure Round (α : Type) where
  myTargets : List (ℤ × ℚ)
  exported : List (α × ℤ)

variable {α : Type} [DecidableEq α]

/-- `custom_balancer` from `luaL_dostring` on, with `try_rebalance`. -/
def customBalancer (c : Setting α) (atof : List Char → ℚ) (result : Option (List Char)) (ret : List Char) : Round α :=
  let targets := myTargets atof (received result ret)
  let checked := checkTargets c.removal c.mapTargets (targets.map Prod.fst).toFinset c.oldPrevTargets
  ⟨targets, if checked.ok then (tryRebalance c.dirFrags c.config c.whoami c.roots targets).exported else []⟩

/-! ## `fragment_selector_luahook` -/

/-- The conversion to `int`. -/
def truncate (x : ℚ) : ℤ := if 0 ≤ x then ⌊x⌋ else ⌈x⌉

/-- The loop body over the tokens. An index outside of `frags` is a fault. -/
def exportToken (T : DirFrags α) (atof : List Char → ℚ) (frags : List α) (s : Selection α) (token : List Char) :
    Checked (Selection α) := do
  let dfIndex := truncate (atof token - 1)
  assert (decide (0 ≤ dfIndex))
  let frag ← deref frags[dfIndex.toNat]?
  pure (T.take frag s)

/-- `fragment_selector_luahook`, with the dirfrags in descending order of their loads. -/
def fragmentSelectorLuahook (T : DirFrags α) (atof : List Char → ℚ) (smaller : List α) (result : Option (List Char))
    (ret : List Char) (s : Selection α) : Checked (Selection α) :=
  if smaller = [] then pure s
  else if received result ret = ['-', '1'] then pure s
  else (tokens (received result ret)).foldlM (exportToken T atof smaller) s

end CephMds.Scripts
