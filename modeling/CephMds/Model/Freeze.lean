import CephMds.Framework.Run
import CephMds.Model.Subtree
import CephMds.Model.Waiting
import Mathlib

/-!
# Auth pins and freezing

The auth pins, the freezing state and the waiters of a directory fragment
(`CDir`), with `auth_pin`, `auth_unpin`, `adjust_nested_auth_pins`,
`set_dir_auth` and the functions that freeze and unfreeze. What they call on
the fragment's inode (`InodeCall`) is collected in `calls`, in order; what they
read of the inode and of the fragments above is passed in (`Surroundings`).
`authPinSet` is the history of who holds the pins that `auth_pins` counts.
-/

namespace CephMds.Freeze

open Checked Waiting

/-- Who holds an auth pin: the fragment (`this`), its inode, or another. -/
inductive Holder
  | self
  | inode
  | other (who : ℕ)
  deriving DecidableEq

/-- The calls on the inode. -/
inductive InodeCall
  | adjustNestedAuthPins (a : ℤ)
  | authPin
  | authUnpin
  | addWaiter
  deriving DecidableEq

/-- What a call adds to the nested auth pins of the inode. -/
def InodeCall.nested : InodeCall → ℤ
  | adjustNestedAuthPins a => a
  | _ => 0

/-- What a call adds to the auth pins of the inode. -/
def InodeCall.pins : InodeCall → ℤ
  | authPin => 1
  | authUnpin => -1
  | _ => 0

/-- What a directory fragment reads around it. -/
structure Surroundings where
  inodeIsAuth : Bool
  inodeIsFrozen : Bool
  inodeIsFrozenDir : Bool
  parentIsFreezingTree : Bool
  parentIsFrozenTree : Bool

structure CDir (ν κ : Type) where
  isAuth : Bool
  dirAuth : Auth
  freezingTree : Bool
  frozenTree : Bool
  freezingDir : Bool
  frozenDir : Bool
  authPins : ℤ
  nestedAuthPins : ℤ
  dirAuthPins : ℤ
  pinAuthpin : ℕ
  pinFrozen : ℕ
  waiters : Waiters ν κ
  authPinSet : List Holder
  calls : List InodeCall

namespace CDir

variable {ν κ : Type}

/-- The constructor. -/
def new (auth : Bool) : CDir ν κ where
  isAuth := auth
  dirAuth := cdirAuthDefault
  freezingTree := false
  frozenTree := false
  freezingDir := false
  frozenDir := false
  authPins := 0
  nestedAuthPins := 0
  dirAuthPins := 0
  pinAuthpin := 0
  pinFrozen := 0
  waiters := .empty
  authPinSet := []
  calls := []

variable (d : CDir ν κ) (e : Surroundings)

def isSubtreeRoot : Bool := d.dirAuth != cdirAuthDefault

def getCumAuthPins : ℤ := d.authPins + d.nestedAuthPins

/-- The climb starts here and goes on above unless this is a subtree root. -/
def isFreezingTree : Bool := d.freezingTree || !d.isSubtreeRoot && e.parentIsFreezingTree

def isFrozenTree : Bool := d.frozenTree || !d.isSubtreeRoot && e.parentIsFrozenTree

def isFreezing : Bool := d.isFreezingTree e || d.freezingDir

def isFrozen : Bool := d.frozenDir || d.isFrozenTree e

/-- The freezing state, or the frozen one, is this fragment's own. -/
def flagged : Bool := d.freezingTree || d.frozenTree || d.freezingDir || d.frozenDir

def canAuthPin : Bool := d.isAuth && !(d.isFrozen e || d.isFreezing e)

/-- `is_freezeable(true)`. -/
def isFreezeable : Bool :=
  if d.authPins - 1 > 0 ∨ d.nestedAuthPins > 0 then false
  else if !d.isSubtreeRoot && e.inodeIsFrozen then false
  else true

/-- `is_freezeable_dir(true)`. -/
def isFreezeableDir : Bool :=
  if d.authPins - 1 > 0 ∨ d.dirAuthPins > 0 then false
  else if !d.isSubtreeRoot && e.inodeIsFrozen && !e.inodeIsFrozenDir then false
  else true

def call (c : InodeCall) : CDir ν κ := { d with calls := d.calls ++ [c] }

def finishWaiting (mask : UInt64) : Checked (CDir ν κ) := do
  let w ← d.waiters.takeWaiting mask
  pure { d with waiters := w }

/-! ## Auth pins -/

def authPin (who : Holder) : CDir ν κ :=
  let d := if d.authPins = 0 then { d with pinAuthpin := d.pinAuthpin + 1 } else d
  let d := { d with authPins := d.authPins + 1, authPinSet := who :: d.authPinSet }
  if !d.isSubtreeRoot && d.getCumAuthPins = 1 then d.call (.adjustNestedAuthPins 1) else d

/-- `put(PIN_AUTHPIN)` with the last auth pin. -/
def putAuthpin : Checked (CDir ν κ) :=
  if d.authPins = 0 then do
    assert (0 < d.pinAuthpin)
    pure { d with pinAuthpin := d.pinAuthpin - 1 }
  else pure d

/-- The beginning of `auth_unpin`. -/
def dropAuthPin (who : Holder) : Checked (CDir ν κ) := do
  let d := { d with authPins := d.authPins - 1, authPinSet := d.authPinSet.erase who }
  let d ← d.putAuthpin
  assert (0 ≤ d.authPins)
  pure d

/-- `_freeze_dir`. -/
def doFreezeDir : CDir ν κ :=
  let d := { d with freezingDir := false, frozenDir := true, pinFrozen := d.pinFrozen + 1 }
  if d.isAuth && !d.isSubtreeRoot then d.call .authPin else d

/-- `_freeze_tree`. -/
def doFreezeTree : Checked (CDir ν κ) := do
  assert (d.isFreezeable e)
  let d := { d with freezingTree := false, frozenTree := true, pinFrozen := d.pinFrozen + 1 }
  pure (if d.isAuth && !d.isSubtreeRoot then d.call .authPin else d)

/-- The first part of `maybe_finish_freeze`. -/
def finishFreezingDir (unpin : CDir ν κ → Checked (CDir ν κ)) : Checked (CDir ν κ) :=
  if d.freezingDir then do
    let d ← unpin d.doFreezeDir
    d.finishWaiting waitFrozen
  else pure d

/-- The second part of `maybe_finish_freeze`. While the inode is frozen the pin
is taken again, until the inode unfreezes. -/
def finishFreezingTree (unpin : CDir ν κ → Checked (CDir ν κ)) : Checked (CDir ν κ) :=
  if d.freezingTree then
    if !d.isSubtreeRoot && e.inodeIsFrozen then pure ((d.authPin .inode).call .addWaiter)
    else do
      let d ← d.doFreezeTree e
      let d ← unpin d
      d.finishWaiting waitFrozen
  else pure d

/-- `maybe_finish_freeze`, whose call of `auth_unpin(this)` is `unpin`. -/
def maybeFinishFreeze (unpin : CDir ν κ → Checked (CDir ν κ)) : Checked (CDir ν κ) :=
  if d.authPins ≠ 1 ∨ d.dirAuthPins ≠ 0 then pure d
  else do
    let d ← d.finishFreezingDir unpin
    if d.nestedAuthPins ≠ 0 then pure d else d.finishFreezingTree e unpin

end CDir

section

variable {ν κ : Type} (e : Surroundings)

/-- `auth_unpin`, nested through `maybe_finish_freeze` at most `fuel` times. -/
def CDir.authUnpinNested : ℕ → CDir ν κ → Holder → Checked (CDir ν κ)
  | 0, _, _ => throw .fuel
  | fuel + 1, d, who => do
    let d ← d.dropAuthPin who
    let newcum := d.getCumAuthPins
    let d ← d.maybeFinishFreeze e fun d => CDir.authUnpinNested fuel d .self
    pure (if !d.isSubtreeRoot && newcum = 0 then d.call (.adjustNestedAuthPins (-1)) else d)

namespace CDir

variable (d : CDir ν κ)

def authUnpin (who : Holder) : Checked (CDir ν κ) := d.authUnpinNested e 2 who

def adjustNestedAuthPins (inc dirinc : ℤ) : Checked (CDir ν κ) := do
  assert (inc ≠ 0)
  let d := { d with nestedAuthPins := d.nestedAuthPins + inc, dirAuthPins := d.dirAuthPins + dirinc }
  assert (0 ≤ d.nestedAuthPins)
  assert (0 ≤ d.dirAuthPins)
  let newcum := d.getCumAuthPins
  let d ← d.maybeFinishFreeze e fun d => d.authUnpin e .self
  pure (if !d.isSubtreeRoot then
      if newcum = 0 then d.call (.adjustNestedAuthPins (-1))
      else if newcum = inc then d.call (.adjustNestedAuthPins 1)
      else d
    else d)

/-! ## Freezing -/

def freezeTree : Checked (CDir ν κ) := do
  assert (!d.isFrozen e)
  assert (!d.isFreezing e)
  let d := d.authPin .self
  if d.isFreezeable e then do
    let d ← d.doFreezeTree e
    d.authUnpin e .self
  else pure { d with freezingTree := true }

def freezeDir : Checked (CDir ν κ) := do
  assert (!d.isFrozen e)
  assert (!d.isFreezing e)
  let d := d.authPin .self
  if d.isFreezeableDir e then d.doFreezeDir.authUnpin e .self
  else pure { d with freezingDir := true }

/-- `put(PIN_FROZEN)`, and the pin of the inode that goes with it. -/
def putFrozen : Checked (CDir ν κ) := do
  assert (0 < d.pinFrozen)
  let d := { d with pinFrozen := d.pinFrozen - 1 }
  pure (if d.isAuth && !d.isSubtreeRoot then d.call .authUnpin else d)

def unfreezeTree : Checked (CDir ν κ) :=
  if d.frozenTree then do
    let d ← putFrozen { d with frozenTree := false }
    d.finishWaiting waitUnfreeze
  else do
    let d ← d.finishWaiting waitFrozen
    assert d.freezingTree
    let d ← authUnpin e { d with freezingTree := false } .self
    d.finishWaiting waitUnfreeze

def unfreezeDir : Checked (CDir ν κ) :=
  if d.frozenDir then do
    let d ← putFrozen { d with frozenDir := false }
    d.finishWaiting waitUnfreeze
  else do
    let d ← d.finishWaiting waitFrozen
    assert d.freezingDir
    let d ← authUnpin e { d with freezingDir := false } .self
    d.finishWaiting waitUnfreeze

/-! ## Authority -/

/-- "New subtree root?" -/
def becomeRoot : CDir ν κ :=
  let d := if d.getCumAuthPins ≠ 0 then d.call (.adjustNestedAuthPins (-1)) else d
  if e.inodeIsAuth && (d.frozenTree || d.frozenDir) then d.call .authUnpin else d

/-- "Old subtree root?" -/
def ceaseRoot : CDir ν κ :=
  let d := if d.getCumAuthPins ≠ 0 then d.call (.adjustNestedAuthPins 1) else d
  if e.inodeIsAuth && (d.frozenTree || d.frozenDir) then d.call .authPin else d

def setDirAuth (a : Auth) : Checked (CDir ν κ) :=
  let wasSubtree := d.isSubtreeRoot
  let wasAmbiguous := decide (0 ≤ d.dirAuth.second)
  let d := { d with dirAuth := a }
  let d := if !wasSubtree && d.isSubtreeRoot then d.becomeRoot e else d
  let d := if wasSubtree && !d.isSubtreeRoot then d.ceaseRoot e else d
  if wasAmbiguous && d.dirAuth.second = cdirAuthUnknown then d.finishWaiting waitSingleauth else pure d

end CDir

end

/-! ## One fragment -/

section Frag

variable {ν κ : Type}

/-- The operations on a fragment. The last one sets `STATE_AUTH` of a subtree
root and of its inode (`MDCache::recalc_auth_bits`, and migration). -/
inductive Op
  | authPin (who : Holder)
  | authUnpin (who : Holder)
  | adjustNestedAuthPins (inc dirinc : ℤ)
  | freezeTree
  | unfreezeTree
  | freezeDir
  | unfreezeDir
  | setDirAuth (a : Auth)
  | setAuth (auth inodeIsAuth : Bool)
  deriving DecidableEq

def Op.perform (e : Surroundings) (d : CDir ν κ) : Op → Checked (CDir ν κ)
  | authPin who => pure (d.authPin who)
  | authUnpin who => d.authUnpin e who
  | adjustNestedAuthPins inc dirinc => d.adjustNestedAuthPins e inc dirinc
  | freezeTree => d.freezeTree e
  | unfreezeTree => d.unfreezeTree e
  | freezeDir => d.freezeDir e
  | unfreezeDir => d.unfreezeDir e
  | setDirAuth a => d.setDirAuth e a
  | setAuth auth _ => do
    assert d.isSubtreeRoot
    pure { d with isAuth := auth }

/-- `inode->is_auth()` after the operation. -/
def Op.inodeIsAuth (auth : Bool) : Op → Bool
  | setAuth _ a => a
  | _ => auth

/-- A fragment, and what it has added to the counters of its inode. Unless it
is a subtree root, it has the authority of its inode (`CDir::authority`). -/
structure Frag (ν κ : Type) where
  dir : CDir ν κ
  inodeNestedAuthPins : ℤ
  inodeAuthPins : ℤ
  inodeIsAuth : Bool
  authority : dir.isSubtreeRoot = false → dir.isAuth = inodeIsAuth

/-- A fragment that has just been created below its inode. -/
def Frag.new (auth : Bool) : Frag ν κ := ⟨.new auth, 0, 0, auth, fun _ => rfl⟩

/-- One operation, with what the fragment reads around it; undefined where an
assertion fails. The calls on the inode add to its counters. -/
def Frag.step (s : Frag ν κ) (a : Op × Surroundings) : Option (Frag ν κ) :=
  match a.1.perform { a.2 with inodeIsAuth := s.inodeIsAuth } s.dir with
  | .error _ => none
  | .ok d =>
    if h : d.isSubtreeRoot = false → d.isAuth = a.1.inodeIsAuth s.inodeIsAuth then
      some ⟨{ d with calls := [] }, s.inodeNestedAuthPins + (d.calls.map InodeCall.nested).sum,
        s.inodeAuthPins + (d.calls.map InodeCall.pins).sum, a.1.inodeIsAuth s.inodeIsAuth, h⟩
    else none

end Frag

end CephMds.Freeze
