import CephMds.Framework.Check
import Mathlib.Data.Prod.Lex

/-!
# Waiting on a directory fragment

The two containers of waiting contexts of a `CDir`: `waiting` of
`MDSCacheObject`, by tag, and `waiting_on_dentry`, by name and snapshot, with
the pins held for them. `taken` is the history of the contexts that were handed
out, in order.
-/

namespace CephMds.Waiting

open Checked

variable {ν κ : Type}

def waitDentry : UInt64 := (1 : UInt64) <<< 0
def waitComplete : UInt64 := (1 : UInt64) <<< 1
def waitFrozen : UInt64 := (1 : UInt64) <<< 2
def waitUnfreeze : UInt64 := (1 : UInt64) <<< 59
def waitSingleauth : UInt64 := (1 : UInt64) <<< 60

/-- `tag & mask`, as a condition. -/
def meets (tag mask : UInt64) : Bool := tag &&& mask != 0

structure Waiters (ν κ : Type) where
  /-- The multimap, in the order of its tags. -/
  waiting : List (UInt64 × κ)
  /-- The map, in the order of its keys. -/
  waitingOnDentry : List ((ν ×ₗ ℕ) × List κ)
  pinWaiter : ℕ
  pinDnwaiter : ℕ
  taken : List κ

namespace Waiters

def empty : Waiters ν κ := ⟨[], [], 0, 0, []⟩

/-- `put(PIN_WAITER)`. -/
def putWaiter (w : Waiters ν κ) : Checked (Waiters ν κ) := do
  assert (0 < w.pinWaiter)
  pure { w with pinWaiter := w.pinWaiter - 1 }

/-- `put(PIN_DNWAITER)`. -/
def putDnwaiter (w : Waiters ν κ) : Checked (Waiters ν κ) := do
  assert (0 < w.pinDnwaiter)
  pure { w with pinDnwaiter := w.pinDnwaiter - 1 }

/-- `MDSCacheObject::add_waiter`. A new element of a multimap goes behind those
with its key. -/
def addWaiter (w : Waiters ν κ) (tag : UInt64) (c : κ) : Waiters ν κ :=
  let w := if w.waiting.isEmpty then { w with pinWaiter := w.pinWaiter + 1 } else w
  { w with waiting := w.waiting.takeWhile (·.1 ≤ tag) ++ (tag, c) :: w.waiting.dropWhile (·.1 ≤ tag) }

/-- `MDSCacheObject::take_waiting`. -/
def takeTagged (w : Waiters ν κ) (mask : UInt64) : Checked (Waiters ν κ) :=
  if w.waiting.isEmpty then pure w
  else
    let w := { w with
      taken := w.taken ++ (w.waiting.filter fun p : UInt64 × κ => meets p.1 mask).map Prod.snd
      waiting := w.waiting.filter fun p : UInt64 × κ => !meets p.1 mask }
    if w.waiting.isEmpty then w.putWaiter else pure w

theorem toNat_clearLsb_lt {min : UInt64} (h : min &&& (min - 1) ≠ 0) :
    (min &&& (min - 1)).toNat < min.toNat := by
  have hne : min ≠ 0 := by
    rintro rfl
    exact h rfl
  have hpos : 1 ≤ min := UInt64.le_iff_toNat_le.mpr (Nat.pos_of_ne_zero fun h₀ => hne (UInt64.toNat_inj.mp h₀))
  have hsub : (min - 1).toNat = min.toNat - 1 := UInt64.toNat_sub_of_le _ _ hpos
  have hle : min.toNat &&& (min - 1).toNat ≤ (min - 1).toNat := Nat.and_le_right
  have : 1 ≤ min.toNat := UInt64.le_iff_toNat_le.mp hpos
  rw [UInt64.toNat_and]
  omega

/-- `while (min & (min-1)) min &= min-1`. -/
def clearLsb (min : UInt64) : UInt64 :=
  if min &&& (min - 1) ≠ 0 then clearLsb (min &&& (min - 1)) else min
termination_by min.toNat
decreasing_by exact toNat_clearLsb_lt ‹_›

/-- The loop of `is_waiter_for` over the multimap. -/
def isWaiterFrom (mask : UInt64) : List (UInt64 × κ) → Bool
  | [] => false
  | (tag, _) :: l =>
    if meets tag mask then true
    else if mask < tag then false
    else isWaiterFrom mask l

/-- `MDSCacheObject::is_waiter_for`. -/
def isWaiterFor (w : Waiters ν κ) (mask : UInt64) (min : UInt64 := 0) : Bool :=
  let min := if min = 0 then clearLsb mask else min
  isWaiterFrom mask (w.waiting.dropWhile (·.1 < min))

section Dentry

variable [LinearOrder ν]

/-- `waiting_on_dentry[key].push_back(c)`. -/
def pushBack (key : ν ×ₗ ℕ) (c : κ) : List ((ν ×ₗ ℕ) × List κ) → List ((ν ×ₗ ℕ) × List κ)
  | [] => [(key, [c])]
  | (k, cs) :: l =>
    if key < k then (key, [c]) :: (k, cs) :: l
    else if key = k then (k, cs ++ [c]) :: l
    else (k, cs) :: pushBack key c l

/-- `CDir::add_dentry_waiter`. -/
def addDentryWaiter (w : Waiters ν κ) (dname : ν) (snapid : ℕ) (c : κ) : Waiters ν κ :=
  let w := if w.waitingOnDentry.isEmpty then { w with pinDnwaiter := w.pinDnwaiter + 1 } else w
  { w with waitingOnDentry := pushBack (toLex (dname, snapid)) c w.waitingOnDentry }

/-- `CDir::take_dentry_waiting`. -/
def takeDentryWaiting (w : Waiters ν κ) (dname : ν) (first last : ℕ) : Checked (Waiters ν κ) :=
  if w.waitingOnDentry.isEmpty then pure w
  else
    let lb := toLex (dname, first)
    let ub := toLex (dname, last)
    let before := w.waitingOnDentry.takeWhile (·.1 < lb)
    let found := w.waitingOnDentry.dropWhile (·.1 < lb)
    let w := { w with
      taken := w.taken ++ (found.takeWhile fun p : (ν ×ₗ ℕ) × List κ => !decide (ub < p.1)).flatMap Prod.snd
      waitingOnDentry := before ++ found.dropWhile fun p : (ν ×ₗ ℕ) × List κ => !decide (ub < p.1) }
    if w.waitingOnDentry.isEmpty then w.putDnwaiter else pure w

end Dentry

/-- `CDir::take_sub_waiting`. -/
def takeSubWaiting (w : Waiters ν κ) : Checked (Waiters ν κ) :=
  if w.waitingOnDentry.isEmpty then pure w
  else putDnwaiter { w with
    taken := w.taken ++ w.waitingOnDentry.flatMap Prod.snd
    waitingOnDentry := [] }

/-- `CDir::take_waiting`, which takes the dentry waiters too. -/
def takeWaiting (w : Waiters ν κ) (mask : UInt64) : Checked (Waiters ν κ) :=
  if meets mask waitDentry then do
    let w ← w.takeSubWaiting
    w.takeTagged mask
  else w.takeTagged mask

end Waiters

end CephMds.Waiting
