import CephMds.Framework.Run
import Mathlib.Data.Int.Notation
import Mathlib.Logic.Function.Basic

/-!
# The position of a file handle

`Client::lock_fh_pos` and `unlock_fh_pos`, with `_read` and `_write` at the
position of the file handle (offset -1). A call goes on from one place where it
may give up `client_lock` to the next, and what it waits for there is the
argument of the action. Of the inode matters what these answers say of it; the
data, the caps that are held, and the conversion of the result to `int` are
left out.
-/

namespace CephMds.FhPos

inductive Kind
  | read
  | write
  deriving DecidableEq, Repr

/-- Where a call waits. -/
inductive Pc
  /-- In `lock_fh_pos`. -/
  | lock
  /-- `_lseek(f, 0, SEEK_END)`. -/
  | seek
  /-- `_getattr(CEPH_STAT_CAP_INLINE_DATA)`. -/
  | attr
  /-- `get_caps`. -/
  | caps
  /-- The inline data, `_read_async`, `_read_sync`, `file_write` or `write_trunc`. -/
  | transfer
  /-- "reverify size". -/
  | eof
  /-- For the data to be uninlined, with `r` so far. -/
  | uninline (r : Except ℤ Unit)
  | returned (r : Except ℤ ℕ)

structure Call where
  kind : Kind
  size : ℕ
  pc : Pc
  /-- `start_pos`, or the offset of a write. -/
  offset : ℕ
  /-- The bytes transferred. -/
  length : ℕ
  /-- Whether there is an `onuninline`. -/
  onuninline : Bool
  /-- What the call has added to `f->pos`. -/
  advance : ℤ

/-- A condition variable in `pos_waiters`. -/
structure Waiter where
  call : ℕ
  signalled : Bool
  deriving DecidableEq, Repr

structure Fh where
  /-- `O_APPEND`. -/
  append : Bool
  pos : ℕ
  /-- `pos_locked`, with the call that set it. -/
  posLocked : Option ℕ
  posWaiters : List Waiter
  /-- The calls made so far. -/
  calls : ℕ → Option Call

/-- `-ECANCELED`. -/
def ecanceled : ℤ := -125

namespace Call

def new (kind : Kind) (size : ℕ) : Call := ⟨kind, size, .lock, 0, 0, false, 0⟩

/-- `return r < 0 ? r : …`. -/
def finish (k : Call) (r : Except ℤ Unit) : Call := { k with pc := .returned (r.map fun _ => k.length) }

/-- The label `done`. -/
def done (k : Call) (r : Except ℤ Unit) : Call :=
  if k.onuninline then { k with pc := .uninline r } else k.finish r

/-- The end of the wait at `done`. -/
def uninlined (k : Call) (r : Except ℤ Unit) (uninlineRet : ℤ) : Call :=
  if 0 ≤ uninlineRet ∨ uninlineRet = ecanceled then k.finish r else k.finish (.error uninlineRet)

end Call

namespace Fh

/-- A file handle that was just opened. -/
def opened (append : Bool) (pos : ℕ) : Fh := ⟨append, pos, none, [], fun _ => none⟩

def setCall (f : Fh) (c : ℕ) (k : Call) : Fh := { f with calls := Function.update f.calls c (some k) }

/-- `f->pos = pos`, in a call. -/
def setPos (f : Fh) (k : Call) (pos : ℕ) : Fh × Call :=
  ({ f with pos := pos }, { k with advance := k.advance + ((pos : ℤ) - f.pos) })

/-- `unlock_fh_pos`. -/
def unlockFhPos (f : Fh) : Fh := { f with posLocked := none }

/-- `_write`, from `offset = f->pos` on. -/
def reserve (f : Fh) (k : Call) : Fh × Call :=
  let (f', k') := f.setPos k (f.pos + k.size)
  (f'.unlockFhPos, { k' with offset := f.pos, pc := .attr })

/-- `pos_locked = true`, and what follows `lock_fh_pos` in the call. -/
def locked (f : Fh) (c : ℕ) (k : Call) : Fh × Call :=
  let f := { f with posLocked := some c }
  match k.kind with
  | .read => (f, { k with offset := f.pos, pc := .attr })
  | .write => if f.append then (f, { k with pc := .seek }) else f.reserve k

/-- `lock_fh_pos`. -/
def lockFhPos (f : Fh) (c : ℕ) (k : Call) : Fh × Call :=
  if f.posLocked.isSome || !f.posWaiters.isEmpty then
    ({ f with posWaiters := f.posWaiters ++ [⟨c, false⟩] }, k)
  else f.locked c k

/-- The label `success`. -/
def success (f : Fh) (k : Call) : Fh × Call :=
  match k.kind with
  | .read =>
    let (f', k') := f.setPos k (k.offset + k.length)
    (f'.unlockFhPos, k'.done (.ok ()))
  | .write => (f, { k with length := k.size }.done (.ok ()))

end Fh

/-- What a call has waited for. -/
inductive Answer
  /-- `inline_version` is known. -/
  | known
  /-- `_getattr`, with `in->size` after it. -/
  | attr (r : ℤ) (inSize : ℕ)
  | caps (r : ℤ)
  /-- The inline path, with the bytes read. -/
  | inlined (n : ℕ)
  /-- The others, with the bytes read or an error, after `uninline_data` or not. -/
  | data (onuninline : Bool) (r : Except ℤ ℕ) (checkeof : Bool)
  | uninlined (r : ℤ)

namespace Fh

/-- The call goes on. -/
def answer (f : Fh) (k : Call) : Answer → Option (Fh × Call)
  | .known => match k.pc with
    | .attr => some (f, { k with pc := .caps })
    | _ => none
  | .attr r inSize => match k.pc with
    | .seek => if r < 0 then some (f.reserve k)
      else
        let (f', k') := f.setPos k inSize
        some (f'.reserve k')
    | .attr => if r < 0 then some (f, k.finish (.error r)) else some (f, { k with pc := .caps })
    | .eof =>
      if r < 0 then some (f, k.done (.error r))
      else if k.offset + k.length < inSize then some (f, { k with pc := .caps })
      else some (f.success k)
    | _ => none
  | .caps r => match k.pc with
    | .caps => if r < 0 then some (f, k.finish (.error r)) else some (f, { k with pc := .transfer, onuninline := false })
    | _ => none
  | .inlined n => match k.pc with
    | .transfer => some (f.success { k with length := k.length + n })
    | _ => none
  | .data onuninline r checkeof => match k.pc with
    | .transfer =>
      let k := { k with onuninline := onuninline }
      match r, k.kind with
      | .error e, _ => some (f, k.done (.error e))
      | .ok n, .read =>
        let k := { k with length := k.length + n }
        if checkeof then some (f, { k with pc := .eof }) else some (f.success k)
      | .ok _, .write => some (f.success k)
    | _ => none
  | .uninlined u => match k.pc with
    | .uninline r => some (f, k.uninlined r u)
    | _ => none

end Fh

inductive Action
  | read (c size : ℕ)
  /-- With the error of the checks before the position is taken, or zero. -/
  | write (c size : ℕ) (check : ℤ)
  /-- The waiter returns from its `cond.Wait`. -/
  | wake (c : ℕ)
  | answer (c : ℕ) (a : Answer)

def commit (c : ℕ) (p : Fh × Call) : Fh := p.1.setCall c p.2

def step (f : Fh) : Action → Option Fh
  | .read c size =>
    if (f.calls c).isSome then none else some (commit c (f.lockFhPos c (.new .read size)))
  | .write c size check =>
    if (f.calls c).isSome then none
    else if check < 0 then some (commit c (f, (Call.new .write size).finish (.error check)))
    else some (commit c (f.lockFhPos c (.new .write size)))
  | .wake c =>
    (f.calls c).bind fun k =>
      match k.pc, f.posWaiters with
      | .lock, w :: ws =>
        if f.posLocked.isSome ∨ w.call ≠ c then some f
        else some (commit c ({ f with posWaiters := ws }.locked c k))
      | _, _ => none
  | .answer c a => (f.calls c).bind fun k => (f.answer k a).map (commit c)

end CephMds.FhPos
