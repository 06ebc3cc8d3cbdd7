import CephMds.Framework.Check
import CephMds.Framework.Run

/-!
# Committing a directory fragment

`CDir::pre_dirty`, `mark_dirty`, `commit`, `_commit` and `_committed` for a
fragment of a directory that is linked (`nlink > 0`). Of a write to the object
store only its version is modelled. The fields `registered`, `completed` and
`queued` are the history: what was passed to `commit`, which writes have
completed, and which waiters the completions have queued.
-/

namespace CephMds.Commit

open Checked

variable {ν C : Type}

/-- `CEPH_NOSNAP`. -/
def cephNosnap : ℕ := 2 ^ 64 - 2

structure Inode where
  version : ℕ
  dirty : Bool
  last : ℕ
  isAuth : Bool
  deriving DecidableEq

inductive Linkage
  | null
  | remote
  | primary (inode : Inode)
  deriving DecidableEq

/-- `CDentry`. -/
structure Dentry where
  version : ℕ
  dirty : Bool
  numRef : ℕ
  projected : Bool
  linkage : Linkage
  deriving DecidableEq

/-- An entry of `waiting_for_commit`. -/
structure Waiter (C : Type) where
  want : ℕ
  context : C
  deriving DecidableEq

structure CDir (ν C : Type) where
  version : ℕ
  projectedVersion : ℕ
  committingVersion : ℕ
  committedVersion : ℕ
  stateDirty : Bool
  stateCommitting : Bool
  isNew : Bool
  isAuth : Bool
  isStray : Bool
  authPins : ℕ
  items : List (ν × Dentry)
  /-- In the order of the map, and of the lists in it. -/
  waitingForCommit : List (Waiter C)
  inFlight : List ℕ
  registered : List (Waiter C)
  completed : List ℕ
  queued : List (Waiter C × ℕ)

/-! ## Dirty -/

def Inode.markDirty (i : Inode) (pv : ℕ) : Inode := { i with version := pv, dirty := true }

/-- `CDentry::mark_dirty`; a dirty dentry holds a reference. -/
def Dentry.markDirty (dn : Dentry) (pv : ℕ) : Dentry :=
  { dn with version := pv, dirty := true, numRef := if dn.dirty then dn.numRef else dn.numRef + 1 }

def Dentry.markClean (dn : Dentry) : Dentry := { dn with dirty := false, numRef := dn.numRef - 1 }

def Linkage.markDirty (pv : ℕ) : Linkage → Linkage
  | .primary i => .primary (i.markDirty pv)
  | l => l

def Linkage.isNull : Linkage → Bool
  | .null => true
  | _ => false

namespace CDir

/-- `CDir::pre_dirty`. -/
def preDirty (d : CDir ν C) (min : ℕ) : CDir ν C :=
  { d with projectedVersion := max min d.projectedVersion + 1 }

/-- `CDir::mark_dirty` in some log segment. -/
def markDirty (d : CDir ν C) (pv : ℕ) : Checked (CDir ν C) := do
  assert (d.version < pv)
  assert (pv ≤ d.projectedVersion)
  return { d with version := pv, stateDirty := true, isNew := d.isNew || d.committedVersion == 0 }

/-- The entries that are marked dirty with the fragment: the dentries with
`dns`, and the inodes of those with `ins`. -/
def touch (d : CDir ν C) (pv : ℕ) (dns ins : ν → Bool) : CDir ν C :=
  { d with items := d.items.map fun (name, dn) =>
      let dn := if dns name then dn.markDirty pv else dn
      (name, if ins name then { dn with linkage := dn.linkage.markDirty pv } else dn) }

/-- `CDir::mark_clean`. -/
def markClean (d : CDir ν C) : CDir ν C :=
  if d.stateDirty then { d with stateDirty := false, isNew := false } else d

/-! ## Commit -/

/-- `waiting_for_commit[want].push_back(c)`. -/
def pushWaiter (w : Waiter C) : List (Waiter C) → List (Waiter C)
  | [] => [w]
  | x :: xs => if w.want < x.want then w :: x :: xs else x :: pushWaiter w xs

/-- `CDir::_omap_commit`: a write of the current version. -/
def omapCommit (d : CDir ν C) : CDir ν C := { d with inFlight := d.inFlight ++ [d.version] }

/-- `CDir::_commit`. -/
def _commit (d : CDir ν C) (want : ℕ) : Checked (CDir ν C) := do
  assert (want ≤ d.version || d.version == 0)
  assert d.isAuth
  if d.committedVersion ≥ want then return d
  else if d.committingVersion ≥ want then do
    assert d.stateCommitting
    return d
  else if d.committingVersion > d.committedVersion then return d
  else return omapCommit { d with committingVersion := d.version, stateCommitting := true }

/-- The version that is asked for: 0 is the current one. -/
def wanted (d : CDir ν C) (want : ℕ) : ℕ := if want = 0 then d.version else want

/-- The preconditions at the top of `commit`. -/
def canCommit (d : CDir ν C) (want : ℕ) (pinnable : Bool) : Bool :=
  (d.wanted want ≤ d.version || d.version == 0) && d.committedVersion < d.wanted want && d.isAuth &&
    pinnable

/-- The first waiter takes an auth pin. -/
def authPinWaiter (d : CDir ν C) : CDir ν C :=
  if d.waitingForCommit.isEmpty then { d with authPins := d.authPins + 1 } else d

/-- `CDir::commit`, `pinnable` being `ignore_authpinnability || can_auth_pin()`. -/
def commit (d : CDir ν C) (want : ℕ) (c : C) (pinnable : Bool) : Checked (CDir ν C) := do
  assert (d.canCommit want pinnable)
  let w : Waiter C := ⟨d.wanted want, c⟩
  let d := d.authPinWaiter
  _commit { d with
    waitingForCommit := pushWaiter w d.waitingForCommit
    registered := d.registered ++ [w] } w.want

/-! ## Completion -/

/-- "Inode?" -/
def cleanLinkage (committed : ℕ) : Linkage → Checked Linkage
  | .primary i => do
    assert i.isAuth
    if committed ≥ i.version then return .primary { i with dirty := false }
    else do
      assert (i.dirty || i.last < cephNosnap)
      return .primary i
  | l => return l

/-- "Dentry". A clean null dentry of a stray directory is dropped. -/
def cleanDentry (committed : ℕ) (stray : Bool) (dn : Dentry) : Option Dentry :=
  if committed ≥ dn.version && dn.dirty then
    let dn := dn.markClean
    if stray && dn.numRef == 0 && !dn.projected && dn.linkage.isNull then none else some dn
  else some dn

/-- "Dentries clean?" -/
def cleanItems (committed : ℕ) (stray : Bool) :
    List (ν × Dentry) → Checked (List (ν × Dentry))
  | [] => return []
  | (name, dn) :: items => do
    let l ← cleanLinkage committed dn.linkage
    let items ← cleanItems committed stray items
    return ((cleanDentry committed stray { dn with linkage := l }).map (name, ·)).toList ++ items

/-- "Finishers?" -/
def kickWaiters (d : CDir ν C) : List (Waiter C) → Checked (CDir ν C)
  | [] => return { d with waitingForCommit := [] }
  | w :: ws =>
    if w.want > d.committedVersion then _commit { d with waitingForCommit := w :: ws } w.want
    else kickWaiters { d with queued := d.queued ++ [(w, d.committedVersion)] } ws

/-- Gives the auth pin of the waiters back. -/
def authUnpin (d : CDir ν C) : Checked (CDir ν C) := do
  assert (0 < d.authPins)
  return { d with authPins := d.authPins - 1 }

/-- "Take note". -/
def noteCommitted (d : CDir ν C) (v : ℕ) : CDir ν C :=
  let d := { d with
    committedVersion := v
    stateCommitting := if d.committingVersion = v then false else d.stateCommitting
    isNew := false
    completed := d.completed ++ [v] }
  if v = d.version then d.markClean else d

/-- `CDir::_committed(0, v)`. -/
def _committed (d : CDir ν C) (v : ℕ) : Checked (CDir ν C) := do
  assert d.isAuth
  assert (v > d.committedVersion)
  assert (v ≤ d.committingVersion)
  let d := d.noteCommitted v
  let items ← cleanItems v d.isStray d.items
  let d' ← kickWaiters { d with items := items } d.waitingForCommit
  if !d.waitingForCommit.isEmpty && d'.waitingForCommit.isEmpty then d'.authUnpin else return d'

/-! ## Runs -/

inductive Action (ν C : Type)
  | preDirty (min : ℕ)
  | markDirty (pv : ℕ) (dns ins : ν → Bool)
  | commit (want : ℕ) (c : C) (pinnable : Bool)
  | committed (v : ℕ)

/-- What the callers promise: the assertions of `mark_dirty` and at the top of
`commit`, and that what completes is a write that was started. -/
def enabled (d : CDir ν C) : Action ν C → Bool
  | .preDirty _ => true
  | .markDirty pv _ _ => d.version < pv && pv ≤ d.projectedVersion
  | .commit want _ pinnable => d.canCommit want pinnable
  | .committed v => d.inFlight.contains v

def perform (d : CDir ν C) : Action ν C → Checked (CDir ν C)
  | .preDirty min => return d.preDirty min
  | .markDirty pv dns ins => do
    let d ← d.markDirty pv
    return d.touch pv dns ins
  | .commit want c pinnable => d.commit want c pinnable
  | .committed v => { d with inFlight := d.inFlight.erase v }._committed v

/-- A step of the fragment, which ends in a fault if an assertion fails. -/
def step : Checked (CDir ν C) → Action ν C → Option (Checked (CDir ν C))
  | .ok d, a => if d.enabled a then some (d.perform a) else none
  | .error _, _ => none

/-- A fragment with nothing to write: a new one, or one as it was fetched. -/
def clean (v : ℕ) (stray : Bool) (items : List (ν × Dentry)) : CDir ν C where
  version := v
  projectedVersion := v
  committingVersion := v
  committedVersion := v
  stateDirty := false
  stateCommitting := false
  isNew := false
  isAuth := true
  isStray := stray
  authPins := 0
  items := items
  waitingForCommit := []
  inFlight := []
  registered := []
  completed := []
  queued := []

end CDir

end CephMds.Commit
