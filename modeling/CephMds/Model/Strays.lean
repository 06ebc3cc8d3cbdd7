import CephMds.Framework.Run
import Mathlib

/-!
# The strays of a directory

`eval_stray`, `purge_stray`, `truncate_stray` and what their completions do,
with the counters that go with them. What other code does to a dentry and its
inode is one action, which may change all that is not kept here; a link is not
made to an inode that is purging, which `path_traverse` and
`handle_client_lookup_ino` refuse. The operations on the objects, the journal
and the move of an inode that has a link again to another directory are left
out.
-/

namespace CephMds.Strays

/-- What is kept elsewhere of a dentry and of its inode. -/
structure Env where
  -- the dentry
  isAuth : Bool
  isReplicated : Bool
  isAnyLeases : Bool
  isNew : Bool
  isDirty : Bool
  /-- Other references than those for dirty, for the references of the inode, and `PIN_PURGING`. -/
  refs : ℕ
  -- the inode
  nlink : ℕ
  isDir : Bool
  isFile : Bool
  isAnyCaps : Bool
  hasPastParents : Bool
  havePastParentsOpen : Bool
  /-- `prune_past_parents` leaves none. -/
  prunable : Bool
  stateNeedsrecover : Bool
  stateRecovering : Bool
  inDirty : Bool
  inDirtyParent : Bool
  inRefs : ℕ
  size : ℕ
  deriving DecidableEq

/-- A dentry, with its inode. -/
structure CDentry extends Env where
  /-- The projected linkage. -/
  isPrimary : Bool
  statePurging : Bool
  pinPurging : ℕ
  inStatePurging : Bool
  deriving DecidableEq

namespace CDentry

def inNumRef (dn : CDentry) : ℕ := dn.inRefs + dn.inDirty.toNat + dn.inDirtyParent.toNat

def numRef (dn : CDentry) : ℕ := dn.refs + dn.isDirty.toNat + min 1 dn.inNumRef + dn.pinPurging

end CDentry

/-- An operation that is not complete. -/
inductive Op
  /-- `C_IO_MDC_PurgeStrayPurged`. -/
  | purge (onlyHead : Bool)
  /-- `C_MDC_PurgeStrayLogged`, with what the inode was like when the removal was journaled. -/
  | remove (nlink numRef dirty : ℕ)
  /-- `C_MDC_PurgeStrayLoggedTruncate`. -/
  | truncate
  deriving DecidableEq

/-- An inode that has been removed, with what it was like when that was journaled, and its links now. -/
structure Removal where
  nlink : ℕ
  numRef : ℕ
  dirty : ℕ
  nlinkNow : ℕ
  deriving DecidableEq

structure State (ν : Type) where
  dentry : ν → CDentry
  delayedEvalStray : List ν
  numStraysDelayed : ℕ
  numStraysPurging : ℕ
  ops : List (ν × Op)
  removed : List Removal

inductive Action (ν : Type)
  | environment (dn : ν) (e : Env)
  /-- An inode is linked to a dentry that has none. -/
  | linkInode (dn : ν) (e : Env)
  | evalStray (dn : ν) (delay : Bool)
  | trim
  | purged (i : ℕ)
  | logged (i : ℕ)
  | loggedTruncate (i : ℕ)

variable {ν : Type} [DecidableEq ν]

namespace CDentry

/-- The checks of `eval_stray`, after the past parents have been looked at. -/
def ready (dn : CDentry) : Bool :=
  !(dn.isDir && dn.hasPastParents) && !dn.isReplicated && !(dn.isAnyLeases || dn.isAnyCaps) && !dn.statePurging &&
    !(dn.stateNeedsrecover || dn.stateRecovering) && dn.inNumRef ≤ dn.inDirty.toNat + dn.inDirtyParent.toNat &&
    dn.numRef ≤ dn.isDirty.toNat + min 1 dn.inNumRef

def prunePastParents (dn : CDentry) : CDentry :=
  if dn.hasPastParents then { dn with hasPastParents := !dn.prunable } else dn

/-- No past parent is closed. -/
def opened (dn : CDentry) : Bool := !dn.hasPastParents || dn.havePastParentsOpen

def setPurging (dn : CDentry) : CDentry :=
  { dn with statePurging := true, pinPurging := dn.pinPurging + 1, inStatePurging := true }

/-- `_purge_stray_purged` finds no references but its own and those for dirty. -/
def unused (dn : CDentry) : Bool :=
  dn.inNumRef == dn.inDirty.toNat && dn.numRef == dn.isDirty.toNat + min 1 dn.inNumRef + 1

end CDentry

namespace State

def setDentry (s : State ν) (dn : ν) (x : CDentry) : State ν := { s with dentry := Function.update s.dentry dn x }

def truncateStray (s : State ν) (dn : ν) : State ν :=
  { s.setDentry dn (s.dentry dn).setPurging with
    delayedEvalStray := s.delayedEvalStray.erase dn
    ops := s.ops ++ [(dn, .purge true)] }

def purgeStray (s : State ν) (dn : ν) : State ν :=
  { s.setDentry dn { (s.dentry dn).setPurging with inDirtyParent := false } with
    numStraysPurging := s.numStraysPurging + 1
    delayedEvalStray := s.delayedEvalStray.erase dn
    numStraysDelayed := if dn ∈ s.delayedEvalStray then s.numStraysDelayed - 1 else s.numStraysDelayed
    ops := s.ops ++ [(dn, .purge false)] }

def delayEvalStray (s : State ν) (dn : ν) : State ν :=
  if dn ∈ s.delayedEvalStray then s
  else { s with delayedEvalStray := s.delayedEvalStray ++ [dn], numStraysDelayed := s.numStraysDelayed + 1 }

/-- `none` is a failed assertion. -/
def evalStray (s : State ν) (dn : ν) (delay : Bool) : Option (State ν) :=
  if (s.dentry dn).isPrimary then
    if (s.dentry dn).isAuth && (s.dentry dn).nlink == 0 then
      if (s.dentry dn).opened then
        let s := s.setDentry dn (s.dentry dn).prunePastParents
        if (s.dentry dn).ready then
          if delay then some (s.delayEvalStray dn)
          else if (s.dentry dn).hasPastParents then
            if (s.dentry dn).isFile && (s.dentry dn).size > 0 then some (s.truncateStray dn) else some s
          else some (s.purgeStray dn)
        else some s
      else some s
    else some s
  else none

/-- The first loop of `trim`. -/
def trimDelayed (s : State ν) : List ν → Option (State ν)
  | [] => some s
  | dn :: rest =>
    (({ s with delayedEvalStray := s.delayedEvalStray.erase dn, numStraysDelayed := s.numStraysDelayed - 1 } :
      State ν).evalStray dn false).bind fun s => s.trimDelayed rest

def purgeStrayPurged (s : State ν) (i : ℕ) (dn : ν) (onlyHead : Bool) : State ν :=
  let x := s.dentry dn
  if !onlyHead && x.unused then
    { s.setDentry dn { x with isPrimary := false } with
      ops := s.ops.set i (dn, .remove x.nlink x.inNumRef x.inDirty.toNat)
      numStraysPurging := s.numStraysPurging - 1 }
  else { s.setDentry dn { x with size := 0 } with ops := s.ops.set i (dn, .truncate) }

/-- The inode is removed; the dentry is null, or removed too. -/
def purgeStrayLogged (s : State ν) (i : ℕ) (dn : ν) (nlink numRef dirty : ℕ) : State ν :=
  let x := s.dentry dn
  { s.setDentry dn { x with statePurging := false, pinPurging := x.pinPurging - 1, inStatePurging := false } with
    ops := s.ops.eraseIdx i
    removed := s.removed ++ [⟨nlink, numRef, dirty, x.nlink⟩] }

/-- Before the stray is evaluated again. -/
def truncated (s : State ν) (i : ℕ) (dn : ν) : State ν :=
  let x := s.dentry dn
  { s.setDentry dn { x with statePurging := false, pinPurging := x.pinPurging - 1 } with ops := s.ops.eraseIdx i }

def purgeStrayLoggedTruncate (s : State ν) (i : ℕ) (dn : ν) : Option (State ν) := (s.truncated i dn).evalStray dn false

def step (s : State ν) : Action ν → Option (State ν)
  | .environment dn e =>
    if (s.dentry dn).inStatePurging && e.nlink != (s.dentry dn).nlink then none
    else some (s.setDentry dn { s.dentry dn with toEnv := e })
  | .linkInode dn e =>
    if (s.dentry dn).isPrimary || (s.dentry dn).statePurging then none
    else some (s.setDentry dn { s.dentry dn with toEnv := e, isPrimary := true, inStatePurging := false })
  | .evalStray dn delay => s.evalStray dn delay
  | .trim => s.trimDelayed s.delayedEvalStray
  | .purged i =>
    match s.ops[i]? with
    | some (dn, .purge onlyHead) => some (s.purgeStrayPurged i dn onlyHead)
    | _ => none
  | .logged i =>
    match s.ops[i]? with
    | some (dn, .remove nlink numRef dirty) =>
      if (s.dentry dn).stateRecovering then none else some (s.purgeStrayLogged i dn nlink numRef dirty)
    | _ => none
  | .loggedTruncate i =>
    match s.ops[i]? with
    | some (dn, .truncate) => s.purgeStrayLoggedTruncate i dn
    | _ => none

end State

end CephMds.Strays
