import CephMds.Model.Freeze

/-!
# Freezing in a tree of fragments

A forest of directory fragments (`System`), each with the counters of its
inode that it adds to. A call on an inode is passed on to the fragment that
holds its dentry (`deliver`), as `CDir::link_inode_work` and
`unlink_inode_work` count them there: the auth pins and the nested auth pins of
an inode are nested auth pins of that fragment, and its auth pins are dir auth
pins too. `items` counts the auth pins on the dentries and inodes of a fragment
besides those of frozen fragments. What `CInode` answers is a parameter
(`InodeView`), of its own state `env` and all the rest. `registered` is the
history of the contexts that were made to wait.
-/

namespace CephMds.Freeze

open Checked Waiting

/-- What a call adds to the nested auth pins of the fragment that holds the
dentry of the inode; its dir auth pins grow with the auth pins. -/
def InodeCall.inc (c : InodeCall) : ℤ := c.nested + c.pins

structure System (δ ν κ ε : Type) where
  dir : δ → CDir ν κ
  inodeNested : δ → ℤ
  inodePins : δ → ℤ
  items : δ → ℕ
  env : ε
  registered : List κ

/-- `is_auth`, `is_frozen` and `is_frozen_dir` of the inode of a fragment. -/
structure InodeView (δ ν κ ε : Type) where
  isAuth : System δ ν κ ε → δ → Bool
  isFrozen : System δ ν κ ε → δ → Bool
  isFrozenDir : System δ ν κ ε → δ → Bool

namespace System

variable {δ ν κ ε : Type} (F : Forest δ) (I : InodeView δ ν κ ε) (s : System δ ν κ ε)

/-- All fragments are new, below inodes without pins. -/
def init (auth : δ → Bool) (dirAuth : δ → Auth) (env : ε) : System δ ν κ ε where
  dir d := { CDir.new (auth d) with dirAuth := dirAuth d }
  inodeNested _ := 0
  inodePins _ := 0
  items _ := 0
  env := env
  registered := []

/-- The climb of `CDir::is_freezing_tree`. -/
def isFreezingTree (d : δ) : Bool :=
  (F.nearest (fun x => (s.dir x).freezingTree || (s.dir x).isSubtreeRoot) d).any fun x => (s.dir x).freezingTree

/-- The climb of `CDir::is_frozen_tree`. -/
def isFrozenTree (d : δ) : Bool :=
  (F.nearest (fun x => (s.dir x).frozenTree || (s.dir x).isSubtreeRoot) d).any fun x => (s.dir x).frozenTree

def surroundings (d : δ) : Surroundings where
  inodeIsAuth := I.isAuth s d
  inodeIsFrozen := I.isFrozen s d
  inodeIsFrozenDir := I.isFrozenDir s d
  parentIsFreezingTree := (F.parent d).any (s.isFreezingTree F)
  parentIsFrozenTree := (F.parent d).any (s.isFrozenTree F)

section

variable [DecidableEq δ]

def set (d : δ) (r : CDir ν κ) : System δ ν κ ε := { s with dir := Function.update s.dir d r }

/-- The first call of `d` reaches its inode. -/
def count (d : δ) (c : InodeCall) : System δ ν κ ε := { s with
  dir := Function.update s.dir d { s.dir d with calls := (s.dir d).calls.tail }
  inodeNested := Function.update s.inodeNested d (s.inodeNested d + c.nested)
  inodePins := Function.update s.inodePins d (s.inodePins d + c.pins) }

/-- The first call of `d` reaches its inode and is passed on upwards. -/
def deliver : ℕ → δ → System δ ν κ ε → InodeCall → Checked (System δ ν κ ε)
  | 0, _, _, _ => throw .fuel
  | fuel + 1, d, s, c =>
    let s := s.count d c
    match F.parent d with
    | none => pure s
    | some p =>
      if c = .addWaiter then pure s
      else do
        let r ← (s.dir p).adjustNestedAuthPins (s.surroundings F I p) c.inc c.pins
        r.calls.foldlM (deliver fuel p) (s.set p r)

/-- A function of the fragment `d`, with its calls. -/
def act (d : δ) (f : Surroundings → CDir ν κ → Checked (CDir ν κ)) : Checked (System δ ν κ ε) := do
  let r ← f (s.surroundings F I d) (s.dir d)
  r.calls.foldlM (deliver F I (F.depth d + 1) d) (s.set d r)

end

/-! ## Waiting -/

/-- `add_waiter` does not go on to the parent. -/
def accepts (tag : UInt64) (d : δ) : Bool :=
  (!meets tag waitUnfreeze || (s.dir d).flagged) && (!meets tag waitSingleauth || (s.dir d).isSubtreeRoot)

variable [DecidableEq δ]

/-- A function of the waiters of `d`. -/
def wait (d : δ) (f : Waiters ν κ → Checked (Waiters ν κ)) : Checked (System δ ν κ ε) := do
  let w ← f (s.dir d).waiters
  pure (s.set d { s.dir d with waiters := w })

/-- `CDir::add_waiter`. -/
def addWaiter (d : δ) (tag : UInt64) (c : κ) : Checked (System δ ν κ ε) := do
  let x ← deref (F.nearest (s.accepts tag) d)
  wait { s with registered := s.registered ++ [c] } x fun w => pure (w.addWaiter tag c)

/-! ## Steps -/

end System

inductive Action (δ ν κ ε : Type)
  | authPin (d : δ) (who : Holder)
  | authUnpin (d : δ) (who : Holder)
  /-- A dentry of the fragment, or its inode, is auth pinned. -/
  | pinItem (d : δ)
  | unpinItem (d : δ)
  | freezeTree (d : δ)
  | unfreezeTree (d : δ)
  | freezeDir (d : δ)
  | unfreezeDir (d : δ)
  /-- The inodes change. -/
  | inodes (env : ε)
  | addWaiter (d : δ) (tag : UInt64) (c : κ)
  | addDentryWaiter (d : δ) (dname : ν) (snapid : ℕ) (c : κ)
  | takeDentryWaiting (d : δ) (dname : ν) (first last : ℕ)
  | takeSubWaiting (d : δ)
  | takeWaiting (d : δ) (mask : UInt64)

namespace System

variable {δ ν κ ε : Type} [DecidableEq δ] (F : Forest δ) (I : InodeView δ ν κ ε) (s : System δ ν κ ε)

def perform [LinearOrder ν] : Action δ ν κ ε → Checked (System δ ν κ ε)
  | .authPin d who => s.act F I d fun _ x => pure (x.authPin who)
  | .authUnpin d who => s.act F I d fun e x => x.authUnpin e who
  | .pinItem d =>
    act F I { s with items := Function.update s.items d (s.items d + 1) } d fun e x =>
      x.adjustNestedAuthPins e 1 1
  | .unpinItem d =>
    act F I { s with items := Function.update s.items d (s.items d - 1) } d fun e x =>
      x.adjustNestedAuthPins e (-1) (-1)
  | .freezeTree d => s.act F I d fun e x => x.freezeTree e
  | .unfreezeTree d => s.act F I d fun e x => x.unfreezeTree e
  | .freezeDir d => s.act F I d fun e x => x.freezeDir e
  | .unfreezeDir d => s.act F I d fun e x => x.unfreezeDir e
  | .inodes env => pure { s with env := env }
  | .addWaiter d tag c => s.addWaiter F d tag c
  | .addDentryWaiter d dname snapid c =>
    wait { s with registered := s.registered ++ [c] } d fun w => pure (w.addDentryWaiter dname snapid c)
  | .takeDentryWaiting d dname first last => s.wait d fun w => w.takeDentryWaiting dname first last
  | .takeSubWaiting d => s.wait d fun w => w.takeSubWaiting
  | .takeWaiting d mask => s.wait d fun w => w.takeWaiting mask

/-- Who waits for an unfreeze waits below a freeze, and who waits for a single
authority below a subtree root. -/
def mayWait (d : δ) (tag : UInt64) : Bool :=
  (!meets tag waitUnfreeze || (s.dir d).isFreezing (s.surroundings F I d) ||
    (s.dir d).isFrozen (s.surroundings F I d)) &&
  (!meets tag waitSingleauth || (F.nearest (fun x => (s.dir x).isSubtreeRoot) d).isSome)

/-- What the callers promise: a pin is taken where `can_auth_pin` holds, or by
one who holds a pin there, and released by its holder; a fragment is frozen
when it is not yet, and unfrozen when it is; who waits for both an unfreeze and
a single authority waits below a fragment that has both. -/
def allowed : Action δ ν κ ε → Bool
  | .authPin d who => decide (who ≠ .self) &&
      ((s.dir d).canAuthPin (s.surroundings F I d) || decide (0 < (s.dir d).authPins))
  | .authUnpin d who => decide (who ≠ .self) && decide (who ∈ (s.dir d).authPinSet)
  | .pinItem d => (s.dir d).canAuthPin (s.surroundings F I d) || decide (0 < s.items d)
  | .unpinItem d => decide (0 < s.items d)
  | .freezeTree d | .freezeDir d =>
    !(s.dir d).isFrozen (s.surroundings F I d) && !(s.dir d).isFreezing (s.surroundings F I d)
  | .unfreezeTree d => (s.dir d).frozenTree || (s.dir d).freezingTree
  | .unfreezeDir d => (s.dir d).frozenDir || (s.dir d).freezingDir
  | .addWaiter d tag _ => s.mayWait F I d tag &&
      (!(meets tag waitUnfreeze && meets tag waitSingleauth) ||
        (F.nearest (fun x => (s.dir x).flagged && (s.dir x).isSubtreeRoot) d).isSome)
  | _ => true

/-- One step, undefined where the promise is broken or an assertion fails. -/
def step [LinearOrder ν] (s : System δ ν κ ε) (a : Action δ ν κ ε) : Option (System δ ν κ ε) :=
  if s.allowed F I a then (s.perform F I a).toOption else none

end System

end CephMds.Freeze
