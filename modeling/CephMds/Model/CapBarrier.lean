import CephMds.Framework.Run
import Mathlib.Data.Int.Notation

/-!
# The epoch barrier of cap messages

What the client tells the MDSs with `cap_epoch_barrier`: `Client::handle_caps`
and `Client::handle_osd_map`, which set it, and `send_cap`, `flush_snaps`,
`remove_cap` and `flush_cap_releases`, which send it. How the releases of a
session share one message (`MetaSession::enqueue_cap_release`) is a parameter.
Of the other work of these functions only the messages matter. `history` is
what the client received, cancelled and sent, the newest first.
-/

namespace CephMds.CapBarrier

inductive Event
  /-- A message of an MDS, with its `osd_epoch_barrier`. -/
  | received (barrier : ℕ)
  /-- `op_cancel_writes` in this epoch. -/
  | cancelled (epoch : ℕ)
  /-- A cap message of the client, with its barrier. -/
  | sent (barrier : ℕ)
  deriving DecidableEq, Repr

structure Client where
  capEpochBarrier : ℕ
  /-- Of each session, by rank, the barrier of `release` if there is one. -/
  mdsSessions : List (ℤ × Option ℕ)
  /-- The map of the objecter. -/
  osdEpoch : ℕ
  osdmapFull : Bool
  history : List Event

structure MClientCaps where
  source : ℤ
  osdEpochBarrier : ℕ
  /-- `CEPH_CAP_OP_IMPORT`. -/
  isImport : Bool

/-- What `flush_cap_releases` reads of the MDS map and of the configuration. -/
structure Env where
  isClientreplayOrActiveOrStopping : ℤ → Bool
  injectReleaseFailure : Bool

/-- The barrier of a session's release, after one with this barrier joins it. -/
abbrev Enqueue := Option ℕ → ℕ → ℕ

namespace Client

variable (enqueue : Enqueue)

/-- The constructor. -/
def initial : Client where
  capEpochBarrier := 0
  mdsSessions := []
  osdEpoch := 0
  osdmapFull := false
  history := []

def record (c : Client) (e : Event) : Client := { c with history := e :: c.history }

def setCapEpochBarrier (c : Client) (e : ℕ) : Client := { c with capEpochBarrier := e }

/-- `handle_osd_map`. -/
def handleOsdMap (c : Client) : Client :=
  if c.osdmapFull then (c.record (.cancelled c.osdEpoch)).setCapEpochBarrier c.osdEpoch else c

/-- `session->enqueue_cap_release(…, cap_epoch_barrier)`. -/
def enqueueCapRelease (c : Client) (mds : ℤ) : Client :=
  { c with mdsSessions := c.mdsSessions.map fun p =>
      if p.1 = mds then (p.1, some (enqueue p.2 c.capEpochBarrier)) else p }

/-- `flush_cap_releases`, for one session. -/
def flushRelease (env : Env) (p : ℤ × Option ℕ) : ℤ × Option ℕ :=
  if env.isClientreplayOrActiveOrStopping p.1 then (p.1, none) else p

/-- The release that `flush_cap_releases` sends to a session. -/
def sentRelease (env : Env) (p : ℤ × Option ℕ) : Option Event :=
  if env.isClientreplayOrActiveOrStopping p.1 && !env.injectReleaseFailure then p.2.map .sent else none

/-- `flush_cap_releases`. -/
def flushCapReleases (c : Client) (env : Env) : Client :=
  { c with
    mdsSessions := c.mdsSessions.map (flushRelease env)
    history := (c.mdsSessions.filterMap (sentRelease env)).reverse ++ c.history }

/-- Of `handle_caps`, the part that records the barrier. -/
def takeBarrier (c : Client) (m : MClientCaps) : Client :=
  let c := c.record (.received m.osdEpochBarrier)
  if c.capEpochBarrier < m.osdEpochBarrier then c.setCapEpochBarrier m.osdEpochBarrier else c

/-- `handle_caps`, up to the operation of the message. `known` says whether the client has the inode. -/
def handleCaps (c : Client) (m : MClientCaps) (known : Bool) (env : Env) : Client :=
  if (c.mdsSessions.lookup m.source).isNone then c
  else
    let c := c.takeBarrier m
    if known then c
    else
      let c := if m.isImport then c.enqueueCapRelease enqueue m.source else c
      c.flushCapReleases env

/-- `send_cap` and `flush_snaps`, which put the barrier in the message. -/
def sendCap (c : Client) : Client := c.record (.sent c.capEpochBarrier)

end Client

inductive Action
  /-- The objecter gets a map with a later epoch. -/
  | osdMap (epoch : ℕ) (full : Bool)
  | handleOsdMap
  | handleCaps (m : MClientCaps) (known : Bool) (env : Env)
  | sendCap
  | flushSnaps
  /-- `remove_cap` with `queue_release`. -/
  | removeCap (mds : ℤ)
  /-- `flush_cap_releases`, in `tick`. -/
  | flushCapReleases (env : Env)
  | openSession (mds : ℤ)
  | closeSession (mds : ℤ)
  /-- `send_reconnect`, which drops the release. -/
  | sendReconnect (mds : ℤ)

def step (enqueue : Enqueue) (c : Client) : Action → Option Client
  | .osdMap e full => if c.osdEpoch < e then some { c with osdEpoch := e, osdmapFull := full } else none
  | .handleOsdMap => some c.handleOsdMap
  | .handleCaps m known env => some (c.handleCaps enqueue m known env)
  | .sendCap => some c.sendCap
  | .flushSnaps => some c.sendCap
  | .removeCap mds => some (c.enqueueCapRelease enqueue mds)
  | .flushCapReleases env => some (c.flushCapReleases env)
  | .openSession mds =>
    if (c.mdsSessions.lookup mds).isSome then none else some { c with mdsSessions := (mds, none) :: c.mdsSessions }
  | .closeSession mds => some { c with mdsSessions := c.mdsSessions.filter fun p => p.1 != mds }
  | .sendReconnect mds =>
    some { c with mdsSessions := c.mdsSessions.map fun p => if p.1 = mds then (p.1, none) else p }

end CephMds.CapBarrier
