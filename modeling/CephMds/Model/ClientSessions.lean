import CephMds.Framework.Run
import Mathlib

/-!
# The sessions of a client and the MDS map

`Client::handle_mds_map` with `send_reconnect`, `kick_requests`,
`resend_unsafe_requests`, `connect_mds_targets`, `_open_mds_session` and
`send_request`. A connection is an object, known by its index; the messenger
is not in the repository: `get_connection` returns the connection to an
instance that has not been marked down, and makes one where there is none.
Of the MDS map, the client reads for each rank that is up its instance, state
and export targets. A request remembers the connections that it has been sent
on (`sentOn`); the lists of a session are those of the requests whose `item` or
`unsafe_item` is on them.
-/

namespace CephMds.Client

/-- `MDSMap::DaemonState`, of a rank. -/
inductive DaemonState
  | dne
  | creating
  | starting
  | replay
  | resolve
  | reconnect
  | rejoin
  | clientreplay
  | active
  | stopping
  deriving DecidableEq, Repr

def DaemonState.toInt : DaemonState → ℤ
  | dne => 0
  | creating => -6
  | starting => -7
  | replay => 8
  | resolve => 9
  | reconnect => 10
  | rejoin => 11
  | clientreplay => 12
  | active => 13
  | stopping => 14

instance : LE DaemonState := ⟨fun a b => a.toInt ≤ b.toInt⟩
instance : LT DaemonState := ⟨fun a b => a.toInt < b.toInt⟩
instance (a b : DaemonState) : Decidable (a ≤ b) := inferInstanceAs (Decidable (_ ≤ _))
instance (a b : DaemonState) : Decidable (a < b) := inferInstanceAs (Decidable (_ < _))

/-- What the map has of a rank that is up. -/
structure MdsInfo where
  inst : ℕ
  state : DaemonState
  exportTargets : List ℕ := []

structure MdsMap where
  epoch : ℕ
  /-- The ranks that are up, all below `ranks`. -/
  info : ℕ → Option MdsInfo

namespace MdsMap

def isUp (m : MdsMap) (r : ℕ) : Bool := (m.info r).isSome

def getState (m : MdsMap) (r : ℕ) : DaemonState := ((m.info r).map MdsInfo.state).getD .dne

def getInst (m : MdsMap) (r : ℕ) : Option ℕ := (m.info r).map MdsInfo.inst

def isClientreplayOrActiveOrStopping (m : MdsMap) (r : ℕ) : Bool :=
  m.getState r = .clientreplay ∨ m.getState r = .active ∨ m.getState r = .stopping

end MdsMap

structure Connection where
  inst : ℕ
  /-- `mark_down` was called. -/
  down : Bool := false
  deriving DecidableEq

structure MetaSession where
  inst : ℕ
  con : ℕ
  deriving DecidableEq

structure MetaRequest where
  mds : Option ℕ := none
  retryAttempt : ℕ := 0
  gotUnsafe : Bool := false
  item : Option ℕ := none
  unsafeItem : Option ℕ := none
  sentOn : List ℕ := []
  deriving DecidableEq

/-- `send_request`, to rank `r` on connection `con`. -/
def MetaRequest.send (q : MetaRequest) (r con : ℕ) : MetaRequest :=
  { q with mds := some r, retryAttempt := q.retryAttempt + 1, item := some r, sentOn := con :: q.sentOn }

structure State where
  mdsmap : MdsMap
  cons : List Connection
  /-- All ranks are below this. -/
  ranks : ℕ
  sessions : ℕ → Option MetaSession
  requests : ℕ → Option MetaRequest

namespace State

def putSession (x : State) (r : ℕ) (s : MetaSession) : State :=
  { x with sessions := Function.update x.sessions r (some s) }

/-- `mark_down`. -/
def markDown (x : State) (con : ℕ) : State :=
  { x with cons := x.cons.modify con fun c => { c with down := true } }

/-- `Messenger::get_connection`. -/
def getConnection (x : State) (inst : ℕ) : State × ℕ :=
  match x.cons.findIdx? fun c => c.inst = inst && !c.down with
  | some con => (x, con)
  | none => ({ x with cons := x.cons ++ [{ inst }] }, x.cons.length)

/-- The connection of `getConnection`, for the session of rank `r`. -/
def connectSession (x : State) (r inst : ℕ) : State :=
  (x.getConnection inst).1.putSession r { inst, con := (x.getConnection inst).2 }

/-- `_open_mds_session`, with a rank that is up. -/
def openMdsSession (x : State) (r : ℕ) : State :=
  match x.mdsmap.getInst r with
  | some inst => x.connectSession r inst
  | none => x

/-- One turn of the loop of `connect_mds_targets`. -/
def connectTarget (x : State) (q : ℕ) : State :=
  if x.sessions q = none ∧ x.mdsmap.isClientreplayOrActiveOrStopping q then x.openMdsSession q else x

/-- `connect_mds_targets`. -/
def connectMdsTargets (x : State) (r : ℕ) : State :=
  (((x.mdsmap.info r).map MdsInfo.exportTargets).getD []).foldl connectTarget x

/-- Sends each of the requests that `p` selects to rank `r`. -/
def sendAll (x : State) (r con : ℕ) (p : MetaRequest → Bool) : State :=
  { x with requests := fun t => (x.requests t).map fun q => if p q then q.send r con else q }

/-- `kick_requests`. -/
def kickRequests (x : State) (r con : ℕ) : State :=
  x.sendAll r con fun q => !q.gotUnsafe && q.retryAttempt = 0 && q.mds = some r

/-- `resend_unsafe_requests`: the unsafe requests of the session, and the old ones. -/
def resendUnsafeRequests (x : State) (r con : ℕ) : State :=
  (x.sendAll r con fun q => q.unsafeItem = some r).sendAll r con
    fun q => !q.gotUnsafe && q.retryAttempt ≠ 0 && q.mds = some r

/-- What of `send_reconnect` concerns the sessions and the requests. -/
def sendReconnect (x : State) (r con : ℕ) : State := (x.connectMdsTargets r).resendUnsafeRequests r con

/-- `STATE_RECONNECT`: the session gets a connection to the instance, and reconnects. -/
def reconnectSession (x : State) (r inst : ℕ) : State :=
  (x.connectSession r inst).sendReconnect r (x.getConnection inst).2

/-- What follows for a session whose rank is active, or about to stop. -/
def activeSession (x : State) (oldstate : DaemonState) (r con : ℕ) : State :=
  (if oldstate < .active then x.kickRequests r con else x).connectMdsTargets r

/-- The first part of the loop of `handle_mds_map`: the session of a rank that is down, or has another instance. -/
def resetSession (x : State) (r : ℕ) (s : MetaSession) : State :=
  match x.mdsmap.getInst r with
  | some inst => (x.markDown s.con).putSession r { s with inst }
  | none => x.markDown s.con

/-- `newstate == STATE_RECONNECT`. -/
def enterReconnect (x : State) (r : ℕ) : State :=
  match x.mdsmap.getInst r with
  | some inst => if x.mdsmap.getState r = .reconnect then x.reconnectSession r inst else x
  | none => x

/-- `newstate >= STATE_ACTIVE`. -/
def enterActive (x : State) (oldstate : DaemonState) (r : ℕ) : State :=
  match x.sessions r with
  | some s => if DaemonState.active ≤ x.mdsmap.getState r then x.activeSession oldstate r s.con else x
  | none => x

/-- What follows for the new state of the rank. -/
def enterState (x : State) (oldstate : DaemonState) (r : ℕ) : State := (x.enterReconnect r).enterActive oldstate r

/-- One turn of the loop of `handle_mds_map`. -/
def resetRank (oldmap : MdsMap) (x : State) (r : ℕ) : State :=
  match x.sessions r with
  | none => x
  | some s =>
    if x.mdsmap.getInst r ≠ some s.inst then (x.resetSession r s).enterState (oldmap.getState r) r
    else if oldmap.getState r = x.mdsmap.getState r then x
    else x.enterState (oldmap.getState r) r

/-- `handle_mds_map`: the sessions in the order of their ranks, with those that are opened on the way. -/
def handleMdsMap (x : State) (m : MdsMap) : State :=
  if m.epoch < x.mdsmap.epoch then x
  else (List.range x.ranks).foldl (resetRank x.mdsmap) { x with mdsmap := m }

end State

inductive Action
  | mdsmap (m : MdsMap)
  /-- `make_request` opens a session. -/
  | openSession (r : ℕ)
  /-- The session of the rank has been opened, and those of its export targets are too. -/
  | sessionOpen (r : ℕ)
  /-- A request is sent to a rank with an open session. -/
  | send (t r : ℕ)
  /-- `handle_client_request_forward`. -/
  | forward (t : ℕ)
  /-- `handle_client_reply`, unsafe, from the rank that the request was sent to. -/
  | replyUnsafe (t : ℕ)
  /-- `handle_client_reply`, safe, or the caller gives up. -/
  | finish (t : ℕ)

namespace State

def putRequest (x : State) (t : ℕ) (q : Option MetaRequest) : State :=
  { x with requests := Function.update x.requests t q }

def step (x : State) : Action → Option State
  | .mdsmap m => some (x.handleMdsMap m)
  | .openSession r =>
    if x.sessions r = none ∧ (x.mdsmap.getState r = .active ∨ x.mdsmap.getState r = .stopping) then
      some (x.openMdsSession r)
    else none
  | .sessionOpen r => if (x.sessions r).isSome then some (x.connectMdsTargets r) else none
  | .send t r =>
    match x.sessions r with
    | some s =>
      if ((x.requests t).getD {}).gotUnsafe then none
      else some (x.putRequest t (some (((x.requests t).getD {}).send r s.con)))
    | none => none
  | .forward t => (x.requests t).map fun q =>
      x.putRequest t (some { q with mds := none, retryAttempt := 0 })
  | .replyUnsafe t => (x.requests t).map fun q =>
      if q.gotUnsafe then x else x.putRequest t (some { q with gotUnsafe := true, unsafeItem := q.mds })
  | .finish t => some (x.putRequest t none)

end State

end CephMds.Client
