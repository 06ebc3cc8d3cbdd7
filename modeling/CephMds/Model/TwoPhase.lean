import CephMds.Framework.Check
import Mathlib

/-!
# Masters and slaves of a request

A request that changes what other ranks have is prepared by these, its slaves,
journaled by its master, and then committed by the slaves: the handlers of
`Server` and of the resolve stage of `MDCache`, for one master and any number of
slaves and requests. The requests are those that link or unlink a remote inode
(`_link_remote`), whose slaves always journal what they prepare; removals of
directories, which a slave may prepare without its journal (`mark_not_journaled`),
and renames are left out, and so is what else a rank does in the resolve stage.
The master is no slave of another rank, and has no resolves to send that matter
here. The failure of a rank is noticed by all others at once, and what it sent and
what was sent to it is lost (`is_stale_message`).
-/

namespace CephMds.TwoPhase

open Checked

/-! ## Data -/

/-- The states of a rank: `rejoin` stands for all between `resolve` and `active`. -/
inductive State
  | down
  | resolve
  | rejoin
  | active
  deriving DecidableEq

/-- `OP_LINKPREP` or `OP_UNLINKPREP`, and `OP_FINISH`. -/
inductive Opcode
  | prep
  | finish
  deriving DecidableEq

/-- `MMDSSlaveRequest` and `MMDSResolveAck`. -/
inductive ToSlave
  | request (op : Opcode) (reqid : ℕ)
  | resolveAck (commit abort : List ℕ)
  deriving DecidableEq

/-- `OP_LINKPREPACK`, `OP_COMMITTED` and `MMDSResolve`; what this tells of
subtrees is left out. -/
inductive ToMaster
  | prepAck (reqid : ℕ)
  | committed (reqid : ℕ)
  | resolve (slaveRequests : List ℕ)
  deriving DecidableEq

/-! ## A slave -/

/-- `ESlaveUpdate::OP_PREPARE`, `OP_COMMIT` and `OP_ROLLBACK`. -/
inductive SlaveOp
  | prepare
  | commit
  | rollback
  deriving DecidableEq

structure ESlaveUpdate where
  op : SlaveOp
  reqid : ℕ
  deriving DecidableEq

/-- What is read of a slave's `MDRequestImpl`: whether a message is handled, whether there is a
context for the commit, and whether it is to be aborted. -/
structure SlaveRequest where
  slaveRequest : Bool
  slaveCommit : Bool
  aborted : Bool
  deriving DecidableEq

structure Slave where
  state : State
  journal : List ESlaveUpdate
  /-- What has been submitted and is not in the journal yet. -/
  writing : List ESlaveUpdate
  activeRequests : Std.ExtTreeMap ℕ SlaveRequest
  /-- `uncommitted_slave_updates`. -/
  uncommittedSlaveUpdates : Finset ℕ
  needResolveRollback : Finset ℕ
  /-- Whether the master is in `resolve_ack_gather`. -/
  resolveAckGather : Bool
  waitingForReplay : List ToSlave

/-- A rank without memory. -/
def Slave.new (state : State) (journal : List ESlaveUpdate) : Slave := ⟨state, journal, [], ∅, ∅, ∅, false, []⟩

namespace Slave

variable (s : Slave)

def submit (op : SlaveOp) (reqid : ℕ) : Slave := { s with writing := s.writing ++ [⟨op, reqid⟩] }

/-- `do_link_rollback`, which asserts that the inode is not projected: it is until the rollback is in
the journal. -/
def doRollback (reqid : ℕ) : Checked Slave := do
  assert (!s.writing.contains ⟨.rollback, reqid⟩)
  pure { s.submit .rollback reqid with needResolveRollback := insert reqid s.needResolveRollback }

def setRequest (reqid : ℕ) (mdr : SlaveRequest) : Slave :=
  { s with activeRequests := s.activeRequests.insert reqid mdr }

/-- `request_cleanup`. -/
def requestCleanup (reqid : ℕ) : Slave := { s with activeRequests := s.activeRequests.erase reqid }

/-- `request_finish`, with `_commit_slave_link`. -/
def requestFinish (reqid : ℕ) (mdr : SlaveRequest) : Checked Slave :=
  if mdr.slaveCommit then
    let s := s.setRequest reqid { mdr with slaveCommit := false, aborted := false }
    if mdr.aborted then s.doRollback reqid else pure (s.submit .commit reqid)
  else pure (s.requestCleanup reqid)

/-- `dispatch_slave_request`, with `handle_slave_link_prep`. -/
def dispatchSlaveRequest (op : Opcode) (reqid : ℕ) (mdr : SlaveRequest) : Checked Slave :=
  if mdr.aborted then s.requestFinish reqid mdr
  else match op with
    | .prep => pure ((s.setRequest reqid { mdr with slaveCommit := true }).submit .prepare reqid)
    | .finish => s.requestFinish reqid mdr

/-- `handle_slave_request`. -/
def handleSlaveRequest (op : Opcode) (reqid : ℕ) : Checked Slave :=
  match op, s.activeRequests[reqid]? with
  | .finish, none => pure s
  | _, o => do
    let mdr := o.getD ⟨false, false, false⟩
    assert (!mdr.slaveRequest)
    if s.state ≠ .active then
      pure { s.setRequest reqid mdr with waitingForReplay := s.waitingForReplay ++ [.request op reqid] }
    else s.dispatchSlaveRequest op reqid { mdr with slaveRequest := true }

/-- `send_subtree_resolves`, for the master. -/
def sendSubtreeResolves (master : State) : List ToMaster :=
  if s.state = .resolve ∨ master = .resolve then [.resolve []] else []

/-- What is sent when nothing is waited for any more. -/
def resolvesIfDone (master : State) : List ToMaster :=
  if !s.resolveAckGather ∧ s.needResolveRollback = ∅ then s.sendSubtreeResolves master else []

/-- `handle_resolve_ack`, for a request that is to be committed. -/
def ackCommit (s : Slave) (reqid : ℕ) : Checked Slave :=
  if s.state = .resolve then do
    assert (decide (reqid ∈ s.uncommittedSlaveUpdates))
    pure { s.submit .commit reqid with uncommittedSlaveUpdates := s.uncommittedSlaveUpdates.erase reqid }
  else do
    let mdr ← deref s.activeRequests[reqid]?
    assert (!mdr.slaveRequest)
    s.requestFinish reqid mdr

/-- `handle_resolve_ack`, for a request that is to be aborted. -/
def ackAbort (s : Slave) (reqid : ℕ) : Checked Slave :=
  if s.state = .resolve then do
    assert (decide (reqid ∈ s.uncommittedSlaveUpdates))
    s.doRollback reqid
  else do
    let mdr ← deref s.activeRequests[reqid]?
    let s := s.setRequest reqid { mdr with aborted := true }
    if mdr.slaveRequest then
      if mdr.slaveCommit then pure { s with needResolveRollback := insert reqid s.needResolveRollback } else pure s
    else s.requestFinish reqid { mdr with aborted := true }

/-- `handle_resolve_ack`. -/
def handleResolveAck (master : State) (commit abort : List ℕ) : Checked (Slave × List ToMaster) :=
  if !s.resolveAckGather ∨ master = .down then pure (s, [])
  else do
    let s ← commit.foldlM ackCommit s
    let s ← abort.foldlM ackAbort s
    let s := { s with resolveAckGather := false }
    pure (s, s.resolvesIfDone master)

/-- A message of the master. -/
def handle (master : State) : ToSlave → Checked (Slave × List ToMaster)
  | .request op reqid => do
    let s ← s.handleSlaveRequest op reqid
    pure (s, [])
  | .resolveAck commit abort => s.handleResolveAck master commit abort

/-- `finish_rollback`. -/
def finishRollback (master : State) (reqid : ℕ) : Checked (Slave × List ToMaster) := do
  assert (decide (reqid ∈ s.needResolveRollback))
  assert (decide (s.state = .resolve → reqid ∈ s.uncommittedSlaveUpdates))
  let s := { s with
    uncommittedSlaveUpdates :=
      if s.state = .resolve then s.uncommittedSlaveUpdates.erase reqid else s.uncommittedSlaveUpdates
    needResolveRollback := s.needResolveRollback.erase reqid }
  pure (s, s.resolvesIfDone master)

/-- `_logged_slave_link`. -/
def loggedPrepare (reqid : ℕ) : Checked (Slave × List ToMaster) := do
  let mdr ← deref s.activeRequests[reqid]?
  let mdr := { mdr with slaveRequest := false }
  if mdr.aborted then do
    let s ← s.requestFinish reqid mdr
    pure (s, [])
  else pure (s.setRequest reqid mdr, [.prepAck reqid])

/-- The first entry is in the journal now: `_committed_slave` and `_logged_slave_commit`,
`_link_rollback_finish`. -/
def logged (master : State) : Checked (Slave × List ToMaster) :=
  match s.writing with
  | [] => pure (s, [])
  | e :: rest =>
    let s := { s with journal := s.journal ++ [e], writing := rest }
    match e.op with
    | .prepare => s.loggedPrepare e.reqid
    | .commit => pure (s.requestCleanup e.reqid, [.committed e.reqid])
    | .rollback => (s.requestCleanup e.reqid).finishRollback master e.reqid

/-- `handle_mds_failure`, of the master. -/
def handleMdsFailure : Slave :=
  { s with activeRequests := s.activeRequests.filterMap fun _ mdr =>
      if mdr.slaveCommit then some mdr
      else if mdr.slaveRequest then some { mdr with aborted := true }
      else none }

/-- The updates that the replay of a journal leaves uncommitted. -/
def openUpdates (journal : List ESlaveUpdate) : Finset ℕ :=
  journal.foldl (fun l e => if e.op = .prepare then insert e.reqid l else l.erase e.reqid) ∅

/-- The rank was taken over. -/
def replayed : Slave := { new .resolve s.journal with uncommittedSlaveUpdates := openUpdates s.journal }

/-- The slave updates of `send_slave_resolves`, for the master. -/
def slaveResolves (master : State) : List ℕ :=
  if s.state = .resolve then ascending s.uncommittedSlaveUpdates
  else if master = .resolve then
    (s.activeRequests.toList.filter fun p => p.2.slaveCommit).map Prod.fst
  else []

/-- `send_resolves`. -/
def sendResolves (master : State) : Slave × List ToMaster :=
  let reqs := s.slaveResolves master
  let s := if reqs.isEmpty then s else { s with resolveAckGather := true }
  (s, (if reqs.isEmpty then [] else [.resolve reqs]) ++ s.resolvesIfDone master)

/-- The rank gets active, and handles what waited for it. -/
def activate (master : State) : Checked (Slave × List ToMaster) :=
  s.waitingForReplay.foldlM
    (fun (p : Slave × List ToMaster) m => do
      let q ← p.1.handle master m
      pure (q.1, p.2 ++ q.2))
    ({ s with state := .active, waitingForReplay := [] }, [])

end Slave

/-! ## The master -/

variable {n : ℕ}

/-- `EUpdate` of a request that has slaves, with those that had prepared it, and `ECommitted`. The
replay does not read the slaves. -/
inductive LogEvent (n : ℕ)
  | update (reqid : ℕ) (slaves : Finset (Fin n))
  | committed (reqid : ℕ)
  deriving DecidableEq

def LogEvent.reqid : LogEvent n → ℕ
  | .update reqid _ => reqid
  | .committed reqid => reqid

/-- `umaster`. -/
structure UMaster (n : ℕ) where
  slaves : Finset (Fin n)
  safe : Bool
  committing : Bool
  recovering : Bool

/-- What is read of a master's `MDRequestImpl`. -/
structure Request (n : ℕ) where
  slaves : Finset (Fin n)
  witnessed : Finset (Fin n)
  waitingOnSlave : Finset (Fin n)
  committing : Bool

structure Master (n : ℕ) where
  state : State
  journal : List (LogEvent n)
  writing : List (LogEvent n)
  activeRequests : Std.ExtTreeMap ℕ (Request n)
  uncommittedMasters : Std.ExtTreeMap ℕ (UMaster n)
  pendingMasters : Finset ℕ
  delayedResolve : Std.ExtTreeMap (Fin n) (List ℕ)
  resolveGather : Finset (Fin n)
  /-- Messages with their senders. -/
  waitingForReplay : List (Fin n × ToMaster)

/-- A rank without memory. -/
def Master.new (state : State) (journal : List (LogEvent n)) : Master n := ⟨state, journal, [], ∅, ∅, ∅, ∅, ∅, []⟩

namespace Master

variable (m : Master n)

def setMaster (reqid : ℕ) (u : UMaster n) : Master n :=
    { m with uncommittedMasters := m.uncommittedMasters.insert reqid u }

def setRequest (reqid : ℕ) (mdr : Request n) : Master n :=
    { m with activeRequests := m.activeRequests.insert reqid mdr }

/-- `log_master_commit`. -/
def logMasterCommit (reqid : ℕ) (u : UMaster n) : Master n :=
  { m.setMaster reqid { u with committing := true } with writing := m.writing ++ [.committed reqid] }

/-- `committed_master_slave`. -/
def committedMasterSlave (reqid : ℕ) (src : Fin n) : Checked (Master n) := do
  let u ← deref m.uncommittedMasters[reqid]?
  let u := { u with slaves := u.slaves.erase src }
  if !u.recovering ∧ u.slaves = ∅ then pure (m.logMasterCommit reqid u) else pure (m.setMaster reqid u)

/-- `finish_committed_masters`. -/
def finishCommittedMasters : Master n :=
  let last (u : UMaster n) : Bool := !u.committing && decide (u.slaves = ∅)
  { m with
    uncommittedMasters := m.uncommittedMasters.map fun _ u =>
      { u with recovering := false, committing := u.committing || last u }
    writing := m.writing ++ (m.uncommittedMasters.toList.filter fun p => last p.2).map fun p => .committed p.1 }

/-- `maybe_resolve_finish`. -/
def maybeResolveFinish : Master n :=
  if m.resolveGather ≠ ∅ then m
  else
    let m := m.finishCommittedMasters
    if m.state = .resolve then { m with state := .rejoin } else m

/-- The answer to a slave update: "COMMIT" or "ABORT". -/
def commits (reqid : ℕ) : Bool := m.uncommittedMasters.contains reqid

/-- The slave will tell when it has committed. -/
def addSlave (src : Fin n) (m : Master n) (reqid : ℕ) : Master n :=
  match m.uncommittedMasters[reqid]? with
  | some u => m.setMaster reqid { u with slaves := insert src u.slaves }
  | none => m

/-- `handle_resolve`. -/
def handleResolve (src : Fin n) (slaveRequests : List ℕ) : Master n × List (Fin n × ToSlave) :=
  let m : Master n := { m with delayedResolve := m.delayedResolve.erase src }
  if slaveRequests ≠ [] then
    let unsafes := slaveRequests.filter fun r =>
      match m.uncommittedMasters[r]? with
      | some u => !u.safe
      | none => false
    let m : Master n := { m with pendingMasters := m.pendingMasters ∪ unsafes.toFinset }
    if m.pendingMasters ≠ ∅ then ({ m with delayedResolve := m.delayedResolve.insert src slaveRequests }, [])
    else (slaveRequests.foldl (addSlave src) m,
      [(src, .resolveAck (slaveRequests.filter m.commits) (slaveRequests.filter fun r => !m.commits r))])
  else ({ m with resolveGather := m.resolveGather.erase src }.maybeResolveFinish, [])

/-- `process_delayed_resolve`. -/
def processDelayedResolve : Master n × List (Fin n × ToSlave) :=
  m.delayedResolve.toList.foldl
    (fun (p : Master n × List (Fin n × ToSlave)) q =>
      let n := p.1.handleResolve q.1 q.2
      (n.1, p.2 ++ n.2))
    ({ m with delayedResolve := ∅ }, [])

/-- `logged_master_update`. -/
def loggedMasterUpdate (reqid : ℕ) : Checked (Master n × List (Fin n × ToSlave)) := do
  let u ← deref m.uncommittedMasters[reqid]?
  let m := m.setMaster reqid { u with safe := true }
  if reqid ∈ m.pendingMasters then
    let m := { m with pendingMasters := m.pendingMasters.erase reqid }
    if m.pendingMasters = ∅ then pure m.processDelayedResolve else pure (m, [])
  else pure (m, [])

/-- `_logged_master_commit`. -/
def loggedMasterCommit (reqid : ℕ) : Checked (Master n) := do
  assert (m.uncommittedMasters.contains reqid)
  pure { m with uncommittedMasters := m.uncommittedMasters.erase reqid }

/-- The first entry is in the journal now. A request is replied to and finished then
(`_link_remote_finish`, `request_drop_foreign_locks`). -/
def logged : Checked (Master n × List (Fin n × ToSlave)) :=
  match m.writing with
  | [] => pure (m, [])
  | e :: rest =>
    let m := { m with journal := m.journal ++ [e], writing := rest }
    match e with
    | .update reqid _ => do
      let p ← m.loggedMasterUpdate reqid
      let mdr ← deref p.1.activeRequests[reqid]?
      pure ({ p.1 with activeRequests := p.1.activeRequests.erase reqid },
        p.2 ++ (ascending mdr.slaves).map fun s => (s, .request .finish reqid))
    | .committed reqid => do
      let m ← m.loggedMasterCommit reqid
      pure (m, [])

/-- `handle_slave_link_prep_ack`. -/
def handlePrepAck (reqid : ℕ) (src : Fin n) : Checked (Master n) := do
  assert (m.activeRequests.contains reqid)
  let mdr ← deref m.activeRequests[reqid]?
  assert (decide (src ∉ mdr.witnessed))
  assert (decide (src ∈ mdr.waitingOnSlave))
  pure (m.setRequest reqid { mdr with
    slaves := insert src mdr.slaves
    witnessed := insert src mdr.witnessed
    waitingOnSlave := mdr.waitingOnSlave.erase src })

/-- A message of a slave: `handle_resolve`, or `handle_slave_request_reply`. -/
def handle (src : Fin n) (msg : ToMaster) : Checked (Master n × List (Fin n × ToSlave)) :=
  match msg with
  | .resolve slaveRequests => pure (m.handleResolve src slaveRequests)
  | .prepAck reqid =>
    if m.state ≠ .active then pure ({ m with waitingForReplay := m.waitingForReplay ++ [(src, msg)] }, [])
    else do
      let m ← m.handlePrepAck reqid src
      pure (m, [])
  | .committed reqid =>
    if m.state ≠ .active then pure ({ m with waitingForReplay := m.waitingForReplay ++ [(src, msg)] }, [])
    else do
      let m ← m.committedMasterSlave reqid src
      pure (m, [])

/-- What `handle_mds_failure` changes in a request. -/
def Request.without (who : Fin n) (mdr : Request n) : Request n :=
  if mdr.committing then mdr
  else { mdr with witnessed := mdr.witnessed.erase who, waitingOnSlave := mdr.waitingOnSlave.erase who }

/-- "The failed MDS may have already committed the slave update". -/
def UMaster.without (who : Fin n) (u : UMaster n) : UMaster n :=
  if who ∈ u.slaves then { u with recovering := true, slaves := u.slaves.erase who } else u

/-- `handle_mds_failure`, of a slave. What it sent and waits here is stale. -/
def handleMdsFailure (who : Fin n) : Master n :=
  { m with
    resolveGather := insert who m.resolveGather
    delayedResolve := m.delayedResolve.erase who
    activeRequests := m.activeRequests.map fun _ mdr => Request.without who mdr
    uncommittedMasters := m.uncommittedMasters.map fun _ u => UMaster.without who u
    waitingForReplay := m.waitingForReplay.filter fun p => p.1 ≠ who }

/-- The uncommitted masters that the replay of a journal leaves (`add_uncommitted_master`). -/
def replayMasters (journal : List (LogEvent n)) : Std.ExtTreeMap ℕ (UMaster n) :=
  journal.foldl
    (fun l e =>
      match e with
      | .update reqid _ => l.insert reqid ⟨∅, true, false, false⟩
      | .committed reqid => l.erase reqid)
    ∅

/-- The rank was taken over: `resolve_start`. -/
def replayed : Master n :=
  { new .resolve m.journal with uncommittedMasters := replayMasters m.journal, resolveGather := .univ }

/-- The rank gets active, and handles what waited for it. -/
def activate : Checked (Master n × List (Fin n × ToSlave)) :=
  m.waitingForReplay.foldlM
    (fun (p : Master n × List (Fin n × ToSlave)) q => do
      let n ← p.1.handle q.1 q.2
      pure (n.1, p.2 ++ n.2))
    ({ m with state := .active, waitingForReplay := [] }, [])

/-- A request of a client begins. -/
def start (reqid : ℕ) : Master n := m.setRequest reqid ⟨∅, ∅, ∅, false⟩

/-- A slave is asked to prepare (`_link_remote`). -/
def prepare (reqid : ℕ) (who : Fin n) : Checked (Master n) := do
  let mdr ← deref m.activeRequests[reqid]?
  assert (decide (who ∉ mdr.waitingOnSlave))
  pure (m.setRequest reqid { mdr with waitingOnSlave := insert who mdr.waitingOnSlave })

/-- The request is journaled: `add_uncommitted_master` and `journal_and_reply`. -/
def update (reqid : ℕ) : Checked (Master n) := do
  let mdr ← deref m.activeRequests[reqid]?
  let m := m.setRequest reqid { mdr with committing := true }
  pure { m.setMaster reqid ⟨mdr.witnessed, false, false, false⟩ with
    writing := m.writing ++ [.update reqid mdr.witnessed] }

end Master

/-! ## The system -/

structure System (n : ℕ) where
  master : Master n
  slaves : Fin n → Slave
  toSlave : Fin n → List ToSlave
  toMaster : Fin n → List ToMaster

inductive Event (n : ℕ)
  | start (reqid : ℕ)
  | prepare (reqid : ℕ) (who : Fin n)
  | update (reqid : ℕ)
  | masterLogged
  | slaveLogged (who : Fin n)
  /-- The first message of a channel is handled. -/
  | toSlave (who : Fin n)
  | toMaster (who : Fin n)
  | masterFails
  | masterReplayed
  | masterActive
  | slaveFails (who : Fin n)
  | slaveReplayed (who : Fin n)
  | slaveActive (who : Fin n)
  /-- `is_resolving` of a new MDS map: all send resolves. -/
  | resolving

namespace System

/-- All ranks are active, and nothing was done. -/
def init : System n :=
  ⟨.new .active [], fun _ => .new .active [], fun _ => [], fun _ => []⟩

variable (c : System n)

/-- What a slave has become, and what it sends. -/
def setSlave (who : Fin n) (p : Slave × List ToMaster) : System n :=
  { c with
    slaves := Function.update c.slaves who p.1
    toMaster :=
      if c.master.state = .down then c.toMaster
      else Function.update c.toMaster who (c.toMaster who ++ p.2) }

/-- What the master has become, and what it sends. -/
def setMaster (p : Master n × List (Fin n × ToSlave)) : System n :=
  { c with
    master := p.1
    toSlave := fun who => c.toSlave who ++
      if (c.slaves who).state = .down then [] else (p.2.filter fun q => q.1 = who).map Prod.snd }

def step : Event n → Checked (System n)
  | .start reqid => pure { c with master := c.master.start reqid }
  | .prepare reqid who => do
    let m ← c.master.prepare reqid who
    pure (c.setMaster (m, [(who, .request .prep reqid)]))
  | .update reqid => do
    let m ← c.master.update reqid
    pure { c with master := m }
  | .masterLogged => do
    let p ← c.master.logged
    pure (c.setMaster p)
  | .slaveLogged who => do
    let p ← (c.slaves who).logged c.master.state
    pure (c.setSlave who p)
  | .toSlave who =>
    match c.toSlave who with
    | [] => pure c
    | msg :: rest => do
      let p ← (c.slaves who).handle c.master.state msg
      pure ({ c with toSlave := Function.update c.toSlave who rest }.setSlave who p)
  | .toMaster who =>
    match c.toMaster who with
    | [] => pure c
    | msg :: rest => do
      let p ← c.master.handle who msg
      pure ({ c with toMaster := Function.update c.toMaster who rest }.setMaster p)
  | .masterFails => pure
    { master := .new .down c.master.journal
      slaves := fun who => if (c.slaves who).state = .down then c.slaves who else (c.slaves who).handleMdsFailure
      toSlave := fun _ => []
      toMaster := fun _ => [] }
  | .masterReplayed => pure { c with master := c.master.replayed }
  | .masterActive => do
    let p ← c.master.activate
    pure (c.setMaster p)
  | .slaveFails who => pure
    { master := if c.master.state = .down then c.master else c.master.handleMdsFailure who
      slaves := Function.update c.slaves who (.new .down (c.slaves who).journal)
      toSlave := Function.update c.toSlave who []
      toMaster := Function.update c.toMaster who [] }
  | .slaveReplayed who => pure { c with slaves := Function.update c.slaves who (c.slaves who).replayed }
  | .slaveActive who => do
    let p ← (c.slaves who).activate c.master.state
    pure (c.setSlave who p)
  | .resolving => pure
    { c with
      slaves := fun who => ((c.slaves who).sendResolves c.master.state).1
      toMaster := fun who => c.toMaster who ++ ((c.slaves who).sendResolves c.master.state).2 }

/-- When an event can come. A request has a number of its own, and is journaled when all that were asked
have prepared it. A slave that was taken over goes on after its resolves have been answered, its rollbacks
are in the journal (`maybe_resolve_finish`) and the master has what it waits for. That what the slaves were
writing is in their journals when the master is taken over is not ensured by the code. -/
def Enabled : Event n → Prop
  | .start reqid => c.master.state = .active ∧ reqid ∉ c.master.activeRequests ∧
      ∀ e ∈ c.master.journal ++ c.master.writing, e.reqid ≠ reqid
  | .prepare reqid who => c.master.state = .active ∧ (c.slaves who).state = .active ∧
      ∃ mdr ∈ c.master.activeRequests[reqid]?, mdr.committing = false ∧ who ∉ mdr.witnessed ∧ who ∉ mdr.waitingOnSlave
  | .update reqid => c.master.state = .active ∧
      ∃ mdr ∈ c.master.activeRequests[reqid]?, mdr.committing = false ∧ mdr.witnessed ≠ ∅ ∧ mdr.waitingOnSlave = ∅
  | .masterFails => c.master.state ≠ .down
  | .masterReplayed => c.master.state = .down ∧
      ∀ who, (c.slaves who).writing = [] ∧ (c.slaves who).needResolveRollback = ∅
  | .masterActive => c.master.state = .rejoin
  | .slaveReplayed who => (c.slaves who).state = .down
  | .slaveActive who => (c.slaves who).state = .resolve ∧ (c.slaves who).resolveAckGather = false ∧
      (c.slaves who).needResolveRollback = ∅ ∧ who ∉ c.master.resolveGather ∧
      (c.master.state = .rejoin ∨ c.master.state = .active)
  | .resolving => c.master.state ≠ .down ∧ ∀ who, (c.slaves who).state ≠ .down
  | _ => True

instance : ∀ e : Event n, Decidable (c.Enabled e)
  | .start _ => inferInstanceAs (Decidable (_ ∧ _ ∧ _))
  | .prepare _ _ => inferInstanceAs (Decidable (_ ∧ _ ∧ ∃ _ ∈ _, _))
  | .update _ => inferInstanceAs (Decidable (_ ∧ ∃ _ ∈ _, _))
  | .masterFails => inferInstanceAs (Decidable (_ ≠ _))
  | .masterReplayed => inferInstanceAs (Decidable (_ ∧ ∀ _, _))
  | .masterActive => inferInstanceAs (Decidable (_ = _))
  | .slaveReplayed _ => inferInstanceAs (Decidable (_ = _))
  | .slaveActive _ => inferInstanceAs (Decidable (_ ∧ _ ∧ _ ∧ _ ∧ _))
  | .resolving => inferInstanceAs (Decidable (_ ∧ ∀ _, _))
  | .masterLogged | .slaveLogged _ | .toSlave _ | .toMaster _ | .slaveFails _ => .isTrue trivial

end System

end CephMds.TwoPhase
