import CephMds.Framework.Run
import Mathlib

/-!
# The requests of a client and their duplicates

`handle_client_request`, `request_start`, `journal_and_reply`, `early_reply`
and `reply_client_request`, for the requests of one session, with its client.
The client numbers its requests upwards, may send one again that it has no
reply for, and names an oldest tid that is not above any it waits for. What a
handler does before it journals, replies, or is called again does not matter
here, and neither do caps, locks and the other requests in the cache; a
request that is in the table as the slave of another MDS keeps its message
back, as a cache that is not open does. A message that `_dispatch` receives
while the beacon is laggy is deferred, and `_advance_queues` runs the contexts
of the finished queue until it is empty and then handles the deferred
messages, with no completion of the journal in between.
-/

namespace CephMds.Requests

inductive Op
  | lookup
  | getattr
  | open (mayWrite : Bool)
  | create
  | other (mayWrite : Bool)
  deriving DecidableEq

namespace Op

def mayWrite : Op → Bool
  | lookup | getattr => false
  | .open mayWrite | other mayWrite => mayWrite
  | create => true

def isOpenOrCreate : Op → Bool
  | .open _ | create => true
  | lookup | getattr | other _ => false

/-- A mutating request other than OPEN and CREATE. -/
def mutates (op : Op) : Bool := op.mayWrite && !op.isOpenOrCreate

end Op

/-- What the client asks for under a tid. -/
structure Request where
  op : Op
  dentryWanted : Bool
  deriving DecidableEq

structure MClientRequest where
  tid : ℕ
  op : Op
  dentryWanted : Bool
  retryAttempt : ℕ
  isReplay : Bool
  oldestClientTid : ℕ
  deriving DecidableEq

structure MClientReply where
  tid : ℕ
  result : ℤ
  unsafeReply : Bool
  /-- The created inode, in the extra bytes. -/
  extra : Option ℕ
  /-- Answered from the list of completed requests. -/
  fromCompleted : Bool
  deriving DecidableEq

/-- An entry of `active_requests`: of the client, or as a slave. -/
inductive Mdr
  | client (req : MClientRequest) (hasCompleted committing : Bool) (created : ℕ)
  | slave (waitingForFinish : List MClientRequest)
  deriving DecidableEq

/-- That a request took effect, with the inode it created. -/
structure Execution where
  tid : ℕ
  created : ℕ
  journaled : Bool
  deriving DecidableEq

structure State where
  -- the client
  lastTid : ℕ
  waiting : Finset ℕ
  channel : List MClientRequest
  replies : List MClientReply
  -- the MDS
  mdsEarlyReply : Bool
  isOpen : Bool
  isClientreplay : Bool
  waitingForOpen : List MClientRequest
  activeRequests : ℕ → Option Mdr
  completedRequests : ℕ → Option ℕ
  /-- The messages that `C_MDS_RetryMessage` is to dispatch again. -/
  finishedQueue : List MClientRequest
  /-- What has been received while the beacon is laggy. -/
  waitingForNolaggy : List MClientRequest
  /-- In `_dispatch` or in the progress thread, until the finished queue is empty. -/
  advancing : Bool
  /-- In the second loop of `_advance_queues`. -/
  draining : Bool
  -- what has happened
  executed : List Execution
  applied : List ℕ
  replied : List MClientReply

inductive Action
  | send (oldestClientTid : ℕ)
  | resend (tid retryAttempt oldestClientTid : ℕ) (isReplay : Bool)
  | receive
  /-- `_dispatch` of the next message, which is handled. -/
  | arrive
  /-- `_dispatch` of the next message, which is deferred as the beacon is laggy. -/
  | defer
  | advance
  | retry
  /-- The finished queue is empty. -/
  | drained
  /-- The first of the deferred messages is handled. -/
  | undefer
  | done
  | openRoot
  | clientreplay (is : Bool)
  | slaveStart (tid : ℕ)
  | slaveFinish (tid : ℕ)
  /-- `journal_and_reply`. -/
  | journal (tid allocIno usedPreallocIno : ℕ) (hasJournaledSlaves : Bool)
  /-- The entry is safe: the changes are applied, and the reply is sent. -/
  | logged (tid : ℕ)
  /-- `respond_to_request` with nothing journaled. -/
  | respond (tid : ℕ) (r : ℤ)

namespace State

/-- Before the first request. -/
def initial (mdsEarlyReply isOpen isClientreplay : Bool) : State where
  lastTid := 0
  waiting := ∅
  channel := []
  replies := []
  mdsEarlyReply := mdsEarlyReply
  isOpen := isOpen
  isClientreplay := isClientreplay
  waitingForOpen := []
  activeRequests _ := none
  completedRequests _ := none
  finishedQueue := []
  waitingForNolaggy := []
  advancing := false
  draining := false
  executed := []
  applied := []
  replied := []

def sendMessage (s : State) (r : MClientReply) : State :=
  { s with replies := s.replies ++ [r], replied := s.replied ++ [r] }

def haveCompletedRequest (s : State) (tid : ℕ) : Option ℕ := s.completedRequests tid

def addCompletedRequest (s : State) (tid created : ℕ) : State :=
  { s with completedRequests := Function.update s.completedRequests tid (some created) }

def trimCompletedRequests (s : State) (oldest : ℕ) : State :=
  { s with completedRequests := fun tid => if tid < oldest then none else s.completedRequests tid }

def setRequest (s : State) (tid : ℕ) (mdr : Option Mdr) : State :=
  { s with activeRequests := Function.update s.activeRequests tid mdr }

def requestStart (s : State) (req : MClientRequest) (hasCompleted : Bool) : State :=
  match s.activeRequests req.tid with
  | some (.slave waitingForFinish) => s.setRequest req.tid (some (.slave (waitingForFinish ++ [req])))
  | some (.client ..) => s
  | none => s.setRequest req.tid (some (.client req hasCompleted false 0))

/-- The completed requests are trimmed, and the request is registered. -/
def register (s : State) (req : MClientRequest) (hasCompleted : Bool) : State :=
  let s := if req.oldestClientTid > 0 then s.trimCompletedRequests req.oldestClientTid else s
  s.requestStart req hasCompleted

/-- A completed request that is to be looked up. -/
def toLookup (req : MClientRequest) : MClientRequest :=
  if req.op.isOpenOrCreate then req else { req with op := if req.dentryWanted then .lookup else .getattr }

def extraBl (created : ℕ) : Option ℕ := if created ≠ 0 then some created else none

def handleClientRequest (s : State) (req : MClientRequest) : State :=
  if s.isOpen then
    if req.isReplay || req.retryAttempt ≠ 0 then
      match s.haveCompletedRequest req.tid with
      | some created =>
        if req.isReplay || ((created = 0 || !s.isClientreplay) && !req.op.isOpenOrCreate) then
          s.sendMessage ⟨req.tid, 0, false, extraBl created, true⟩
        else s.register (toLookup req) true
      | none => s.register req false
    else s.register req false
  else { s with waitingForOpen := s.waitingForOpen ++ [req] }

/-- `reply_client_request`, with the inode that has been allocated. -/
def replyClientRequest (s : State) (req : MClientRequest) (r : ℤ) (created : ℕ) : State :=
  let s := if req.op.mayWrite && r == 0 then s.addCompletedRequest req.tid created else s
  (s.sendMessage ⟨req.tid, r, false, none, false⟩).setRequest req.tid none

def journalAndReply (s : State) (req : MClientRequest) (hasCompleted : Bool) (allocIno usedPreallocIno : ℕ)
    (hasJournaledSlaves : Bool) : State :=
  let created := if allocIno ≠ 0 then allocIno else usedPreallocIno
  let s := if s.mdsEarlyReply && !hasJournaledSlaves && allocIno == 0 && !req.isReplay then
    s.sendMessage ⟨req.tid, 0, true, none, false⟩ else s
  { s.setRequest req.tid (some (.client req hasCompleted true created)) with
    executed := s.executed ++ [⟨req.tid, created, true⟩] }

/-- The client may put this into a message as the oldest tid. -/
def oldestFor (s : State) (oldest : ℕ) : Prop := ∀ tid ∈ s.waiting, oldest ≤ tid

instance decidableOldestFor (s : State) (oldest : ℕ) : Decidable (s.oldestFor oldest) :=
  inferInstanceAs (Decidable (∀ _ ∈ _, _))

def message (requests : ℕ → Request) (tid retryAttempt : ℕ) (isReplay : Bool) (oldest : ℕ) : MClientRequest :=
  ⟨tid, (requests tid).op, (requests tid).dentryWanted, retryAttempt, isReplay, oldest⟩

/-- In `_dispatch` or in the progress thread, which hold the lock. -/
def busy (s : State) : Bool := s.advancing || s.draining

def step (requests : ℕ → Request) (s : State) : Action → Option State
  | .send oldest =>
    if s.oldestFor oldest ∧ oldest ≤ s.lastTid + 1 then
      some { s with lastTid := s.lastTid + 1
                    waiting := insert (s.lastTid + 1) s.waiting
                    channel := s.channel ++ [message requests (s.lastTid + 1) 0 false oldest] }
    else none
  | .resend tid retryAttempt oldest isReplay =>
    if tid ∈ s.waiting ∧ retryAttempt ≠ 0 ∧ s.oldestFor oldest then
      some { s with channel := s.channel ++ [message requests tid retryAttempt isReplay oldest] }
    else none
  | .receive =>
    match s.replies with
    | r :: rest => some { s with replies := rest, waiting := s.waiting.erase r.tid }
    | [] => none
  | .arrive =>
    match s.channel with
    | req :: rest =>
      if s.busy then none
      else some (({ s with channel := rest, advancing := true } : State).handleClientRequest req)
    | [] => none
  | .defer =>
    match s.channel with
    | req :: rest =>
      if s.busy then none
      else some { s with channel := rest, waitingForNolaggy := s.waitingForNolaggy ++ [req], advancing := true }
    | [] => none
  | .advance => if s.busy then none else some { s with advancing := true }
  | .retry =>
    match s.finishedQueue with
    | req :: rest =>
      if s.advancing then some (({ s with finishedQueue := rest } : State).handleClientRequest req) else none
    | [] => none
  | .drained =>
    if s.advancing && s.finishedQueue.isEmpty then some { s with advancing := false, draining := true } else none
  | .undefer =>
    match s.waitingForNolaggy with
    | req :: rest =>
      if s.draining then some (({ s with waitingForNolaggy := rest } : State).handleClientRequest req) else none
    | [] => none
  | .done => if s.draining then some { s with draining := false } else none
  | .openRoot =>
    if s.isOpen then none
    else some { s with isOpen := true, finishedQueue := s.finishedQueue ++ s.waitingForOpen, waitingForOpen := [] }
  | .clientreplay is => some { s with isClientreplay := is }
  | .slaveStart tid =>
    match s.activeRequests tid with
    | none => some (s.setRequest tid (some (.slave [])))
    | some _ => none
  | .slaveFinish tid =>
    match s.activeRequests tid with
    | some (.slave waitingForFinish) =>
      some { s.setRequest tid none with finishedQueue := s.finishedQueue ++ waitingForFinish }
    | _ => none
  | .journal tid allocIno usedPreallocIno hasJournaledSlaves =>
    match s.activeRequests tid with
    | some (.client req hasCompleted false _) =>
      if req.op.mayWrite then
        some (s.journalAndReply req hasCompleted allocIno usedPreallocIno hasJournaledSlaves)
      else none
    | _ => none
  | .logged tid =>
    match s.activeRequests tid with
    | some (.client req _ true created) =>
      if s.busy then none
      else some (({ s with applied := s.applied ++ [tid] } : State).replyClientRequest req 0 created)
    | _ => none
  | .respond tid r =>
    match s.activeRequests tid with
    | some (.client req _ false created) =>
      let s := s.replyClientRequest req r created
      if req.op.mayWrite && r == 0 then some { s with executed := s.executed ++ [⟨tid, created, false⟩] } else some s
    | _ => none

end State

end CephMds.Requests
