import CephMds.Framework.Check
import CephMds.Framework.Places
import CephMds.Framework.Run
import Mathlib

/-!
# Client sessions and their inode numbers

`Server::handle_client_session`, `_session_logged`,
`prepare_force_open_sessions`, `finish_force_open_sessions`,
`terminate_sessions`, `find_idle_sessions`, `kill_session` and
`journal_close_session`, with the inode numbers that go through a session:
`prepare_new_inode`, `journal_allocated_inos` and `apply_allocated_inos`.

A `Session` is an object, known by its index: the session map names at most
one for each client, and a connection may hold on to another (the one
`ms_verify_authorizer` makes before the client has opened a session). The
journal is the list of the entries that have been submitted and are not safe
yet, and its head is the next to complete. A request prepares its inode and
submits its entry in one go, so that a request that `request_kill` finds is
either committing, which makes the kill a no-op, or holds no number. The
session map, the inode table and the journal are not in the repository: the
map is a partial function of the client, the table two free sets with their
versions, the projected and the applied one.
-/

namespace CephMds.Sessions

open Checked

/-! ## Sets of inode numbers -/

/-- `interval_set::insert` of a whole set: it must be disjoint. -/
def insertAll (a b : Finset ℕ) : Checked (Finset ℕ) := do
  assert (Disjoint a b)
  return a ∪ b

/-- `interval_set::subtract`: what is taken must be there. -/
def subtract (a b : Finset ℕ) : Checked (Finset ℕ) := do
  assert (b ⊆ a)
  return a \ b

/-- A free set of the inode table, and its version. -/
structure Free where
  ids : Finset ℕ
  version : ℕ
  deriving DecidableEq

def Free.alloc (f : Free) (ids : Finset ℕ) : Checked Free := do
  let rest ← subtract f.ids ids
  return ⟨rest, f.version + 1⟩

def Free.release (f : Free) (ids : Finset ℕ) : Checked Free := do
  let all ← insertAll f.ids ids
  return ⟨all, f.version + 1⟩

/-- The inode table: what is free by the entries that are safe, and by all that have been submitted. -/
structure InoTable where
  applied : Free
  projected : Free
  deriving DecidableEq

namespace InoTable

def projectAllocIds (t : InoTable) (ids : Finset ℕ) : Checked InoTable := do
  let p ← t.projected.alloc ids
  return { t with projected := p }

def projectReleaseIds (t : InoTable) (ids : Finset ℕ) : Checked InoTable := do
  let p ← t.projected.release ids
  return { t with projected := p }

def applyAllocIds (t : InoTable) (ids : Finset ℕ) : Checked InoTable := do
  let a ← t.applied.alloc ids
  return { t with applied := a }

def applyReleaseIds (t : InoTable) (ids : Finset ℕ) : Checked InoTable := do
  let a ← t.applied.release ids
  return { t with applied := a }

end InoTable

/-! ## The sessions and the journal -/

inductive SessionState
  | closed
  | opening
  | opened
  | closing
  | stale
  | killing
  deriving DecidableEq, Repr

structure Session where
  client : ℕ
  /-- `connection != NULL` -/
  connected : Bool := false
  state : SessionState := .closed
  stateSeq : ℕ := 0
  pushSeq : ℕ := 0
  /-- The imports that have announced the session and are not through with it. -/
  importing : ℕ := 0
  prealloc : Finset ℕ := ∅
  pending : Finset ℕ := ∅
  used : Finset ℕ := ∅
  deriving DecidableEq

namespace Session

/-- `SessionMap::set_state`. -/
def setState (s : Session) (st : SessionState) : Session := { s with state := st, stateSeq := s.stateSeq + 1 }

/-- `Session::clear`. -/
def clear (s : Session) : Session := { s with prealloc := ∅, pending := ∅, used := ∅ }

/-- `is_closed() || is_closing() || is_killing()`. -/
def shut (s : Session) : Bool := s.state = .closed ∨ s.state = .closing ∨ s.state = .killing

/-- `Session::take_ino`: a number that was preallocated is used. -/
def takeIno (s : Session) (ino : ℕ) : Checked Session := do
  let prealloc ← subtract s.prealloc {ino}
  let used ← insertAll s.used {ino}
  return { s with prealloc, used }

/-- `dec_importing`. -/
def decImporting (s : Session) : Checked Session := do
  assert (s.importing ≠ 0)
  return { s with importing := s.importing - 1 }

/-- What becomes of a session when the import that announced it is safe, by its number in `sseqmap`. -/
def finishOpen (s : Session) : Option ℕ → Checked Session
  | some sseq => return if s.stateSeq ≠ sseq then s else s.setState .opened
  | none => do
    assert (s.state = .opened ∨ s.state = .stale)
    return s

def finishImport (s : Session) (decImport : Bool) : Checked Session :=
  if decImport then s.decImporting else return s

end Session

/-- An entry of the journal, with what its completion needs. -/
inductive Entry
  /-- An `ESession` and its `C_MDS_session_finish`. -/
  | session (i sseq : ℕ) (isOpen : Bool) (pv : ℕ) (inos : Finset ℕ) (piv : ℕ)
  /-- The update that creates an inode, and the numbers of its request. -/
  | update (i : ℕ) (allocIno usedPreallocIno : Option ℕ) (preallocInos : Finset ℕ) (sessionmapv inotablev : ℕ)
  /-- An entry that imports the caps of clients, and what `prepare_force_open_sessions` left for its completion. -/
  | imports (clients : List ℕ) (sseqmap : ℕ → Option ℕ) (decImport : Bool) (pv : ℕ)

structure State where
  sessions : ℕ → Session
  /-- The objects from this index on have not been made yet. -/
  made : ℕ := 0
  sessionmap : ℕ → Option ℕ
  projected : ℕ
  version : ℕ
  table : InoTable
  /-- The numbers that have been given to inodes. -/
  given : Finset ℕ := ∅
  journal : List Entry := []
  /-- The clients of the imports that are safe in the journal but not finished (`dec_import` was false). -/
  holding : List (List ℕ) := []

namespace State

def put (x : State) (i : ℕ) (s : Session) : State := { x with sessions := Function.update x.sessions i s }

def setMap (x : State) (c : ℕ) (o : Option ℕ) : State := { x with sessionmap := Function.update x.sessionmap c o }

def submit (x : State) (e : Entry) : State := { x with journal := x.journal ++ [e] }

/-- `new Session`. -/
def newSession (x : State) (c : ℕ) (connected : Bool) : State :=
  { x.put x.made { client := c, connected } with made := x.made + 1 }

/-- `SessionMap::add_session`: a client has one session in the map. -/
def addSession (x : State) (i : ℕ) : Checked State := do
  assert (x.sessionmap (x.sessions i).client).isNone
  return x.setMap (x.sessions i).client (some i)

/-- `SessionMap::get_or_add_session`. -/
def getOrAddSession (x : State) (c : ℕ) : State :=
  match x.sessionmap c with
  | some _ => x
  | none => (x.newSession c false).setMap c (some x.made)

/-! ## Closing a session -/

/-- The release of the numbers of a session that closes, and the version of the table (`piv`). -/
def projectRelease (x : State) (both : Finset ℕ) : Checked (InoTable × ℕ) :=
  if both.card ≠ 0 then do
    let table ← x.table.projectReleaseIds both
    return (table, table.projected.version)
  else return (x.table, 0)

def journalCloseSession (x : State) (i : ℕ) (st : SessionState) : Checked State := do
  let s := (x.sessions i).setState st
  let pv := x.projected + 1
  let both ← insertAll s.prealloc s.pending
  let (table, piv) ← x.projectRelease both
  return { x.put i { s with prealloc := ∅, pending := ∅ } with projected := pv, table }.submit
    (.session i s.stateSeq false pv both piv)

def killSession (x : State) (i : ℕ) : Checked State := do
  let s := x.sessions i
  if (s.state = .opening ∨ s.state = .opened ∨ s.state = .stale) ∧ s.importing = 0 then
    x.journalCloseSession i .killing
  else
    assert (s.state = .closing ∨ s.state = .closed ∨ s.state = .killing ∨ s.importing ≠ 0)
    return x

/-- One turn of the loop of `terminate_sessions`. -/
def terminateSession (x : State) (i : ℕ) : Checked State :=
  if (x.sessions i).shut then return x else x.journalCloseSession i .closing

def terminateSessions (x : State) (sessions : List ℕ) : Checked State := sessions.foldlM terminateSession x

/-! ## The requests of a client -/

/-- A session that is closed goes into the map. -/
def addClosed (x : State) (i : ℕ) : Checked State :=
  if (x.sessions i).state = .closed then x.addSession i else return x

/-- `CEPH_SESSION_REQUEST_OPEN`. -/
def requestOpen (x : State) (i : ℕ) : Checked State := do
  let s := x.sessions i
  if s.state = .opening ∨ s.state = .opened ∨ s.state = .stale ∨ s.state = .killing then return x
  assert (s.state = .closed ∨ s.state = .closing)
  let x ← x.addClosed i
  let pv := x.projected + 1
  return { x.put i (s.setState .opening) with projected := pv }.submit
    (.session i (s.stateSeq + 1) true pv ∅ 0)

/-- `CEPH_SESSION_REQUEST_RENEWCAPS`. -/
def renewCaps (x : State) (i : ℕ) : State :=
  if (x.sessions i).state = .stale then x.put i ((x.sessions i).setState .opened) else x

/-- `CEPH_SESSION_REQUEST_CLOSE`. -/
def requestClose (x : State) (i seq : ℕ) : Checked State := do
  let s := x.sessions i
  if s.shut then return x
  if s.importing ≠ 0 then return x
  assert (s.state = .opened ∨ s.state = .stale ∨ s.state = .opening)
  if seq < s.pushSeq then return x
  assert (seq = s.pushSeq)
  x.journalCloseSession i .closing

/-! ## Imports -/

/-- One turn of the loop of `prepare_force_open_sessions`. -/
def forceOpenSession (p : State × (ℕ → Option ℕ)) (c : ℕ) : Checked (State × (ℕ → Option ℕ)) := do
  let x := p.1.getOrAddSession c
  let i ← deref (x.sessionmap c)
  let s := x.sessions i
  if s.shut then
    return (x.put i { s.setState .opening with importing := s.importing + 1 },
      Function.update p.2 c (some (s.stateSeq + 1)))
  else
    assert (s.state = .opened ∨ s.state = .opening ∨ s.state = .stale)
    return (x.put i { s with importing := s.importing + 1 }, p.2)

/-- `prepare_force_open_sessions`, and the submission of the entry of the import. -/
def prepareForceOpenSessions (x : State) (clients : List ℕ) (decImport : Bool) : Checked State := do
  let pv := x.projected + 1
  let (x, sseqmap) ← clients.foldlM forceOpenSession ({ x with projected := pv }, fun _ => none)
  return x.submit (.imports clients sseqmap decImport pv)

/-- The session of a client that has one (`assert(session)`). -/
def getSession (x : State) (c : ℕ) : Checked ℕ :=
  match x.sessionmap c with
  | some i => return i
  | none => .error .assert

/-- One turn of the loop of `finish_force_open_sessions`. -/
def finishForceOpen (sseqmap : ℕ → Option ℕ) (decImport : Bool) (x : State) (c : ℕ) : Checked State := do
  let i ← x.getSession c
  let s ← (x.sessions i).finishOpen (sseqmap c)
  let s ← s.finishImport decImport
  return x.put i s

def finishForceOpenSessions (x : State) (clients : List ℕ) (sseqmap : ℕ → Option ℕ) (decImport : Bool) :
    Checked State := do
  let x ← clients.foldlM (finishForceOpen sseqmap decImport) x
  return { x with version := x.version + 1, holding := if decImport then x.holding else clients :: x.holding }

/-- The importer is through with the session of `c`. -/
def endImport (x : State) (c : ℕ) : Checked State := do
  let i ← x.getSession c
  let s ← (x.sessions i).decImporting
  return x.put i s

/-! ## The numbers of a new inode -/

/-- The first half of `prepare_new_inode`: the number of the inode, as `alloc_ino` or `used_prealloc_ino`. -/
def assignIno (x : State) (i ino : ℕ) : Checked (State × Option ℕ × Option ℕ) :=
  let s := x.sessions i
  if s.prealloc.card ≠ 0 then do
    let s ← s.takeIno ino
    return ({ x.put i s with projected := x.projected + 1 }, none, some ino)
  else do
    let table ← x.table.projectAllocIds {ino}
    return ({ x with table, given := insert ino x.given }, some ino, none)

/-- How many numbers the session is to get: as many as `mds_client_prealloc_inos` (`conf`), if it has less than half. -/
def wanted (conf : ℕ) (x : State) (i : ℕ) : ℕ :=
  let got := conf - ((x.sessions i).prealloc.card + (x.sessions i).pending.card)
  if conf / 2 < got then got else 0

/-- The second half of `prepare_new_inode`: the numbers that the session gets. -/
def preallocate (conf : ℕ) (x : State) (i : ℕ) (ids : Finset ℕ) : Checked (State × Finset ℕ) :=
  let s := x.sessions i
  if x.wanted conf i ≠ 0 then do
    let table ← x.table.projectAllocIds ids
    assert (ids.card ≠ 0)
    let pending ← insertAll s.pending ids
    return ({ x.put i { s with pending } with projected := x.projected + 1, table }, ids)
  else return (x, ∅)

/-- `prepare_new_inode`, `journal_allocated_inos` and the submission of the entry. -/
def prepareNewInode (conf : ℕ) (x : State) (i ino : ℕ) (ids : Finset ℕ) : Checked State := do
  let (x, allocIno, usedPreallocIno) ← x.assignIno i ino
  let (x, preallocInos) ← x.preallocate conf i ids
  return x.submit (.update i allocIno usedPreallocIno preallocInos x.projected x.table.projected.version)

/-- What `apply_allocated_inos` does with `alloc_ino`. -/
def applyAllocIno (x : State) : Option ℕ → Checked State
  | some ino => do
    let table ← x.table.applyAllocIds {ino}
    return { x with table }
  | none => return x

/-- What `apply_allocated_inos` does with `prealloc_inos`. -/
def applyPrealloc (x : State) (i : ℕ) (ids : Finset ℕ) : Checked State :=
  let s := x.sessions i
  if ids.card ≠ 0 then do
    let pending ← subtract s.pending ids
    let prealloc ← insertAll s.prealloc ids
    let table ← x.table.applyAllocIds ids
    return { x.put i { s with pending, prealloc } with version := x.version + 1, table }
  else return x

/-- What `apply_allocated_inos` does with `used_prealloc_ino`. -/
def applyUsed (x : State) (i : ℕ) : Option ℕ → Checked State
  | some ino => do
    let s := x.sessions i
    let used ← subtract s.used {ino}
    return { x.put i { s with used } with version := x.version + 1, given := insert ino x.given }
  | none => return x

/-- `apply_allocated_inos`. -/
def applyAllocatedInos (x : State) (i : ℕ) (allocIno usedPreallocIno : Option ℕ) (preallocInos : Finset ℕ) :
    Checked State := do
  let x ← x.applyAllocIno allocIno
  let x ← x.applyPrealloc i preallocInos
  x.applyUsed i usedPreallocIno

/-! ## Completions -/

/-- The first part of `_session_logged`: the numbers are free. -/
def releaseInos (x : State) (inos : Finset ℕ) (piv : ℕ) : Checked State :=
  if piv ≠ 0 then do
    let table ← x.table.applyReleaseIds inos
    assert (table.applied.version = piv)
    return { x with table }
  else return x

/-- The second part of `_session_logged`: the session takes the state that was journaled. -/
def enterState (x : State) (i sseq : ℕ) (isOpen : Bool) : Checked State :=
  let s := x.sessions i
  if s.stateSeq ≠ sseq then return x
  else if isOpen then do
    assert (s.state = .opening)
    assert s.connected
    return x.put i (s.setState .opened)
  else if s.state = .closing then
    return (x.put i (s.setState .closed).clear).setMap s.client none
  else if s.state = .killing then return x.setMap s.client none
  else .error .assert

/-- What the completion of an entry does to the inode numbers. -/
def applyNumbers (x : State) : Entry → Checked State
  | .session _ _ _ _ inos piv => x.releaseInos inos piv
  | .update i allocIno usedPreallocIno preallocInos _ _ =>
    x.applyAllocatedInos i allocIno usedPreallocIno preallocInos
  | .imports .. => return x

/-- What it does to the states of the sessions, after that. -/
def applySessions (x : State) : Entry → Checked State
  | .session i sseq isOpen _ _ _ => do
    let x ← x.enterState i sseq isOpen
    return { x with version := x.version + 1 }
  | .update .. => return x
  | .imports clients sseqmap decImport _ => x.finishForceOpenSessions clients sseqmap decImport

/-- The first entry of the journal is safe, and its completion runs. -/
def logged (x : State) : Checked State :=
  match x.journal with
  | [] => return x
  | e :: journal => do
    let x ← { x with journal }.applyNumbers e
    x.applySessions e

/-! ## The system -/

end State

inductive Action
  /-- A client without a session in the map connects. -/
  | connect (c : ℕ)
  /-- A client connects to its session. -/
  | accept (i : ℕ)
  /-- A message that carries a push sequence is sent. -/
  | push (i : ℕ)
  | requestOpen (i : ℕ)
  | renewCaps (i : ℕ)
  | requestClose (i seq : ℕ)
  /-- `find_idle_sessions` finds the session laggy. -/
  | stale (i : ℕ)
  | kill (i : ℕ)
  | terminate (sessions : List ℕ)
  | forceOpen (clients : List ℕ) (decImport : Bool)
  | endImport (clients : List ℕ)
  | create (i ino : ℕ) (ids : Finset ℕ)
  | logged

namespace State

/-- The session is the one that the map has for its client. -/
def Mapped (x : State) (i : ℕ) : Prop := x.sessionmap (x.sessions i).client = some i

instance (x : State) (i : ℕ) : Decidable (x.Mapped i) := inferInstanceAs (Decidable (_ = _))

/-- The numbers that the table can take for `prepare_new_inode`. -/
def Picks (conf : ℕ) (x : State) (i ino : ℕ) (ids : Finset ℕ) : Prop :=
  (if (x.sessions i).prealloc.card ≠ 0 then ino ∈ (x.sessions i).prealloc else ino ∈ x.table.projected.ids) ∧
  ∀ y ∈ (x.assignIno i ino).toOption, y.1.wanted conf i ≠ 0 → ids ⊆ y.1.table.projected.ids ∧ ids.card ≠ 0

instance (conf : ℕ) (x : State) (i ino : ℕ) (ids : Finset ℕ) : Decidable (x.Picks conf i ino ids) :=
  inferInstanceAs (Decidable (_ ∧ _))

/-- When an action can happen. -/
def Enabled (conf : ℕ) (x : State) : Action → Prop
  | .connect c => x.sessionmap c = none
  | .accept i => x.Mapped i
  | .push i => i < x.made
  | .requestOpen i => i < x.made ∧ (x.sessions i).connected
  | .renewCaps i => i < x.made ∧ (x.sessions i).connected
  -- the client counts the messages that it gets
  | .requestClose i seq => i < x.made ∧ (x.sessions i).connected ∧ seq ≤ (x.sessions i).pushSeq
  | .stale i => x.Mapped i ∧ (x.sessions i).state = .opened
  | .kill i => x.Mapped i
  | .terminate sessions => sessions.Nodup ∧ (∀ i ∈ sessions, x.Mapped i) ∧ ∀ i < x.made, x.Mapped i → i ∈ sessions
  | .forceOpen clients _ => clients.Nodup
  | .endImport clients => clients ∈ x.holding
  | .create i ino ids => i < x.made ∧ (x.sessions i).shut = false ∧ x.Picks conf i ino ids
  | .logged => x.journal ≠ []

instance (conf : ℕ) (x : State) : DecidablePred (x.Enabled conf)
  | .connect _ => inferInstanceAs (Decidable (_ = _))
  | .accept _ => inferInstanceAs (Decidable (Mapped _ _))
  | .push _ => inferInstanceAs (Decidable (_ < _))
  | .requestOpen _ => inferInstanceAs (Decidable (_ ∧ _))
  | .renewCaps _ => inferInstanceAs (Decidable (_ ∧ _))
  | .requestClose .. => inferInstanceAs (Decidable (_ ∧ _ ∧ _))
  | .stale _ => inferInstanceAs (Decidable (_ ∧ _))
  | .kill _ => inferInstanceAs (Decidable (Mapped _ _))
  | .terminate _ => inferInstanceAs (Decidable (_ ∧ _ ∧ _))
  | .forceOpen .. => inferInstanceAs (Decidable (List.Nodup _))
  | .endImport _ => inferInstanceAs (Decidable (_ ∈ _))
  | .create .. => inferInstanceAs (Decidable (_ ∧ _ ∧ _))
  | .logged =>
    match h : x.journal with
    | [] => .isFalse fun hn => hn h
    | _ :: _ => .isTrue fun hn => by rw [h] at hn; cases hn

/-- What an action does. -/
def act (conf : ℕ) (x : State) : Action → Checked State
  | .connect c => return x.newSession c true
  | .accept i => return x.put i { x.sessions i with connected := true }
  | .push i => return x.put i { x.sessions i with pushSeq := (x.sessions i).pushSeq + 1 }
  | .requestOpen i => x.requestOpen i
  | .renewCaps i => return x.renewCaps i
  | .requestClose i seq => x.requestClose i seq
  | .stale i => return x.put i ((x.sessions i).setState .stale)
  | .kill i => x.killSession i
  | .terminate sessions => x.terminateSessions sessions
  | .forceOpen clients decImport => x.prepareForceOpenSessions clients decImport
  | .endImport clients => clients.foldlM endImport { x with holding := x.holding.erase clients }
  | .create i ino ids => x.prepareNewInode conf i ino ids
  | .logged => x.logged

def step (conf : ℕ) (x : State) (a : Action) : Option State :=
  if x.Enabled conf a then (x.act conf a).toOption else none

/-! ## Where a number can be -/

end State

inductive Place
  | free
  | prealloc (i : ℕ)
  | pending (i : ℕ)
  | used (i : ℕ)
  | given
  deriving DecidableEq

namespace State

/-- The numbers at a place. -/
def inos (x : State) : Place → Finset ℕ
  | .free => x.table.projected.ids
  | .prealloc i => (x.sessions i).prealloc
  | .pending i => (x.sessions i).pending
  | .used i => (x.sessions i).used
  | .given => x.given

/-- Nothing is in flight: each session of the map is open or stale, and all others are closed. -/
structure Idle (x : State) : Prop where
  journal : x.journal = []
  holding : x.holding = []
  version : x.version = x.projected
  table : x.table.applied = x.table.projected
  made : ∀ i, x.made ≤ i → x.sessions i = { client := (x.sessions i).client }
  client : ∀ c i, x.sessionmap c = some i → (x.sessions i).client = c ∧ i < x.made
  opened : ∀ i, x.Mapped i → (x.sessions i).state = .opened ∨ (x.sessions i).state = .stale
  closed : ∀ i, ¬ x.Mapped i → (x.sessions i).state = .closed
  importing : ∀ i, (x.sessions i).importing = 0
  pending : ∀ i, (x.sessions i).pending = ∅
  used : ∀ i, (x.sessions i).used = ∅
  apart : Apart x.inos

end State

end CephMds.Sessions
