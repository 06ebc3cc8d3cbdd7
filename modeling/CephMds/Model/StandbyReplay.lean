import CephMds.Framework.Run
import Mathlib

/-!
# Replay of a journal that another instance writes

`replay_start`, `boot_start`, `replay_done` and `standby_replay_restart` of
`MDS.cc`, with the switch from standby replay to replay of `handle_mds_map`.
The journal is the list of the entries that the old instance has appended, and
a position the number of entries before it. The old instance appends until the
OSDs have the map that blacklists it; the map of the objecter may be older than
theirs. The `Journaler` learns the end of the journal when it is opened, and
when `reread_head_and_probe` looks for it; that is a moment between the call
and its completion. `MDLog::replay` reads from the read position to the write
position.
-/

namespace CephMds.StandbyReplay

/-- The state of this MDS in the map. -/
inductive MapState
  | standby
  | standbyReplay
  | oneshotReplay
  | replay
  deriving DecidableEq

/-- The state that is requested at the end. -/
inductive WantState
  | resolve
  | reconnect
  deriving DecidableEq

inductive BootStep
  | initial
  | prepareLog
  deriving DecidableEq

/-- What the MDS waits for. -/
inductive Phase
  /-- Nothing has been started. -/
  | idle
  /-- `C_MDS_BootStart` waits for this epoch of the OSD map. -/
  | waitForMap (epoch : ℕ) (step : BootStep)
  /-- `MDS_BOOT_INITIAL`; the head of the journal has been read and its end found, or not yet. -/
  | opening (found : Bool)
  /-- `MDS_BOOT_OPEN_ROOT`. -/
  | openRoot
  /-- `MDS_BOOT_PREPARE_LOG`. -/
  | replaying
  /-- `C_MDS_StandbyReplayRestart` is in the timer. -/
  | timer
  /-- `reread_head_and_probe`, for `C_MDS_StandbyReplayRestartFinish`. -/
  | rereading (oldReadPos : ℕ) (found : Bool)
  /-- `MDLog::reopen`. -/
  | reopening
  /-- The journal is writeable. -/
  | writeable (want : WantState)
  /-- After `respawn`, `suicide` or a failed assertion. -/
  | gone
  deriving DecidableEq

structure Mds (ε : Type) where
  state : MapState
  lastFailureOsdEpoch : ℕ
  /-- No other MDS is in the map, or has failed. -/
  alone : Bool
  standbyReplaying : Bool
  phase : Phase
  -- the `Journaler`
  readPos : ℕ
  writePos : ℕ
  trimmedPos : ℕ
  oldStreamFormat : Bool
  -- the journal
  appended : List ε
  trimmed : ℕ
  /-- The OSDs have this map. -/
  osdEpoch : ℕ
  objecterEpoch : ℕ
  /-- The map that blacklists the old instance, once the MDS map says that it has failed. -/
  blacklistedAt : Option ℕ
  /-- Where the journal has been opened: what is before that has expired. -/
  openedAt : ℕ
  replayed : List ε
  deriving DecidableEq

inductive Action (ε : Type)
  /-- The old instance appends an entry, or trims. -/
  | append (e : ε)
  | trim (pos : ℕ)
  /-- A new OSD map, and its arrival here. -/
  | osdMap (epoch : ℕ)
  | objecterMap (epoch : ℕ)
  | mdsMap (state : MapState) (lastFailureOsdEpoch : ℕ) (alone : Bool)
  /-- The context that waits for an OSD map. -/
  | mapContext
  /-- The head is read, and the end of the journal found. -/
  | find
  /-- The gather of a boot step, `C_MDS_StandbyReplayRestartFinish`, or the end of `MDLog::reopen`. -/
  | finish
  /-- Any of them with an error. -/
  | error
  | replayEntry
  | replayDone
  | timer

variable {ε : Type}

namespace Mds

/-- A standby, with the journal and the OSD map of that time. -/
def initial (journal : List ε) (trimmed epoch : ℕ) (oldStreamFormat : Bool) : Mds ε where
  state := .standby
  lastFailureOsdEpoch := 0
  alone := false
  standbyReplaying := false
  phase := .idle
  readPos := 0
  writePos := 0
  trimmedPos := 0
  oldStreamFormat := oldStreamFormat
  appended := journal
  trimmed := min trimmed journal.length
  osdEpoch := epoch
  objecterEpoch := 0
  blacklistedAt := none
  openedAt := 0
  replayed := []

/-- The old instance can write. -/
def writing (s : Mds ε) : Bool :=
  match s.blacklistedAt with
  | none => true
  | some epoch => s.osdEpoch < epoch

def rereadHeadAndProbe (s : Mds ε) : Mds ε := { s with phase := .rereading s.readPos false }

/-- `Objecter::wait_for_map`, with what is done when the map is there. -/
def waitForMap (s : Mds ε) (step : BootStep) (ready : Mds ε → Mds ε) : Mds ε :=
  if s.lastFailureOsdEpoch ≤ s.objecterEpoch then ready s
  else { s with phase := .waitForMap s.lastFailureOsdEpoch step }

def bootStart (s : Mds ε) : BootStep → Mds ε
  | .initial => { s with phase := .opening false }
  | .prepareLog => { s with phase := .replaying }

def replayStart (s : Mds ε) : Mds ε :=
  let s := if s.state = .standbyReplay then { s with standbyReplaying := true } else s
  s.waitForMap .initial (·.bootStart .initial)

def standbyReplayRestart (s : Mds ε) : Mds ε :=
  if s.standbyReplaying then s.rereadHeadAndProbe
  else s.waitForMap .prepareLog rereadHeadAndProbe

def standbyReplayRestartFinish (s : Mds ε) (oldReadPos : ℕ) : Mds ε :=
  if oldReadPos < s.trimmedPos then { s with phase := .gone }
  else s.bootStart .prepareLog

def replayDone (s : Mds ε) : Mds ε :=
  if s.state = .oneshotReplay then { s with phase := .gone }
  else if s.state = .standbyReplay then
    if s.standbyReplaying then { s with phase := .timer } else { s with phase := .gone }
  else if s.standbyReplaying then
    ({ s with standbyReplaying := false } : Mds ε).standbyReplayRestart
  else if s.readPos ≠ s.writePos then { s with phase := .gone }
  else if s.oldStreamFormat then { s with phase := .reopening }
  else { s with phase := .writeable (if s.alone then .reconnect else .resolve) }

/-- `handle_mds_map`, as far as the state of this MDS changes into a kind of replay. -/
def handleMdsMap (s : Mds ε) (state : MapState) (epoch : ℕ) (alone : Bool) : Mds ε :=
  let t := { s with state := state, lastFailureOsdEpoch := epoch, alone := alone }
  if s.state = state then t
  else
    let t := if state = .replay then { t with blacklistedAt := some epoch } else t
    if s.state = .standbyReplay then if state = .replay then t else { t with phase := .gone }
    else t.replayStart

/-- The journal as it is now, from its head. -/
def openLog (s : Mds ε) : Mds ε :=
  { s with readPos := s.trimmed, writePos := s.appended.length, trimmedPos := s.trimmed, openedAt := s.trimmed }

/-- The end of the journal as it is now. The read position stays. -/
def probe (s : Mds ε) : Mds ε := { s with writePos := s.appended.length, trimmedPos := s.trimmed }

/-- Whether the map may say this next: it names no earlier failure than the
map before, and this MDS goes from standby into a replay, or from standby
replay into replay. -/
def mapFollows (s : Mds ε) (state : MapState) (epoch : ℕ) : Bool :=
  s.lastFailureOsdEpoch ≤ epoch &&
    (s.state == state || s.state == .standby || (s.state == .standbyReplay && state == .replay))

def step (s : Mds ε) : Action ε → Option (Mds ε)
  | .append e => if s.writing then some { s with appended := s.appended ++ [e] } else none
  | .trim pos =>
    if s.writing && s.trimmed ≤ pos && pos ≤ s.appended.length then some { s with trimmed := pos } else none
  | .osdMap epoch => if s.osdEpoch ≤ epoch then some { s with osdEpoch := epoch } else none
  | .objecterMap epoch =>
    if s.objecterEpoch ≤ epoch && epoch ≤ s.osdEpoch then some { s with objecterEpoch := epoch } else none
  | .mdsMap state epoch alone => if s.mapFollows state epoch then some (s.handleMdsMap state epoch alone) else none
  | .mapContext =>
    match s.phase with
    | .waitForMap epoch step => if epoch ≤ s.objecterEpoch then some (s.bootStart step) else none
    | _ => none
  | .find =>
    match s.phase with
    | .opening false => some { s.openLog with phase := .opening true }
    | .rereading oldReadPos false => some { s.probe with phase := .rereading oldReadPos true }
    | _ => none
  | .finish =>
    match s.phase with
    | .opening true => some { s with phase := .openRoot }
    | .openRoot => some (s.bootStart .prepareLog)
    | .rereading oldReadPos true => some (s.standbyReplayRestartFinish oldReadPos)
    | .reopening =>
      -- the journal is rewritten, and is appended to from its end
      some { s with oldStreamFormat := false, readPos := s.appended.length, writePos := s.appended.length }.replayDone
    | _ => none
  | .error =>
    match s.phase with
    | .opening _ | .openRoot | .replaying | .rereading _ _ | .reopening => some { s with phase := .gone }
    | _ => none
  | .replayEntry =>
    match s.phase, s.appended[s.readPos]? with
    | .replaying, some e =>
      if s.readPos < s.writePos then some { s with readPos := s.readPos + 1, replayed := s.replayed ++ [e] } else none
    | _, _ => none
  | .replayDone => if s.phase = .replaying && s.readPos == s.writePos then some s.replayDone else none
  | .timer => if s.phase = .timer then some s.standbyReplayRestart else none

end Mds

end CephMds.StandbyReplay
