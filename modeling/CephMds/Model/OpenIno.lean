import CephMds.Framework.Check
import CephMds.Model.DentryKey
import Mathlib

/-!
# Opening inodes by number

`MDCache::open_ino` and what follows: the peers that are asked, the backtrace,
the directories above and the opening of the parent. What the cache answers is
given with each event: the rank of an inode that is found, and what
`open_ino_traverse_dir` returns. `pending` is what the MDS waits for, `queue` has
the contexts of `finish_contexts` that have not run yet, those of the innermost
call first. The message of
`discover_path` for a dentry that is wanted locked is left out.
-/

namespace CephMds.OpenIno

open Checked Dentries

/-! ## Data -/

/-- `mds_rank_t`. -/
abbrev Rank := ℤ

/-- `MDS_RANK_NONE`. -/
def mdsRankNone : Rank := -1

/-- `inode_backpointer_t`. -/
structure Backpointer where
  dirino : ℕ
  dname : List Byte
  version : ℕ
  deriving DecidableEq

/-- `inode_backtrace_t`. -/
structure Backtrace where
  pool : ℤ
  ancestors : List Backpointer

/-- A context that is finished when the inode has been opened: one given to `open_ino`, or the
`C_MDC_OpenInoParentOpened` of another inode. -/
inductive Waiter
  | fin (n : ℕ)
  | parentOpened (ino : ℕ)
  deriving DecidableEq

/-- `open_ino_info_t`. -/
structure OpenInoInfo where
  ancestors : List Backpointer
  checked : Finset Rank
  checking : Rank
  authHint : Rank
  checkPeers : Bool
  fetchBacktrace : Bool
  discover : Bool
  wantReplica : Bool
  wantXlocked : Bool
  tid : ℕ
  pool : ℤ
  waiters : List Waiter

/-- What has been started and has not come back: a backtrace that is fetched, a waiter of
`open_ino_traverse_dir`, a message to a peer or its reply. -/
inductive Pending
  | fetch (ino : ℕ)
  | traverse (ino : ℕ)
  | reply (ino : ℕ) (peer : Rank)
  deriving DecidableEq

/-- What is read of the `MDSMap` and the configuration. -/
structure Mds where
  nodeid : Rank
  /-- `get_mds_set`. -/
  all : Finset Rank
  /-- `get_clientreplay_or_active_or_stopping_mds_set`, and who rejoins while this MDS does. -/
  active : Finset Rank
  metadataPool : ℤ
  defaultPool : ℤ

/-- What `open_ino_traverse_dir` returns: a waiter will be called, or an error (or none) and
what it sets the hint to. -/
inductive Traversal
  | waits
  | done (err : ℤ) (hint : Option Rank)

structure MDCache where
  openingInodes : Std.ExtTreeMap ℕ OpenInoInfo
  lastTid : ℕ
  pending : List Pending
  queue : List (Waiter × ℤ)
  finished : List (ℕ × ℤ)

def MDCache.new : MDCache := ⟨∅, 0, [], [], []⟩

namespace OpenInoInfo

/-- `open_ino_info_t()`, as `open_ino` fills it. -/
def new (m : Mds) (tid : ℕ) (pool : ℤ) (fin : Waiter) (wantReplica wantXlocked : Bool) : OpenInoInfo where
  ancestors := []
  checked := {m.nodeid}
  checking := mdsRankNone
  authHint := mdsRankNone
  checkPeers := true
  fetchBacktrace := true
  discover := false
  wantReplica := wantReplica
  wantXlocked := wantXlocked
  tid := tid
  pool := if 0 ≤ pool then pool else m.defaultPool
  waiters := [fin]

variable (info : OpenInoInfo) (m : Mds)

/-- What an error resets. -/
def restart : OpenInoInfo :=
  { info with
    checked := {m.nodeid}
    checking := mdsRankNone
    checkPeers := true
    fetchBacktrace := true
    discover := false
    ancestors := if info.discover then [] else info.ancestors }

/-- The peer that is asked next, and the hint that is left. -/
def choosePeer : Rank × Rank :=
  if 0 ≤ info.authHint then
    if info.authHint ∈ m.active then (info.authHint, mdsRankNone) else (mdsRankNone, info.authHint)
  else (((ascending m.active).find? fun p => p ≠ m.nodeid ∧ p ∉ info.checked).getD mdsRankNone, info.authHint)

/-- "Waiting for more peers to be active". -/
def waitsForPeers : Bool := decide (m.active.card < m.all.card) && decide (m.all ≠ info.checked)

end OpenInoInfo

namespace MDCache

variable (c : MDCache)

def setInfo (ino : ℕ) (info : OpenInoInfo) : MDCache := { c with openingInodes := c.openingInodes.insert ino info }

def addPending (p : Pending) : MDCache := { c with pending := p :: c.pending }

/-- `open_ino_finish`. -/
def openInoFinish (ino : ℕ) (ret : ℤ) : Checked MDCache := do
  let info ← deref c.openingInodes[ino]?
  pure { c with
    openingInodes := c.openingInodes.erase ino
    queue := info.waiters.map (fun w => (w, ret)) ++ c.queue }

mutual

/-- `do_open_ino`. The first argument bounds the depth of the calls. -/
def doOpenIno : ℕ → Mds → MDCache → ℕ → ℤ → Checked MDCache
  | 0, _, _, _, _ => .error .fuel
  | depth + 1, m, c, ino, err => do
    let info ← deref c.openingInodes[ino]?
    let info := if err < 0 then info.restart m else info
    if info.checkPeers then
      doOpenInoPeer depth m (c.setInfo ino { info with checkPeers := false, checking := mdsRankNone }) ino
    else if info.fetchBacktrace then
      pure (.addPending (c.setInfo ino { info with
        checkPeers := true, fetchBacktrace := false, checking := m.nodeid, checked := {m.nodeid} }) (.fetch ino))
    else do
      assert (!info.ancestors.isEmpty)
      let parent ← deref info.ancestors.head?
      openIno depth m (c.setInfo ino { info with checking := m.nodeid }) parent.dirino m.metadataPool
        (.parentOpened ino) info.wantReplica false

/-- `do_open_ino_peer`. -/
def doOpenInoPeer : ℕ → Mds → MDCache → ℕ → Checked MDCache
  | 0, _, _, _ => .error .fuel
  | depth + 1, m, c, ino => do
    let info ← deref c.openingInodes[ino]?
    let p := info.choosePeer m
    if p.1 < 0 then
      if info.waitsForPeers m then pure c else doOpenIno depth m c ino 0
    else pure ((c.setInfo ino { info with authHint := p.2, checking := p.1 }).addPending (.reply ino p.1))

/-- `open_ino`. -/
def openIno : ℕ → Mds → MDCache → ℕ → ℤ → Waiter → Bool → Bool → Checked MDCache
  | 0, _, _, _, _, _, _, _ => .error .fuel
  | depth + 1, m, c, ino, pool, fin, wantReplica, wantXlocked =>
    match c.openingInodes[ino]? with
    | some info => pure (c.setInfo ino { info with
        wantReplica := info.wantReplica || wantReplica
        wantXlocked := info.wantXlocked || (wantReplica && wantXlocked)
        waiters := info.waiters ++ [fin] })
    | none => doOpenIno depth m
        { c.setInfo ino (.new m (c.lastTid + 1) pool fin wantReplica wantXlocked) with lastTid := c.lastTid + 1 } ino 0

end

/-- Calls of these functions are at most this deep. -/
def maxDepth : ℕ := 9

/-- `_open_ino_traverse_dir`. -/
def openInoTraverseDir (m : Mds) (ino : ℕ) (ret : ℤ) (found : Option Rank) (t : Traversal) : Checked MDCache := do
  let info ← deref c.openingInodes[ino]?
  match found with
  | some auth => c.openInoFinish ino auth
  | none =>
    if ret ≠ 0 then doOpenIno maxDepth m c ino ret
    else match t with
      | .waits => pure (c.addPending (.traverse ino))
      | .done err hint =>
        let hint := hint.getD info.authHint
        doOpenIno maxDepth m (if hint ≠ m.nodeid then c.setInfo ino { info with authHint := hint } else c) ino err

/-- `ENOENT`, `EIO` and `EINVAL`. -/
def enoent : ℤ := 2
def eio : ℤ := 5
def einval : ℤ := 22

/-- The pool where the backtrace is looked for next, if it is not that of the entry. -/
def retryPool (m : Mds) (info : OpenInoInfo) (bt : Except ℤ Backtrace) : Option ℤ :=
  match bt with
  | .ok bt => if bt.pool ≠ info.pool ∧ bt.pool ≠ -1 then some bt.pool else none
  | .error err => if err = -enoent ∧ info.pool ≠ m.metadataPool then some m.metadataPool else none

/-- The error of a backtrace that is of no use. -/
def backtraceError (info : OpenInoInfo) (bt : Except ℤ Backtrace) : Except ℤ Backtrace :=
  match bt with
  | .ok bt =>
    if bt.ancestors.isEmpty then .error (-eio)
    else if !info.ancestors.isEmpty ∧ info.ancestors.head? = bt.ancestors.head? then .error (-einval)
    else .ok bt
  | .error err => .error err

/-- `_open_ino_backtrace_fetched`. -/
def openInoBacktraceFetched (m : Mds) (ino : ℕ) (bt : Except ℤ Backtrace) (found : Option Rank) (t : Traversal) :
    Checked MDCache := do
  let info ← deref c.openingInodes[ino]?
  match found with
  | some auth => c.openInoFinish ino auth
  | none =>
    match retryPool m info bt with
    | some pool => pure ((c.setInfo ino { info with pool := pool }).addPending (.fetch ino))
    | none =>
      match backtraceError info bt with
      | .error err => c.openInoFinish ino err
      | .ok bt => (c.setInfo ino { info with ancestors := bt.ancestors }).openInoTraverseDir m ino 0 none t

/-- `_open_ino_parent_opened`. `checkedRank` is what its local variable happens to be: nothing is
assigned to it. -/
def openInoParentOpened (m : Mds) (ino : ℕ) (ret : ℤ) (found : Option Rank) (t : Traversal) (checkedRank : Rank) :
    Checked MDCache := do
  let info ← deref c.openingInodes[ino]?
  match found with
  | some auth => c.openInoFinish ino auth
  | none =>
    if ret = m.nodeid then c.openInoTraverseDir m ino 0 none t
    else if 0 ≤ ret then
      doOpenIno maxDepth m (c.setInfo ino { info with
        checkPeers := true, authHint := checkedRank, checked := info.checked.erase checkedRank }) ino ret
    else doOpenIno maxDepth m c ino ret

/-- `MMDSOpenInoReply`. -/
structure Reply where
  ancestors : List Backpointer
  hint : Rank
  error : ℤ

/-- `handle_open_ino_reply`. -/
def handleOpenInoReply (m : Mds) (ino : ℕ) (source : Rank) (r : Reply) (found : Option Rank) (t : Traversal) :
    Checked MDCache :=
  match c.openingInodes[ino]? with
  | none => pure c
  | some info =>
    let info := { info with
      checking := if info.checking = source then mdsRankNone else info.checking
      checked := insert source info.checked }
    let c := c.setInfo ino info
    match found with
    | some auth => c.openInoFinish ino auth
    | none =>
      if !r.ancestors.isEmpty then
        if !info.wantReplica then c.openInoFinish ino source
        else (c.setInfo ino { info with
          ancestors := r.ancestors, authHint := source, checking := m.nodeid, discover := true }).openInoTraverseDir
            m ino 0 none t
      else if r.error ≠ 0 then doOpenIno maxDepth m c ino r.error
      else
        doOpenInoPeer maxDepth m (if 0 ≤ r.hint ∧ r.hint ≠ m.nodeid then
          c.setInfo ino { info with authHint := r.hint, checked := info.checked.erase r.hint } else c) ino

/-- The iteration of `kick_open_ino_peers` for one inode. -/
def kickOpenIno (m : Mds) (who : Rank) (c : MDCache) (ino : ℕ) : Checked MDCache :=
  match c.openingInodes[ino]? with
  | none => pure c
  | some info =>
    if info.checking = who then doOpenInoPeer maxDepth m (c.setInfo ino { info with checking := mdsRankNone }) ino
    else if info.checking = mdsRankNone then doOpenInoPeer maxDepth m c ino
    else pure c

/-- `kick_open_ino_peers`. `visited` is what the iterator comes to: the inodes that are being
opened, and those of the ones added in the loop that are behind it. -/
def kickOpenInoPeers (m : Mds) (who : Rank) (visited : List ℕ) : Checked MDCache := visited.foldlM (kickOpenIno m who) c

/-! ## Events -/

/-- The messages to a rank that failed are not answered, and what it sent is dropped
(`is_stale_message`). -/
def loseReplies (who : Rank) : MDCache :=
  { c with pending := c.pending.filter fun p =>
      match p with
      | .reply _ peer => peer ≠ who
      | _ => true }

inductive Event
  | openIno (ino : ℕ) (pool : ℤ) (fin : ℕ) (wantReplica wantXlocked : Bool)
  | fetched (ino : ℕ) (bt : Except ℤ Backtrace) (found : Option Rank) (t : Traversal)
  /-- `C_MDC_OpenInoTraverseDir::finish`. -/
  | traversed (ino : ℕ) (ret : ℤ) (found : Option Rank) (t : Traversal)
  | replied (ino : ℕ) (source : Rank) (r : Reply) (found : Option Rank) (t : Traversal)
  /-- The first context of the queue is run. -/
  | ran (found : Option Rank) (t : Traversal) (checkedRank : Rank)
  /-- A peer failed, or its messages are lost for another reason. -/
  | failed (who : Rank) (visited : List ℕ)
  /-- A peer can be asked. -/
  | up (who : Rank) (visited : List ℕ)

def done (p : Pending) : MDCache := { c with pending := c.pending.erase p }

/-- The first context of the queue. -/
def runQueued (m : Mds) (found : Option Rank) (t : Traversal) (checkedRank : Rank) : Checked MDCache :=
  match c.queue with
  | [] => pure c
  | (.fin n, ret) :: rest => pure { c with queue := rest, finished := c.finished ++ [(n, ret)] }
  | (.parentOpened ino, ret) :: rest => { c with queue := rest }.openInoParentOpened m ino ret found t checkedRank

def step (m : Mds) (c : MDCache) : Event → Checked MDCache
  | .openIno ino pool fin wantReplica wantXlocked => openIno maxDepth m c ino pool (.fin fin) wantReplica wantXlocked
  | .fetched ino bt found t => (c.done (.fetch ino)).openInoBacktraceFetched m ino bt found t
  | .traversed ino ret found t => do
    assert (c.openingInodes.contains ino)
    assert (0 ≤ ret)
    (c.done (.traverse ino)).openInoTraverseDir m ino ret found t
  | .replied ino source r found t => (c.done (.reply ino source)).handleOpenInoReply m ino source r found t
  | .ran found t checkedRank => c.runQueued m found t checkedRank
  | .failed who visited => (c.loseReplies who).kickOpenInoPeers m who visited
  | .up who visited => c.kickOpenInoPeers m who visited

end MDCache

end CephMds.OpenIno
