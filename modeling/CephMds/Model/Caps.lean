import CephMds.Framework.Check
import CephMds.Framework.Writes
import Mathlib

/-!
# The capabilities of a client

The caps that a client has on an inode, one for each server that has issued one,
and the functions of `Client.cc` that change them: grants, revocations, exports and
imports, the flushing of dirty caps, and the snapshots of caps that wait to be
flushed (`cap_snaps`). A cap is named by the rank of its server, so that `auth_cap`
is a rank. Left out are the metadata that travels with the caps, the snap realms,
the waiters, and the injected failure to release caps. What decides when a message
is sent but is not kept here (sizes, times, what is wanted) comes in as `Env`.
-/

namespace CephMds.Caps

open Checked Writes

/-! ## Data -/

/-- A set of capability bits. -/
abbrev Mask := Finset (Fin 22)

def capPin : Fin 22 := 0
def authExcl : Fin 22 := 3
def xattrExcl : Fin 22 := 7
def fileShared : Fin 22 := 8
def fileExcl : Fin 22 := 9
def fileCache : Fin 22 := 10
def fileRd : Fin 22 := 11
def fileWr : Fin 22 := 12
def fileBuffer : Fin 22 := 13

/-- `CEPH_CAP_ANY_SHARED`. -/
def anyShared : Mask := {2, 4, 6, 8}

/-- `CEPH_CAP_ANY_EXCL`. -/
def anyExcl : Mask := {3, 5, 7, 9}

/-- `CEPH_CAP_ANY_WR`. -/
def anyWr : Mask := anyExcl ∪ {fileWr, fileBuffer}

/-- `CEPH_CAP_ANY`. -/
def capAny : Mask := anyShared ∪ {fileRd, fileCache} ∪ anyWr ∪ {15, capPin}

/-- `ceph_seq_cmp`. -/
def cephSeqCmp (a b : BitVec 32) : ℤ := (a - b).toInt

structure Cap where
  capId : ℕ
  issued : Mask
  implemented : Mask
  wanted : Mask
  seq : BitVec 32
  issueSeq : BitVec 32
  mseq : BitVec 32

def Cap.new : Cap := ⟨0, ∅, ∅, ∅, 0, 0, 0⟩

/-- `CapSnap`, with the session whose `flushing_capsnaps` it is on. -/
structure CapSnap where
  dirtyData : Bool
  writing : Bool
  flushTid : ℕ
  flushingItem : Option ℕ

/-- The messages that are sent to the servers. -/
inductive Sent
  | caps (mds tid : ℕ) (implemented flush : Mask)
  | flushsnap (mds tid follows : ℕ)

/-- The caps of an inode. `flushingItem` is the session whose `flushing_caps` the inode is on;
`dirtyRefs` and `snapRefs` are the references of the inode that are taken for dirty caps and for
the `cap_snaps`. -/
structure Inode where
  caps : Std.ExtTreeMap ℕ Cap
  authCap : Option ℕ
  dirtyCaps : Mask
  flushingCaps : Mask
  flushingCapTid : Fin 22 → BitVec 16
  lastFlushTid : ℕ
  flushingItem : Option ℕ
  capSnaps : Std.ExtTreeMap ℕ CapSnap
  capRefs : Fin 22 → ℕ
  cached : Bool
  sharedGen : ℕ
  cacheGen : ℕ
  complete : Bool
  dirOrdered : Bool
  dirtyRefs : ℤ
  snapRefs : ℤ
  sent : List Sent

def Inode.new : Inode where
  caps := ∅
  authCap := none
  dirtyCaps := ∅
  flushingCaps := ∅
  flushingCapTid _ := 0
  lastFlushTid := 0
  flushingItem := none
  capSnaps := ∅
  capRefs _ := 0
  cached := false
  sharedGen := 0
  cacheGen := 0
  complete := false
  dirOrdered := false
  dirtyRefs := 0
  snapRefs := 0
  sent := []

/-- An inode, and the client's `num_flushing_caps`. -/
structure Local where
  inode : Inode
  numFlushingCaps : ℤ

/-- What a function finds outside of the inode's caps. -/
structure Env where
  wanted : Mask
  unmounting : Bool
  /-- A larger `max_size` is to be asked for. -/
  askSize : Bool
  /-- Before `hold_caps_until`. -/
  hold : Bool
  /-- `_flush` has nothing to wait for. -/
  flushed : Bool
  /-- Nothing stays in the cache when it is released. -/
  released : Bool
  /-- There is no callback to wait for when the cache is invalidated. -/
  invalidated : Bool

/-- What a server grants. -/
structure Grant where
  capId : ℕ
  issued : Mask
  seq : BitVec 32
  mseq : BitVec 32
  auth : Bool

/-- The cap on the other side of a migration. -/
structure Peer where
  mds : ℕ
  capId : ℕ
  seq : BitVec 32
  mseq : BitVec 32

/-- `MClientCaps`. -/
structure Msg where
  capId : ℕ
  caps : Mask
  seq : BitVec 32
  mseq : BitVec 32
  wanted : Mask
  peer : Peer

namespace Inode

/-! ## What is held -/

/-- A cap is added, or changed. -/
def setCap (inode : Inode) (mds : ℕ) (cap : Cap) : Inode := { inode with caps := inode.caps.insert mds cap }

/-- `caps_issued`. -/
def capsIssued (inode : Inode) : Mask := inode.caps.toList.foldr (fun p s => p.2.issued ∪ s) ∅

/-- The caps that some server has issued and not yet taken back. -/
def capsImplemented (inode : Inode) : Mask := inode.caps.toList.foldr (fun p s => p.2.implemented ∪ s) ∅

/-- `caps_dirty`. -/
def capsDirty (inode : Inode) : Mask := inode.dirtyCaps ∪ inode.flushingCaps

/-- `get_caps_used`. -/
def getCapsUsed (inode : Inode) : Mask :=
  let used := Finset.univ.filter fun i => 0 < inode.capRefs i
  if inode.cached then insert fileCache used else used

/-- The cap that `auth_cap` points to. -/
def auth (inode : Inode) : Option Cap := inode.authCap.bind fun mds => inode.caps[mds]?

/-- `cap_used`: what is used, and not covered by the auth cap. -/
def capUsed (inode : Inode) (used : Mask) (mds : ℕ) : Mask :=
  if inode.authCap = some mds then used else used \ (inode.auth.elim ∅ Cap.issued)

/-- `check_cap_issue`. -/
def checkCapIssue (inode : Inode) (issued : Mask) : Inode :=
  let had := inode.capsIssued
  let inode := if fileCache ∈ issued ∧ fileCache ∉ had then { inode with cacheGen := inode.cacheGen + 1 } else inode
  if fileShared ∈ issued ∧ fileShared ∉ had then
    { inode with sharedGen := inode.sharedGen + 1, complete := false, dirOrdered := inode.dirOrdered && !inode.complete }
  else inode

/-! ## Messages to the servers -/

/-- The cap snap is not sent: it is not the one, or "only flush once per session"; or it is not done. -/
def skips (capsnap : CapSnap) (allAgain : Bool) (again : Option ℕ) (follows : ℕ) : Bool :=
  (match again with
    | some a => a != follows
    | none => !allAgain && capsnap.flushingItem.isSome) || capsnap.dirtyData || capsnap.writing

/-- The loop body of `flush_snaps`, at the cap snap with the key `follows`. -/
def flushSnap (allAgain : Bool) (again : Option ℕ) (mds : ℕ) (inode : Inode) (follows : ℕ) : Inode :=
  match inode.capSnaps[follows]? with
  | none => inode
  | some capsnap =>
    if skips capsnap allAgain again follows then inode
    else
      let tid := inode.lastFlushTid + 1
      { inode with
        capSnaps := inode.capSnaps.insert follows { capsnap with flushTid := tid, flushingItem := some mds }
        lastFlushTid := tid
        sent := .flushsnap mds tid follows :: inode.sent }

/-- `flush_snaps`. -/
def flushSnaps (inode : Inode) (allAgain : Bool) (again : Option ℕ) : Checked Inode := do
  assert (!inode.capSnaps.isEmpty)
  assert inode.authCap.isSome
  let mds ← deref inode.authCap
  pure (inode.capSnaps.keys.foldl (flushSnap allAgain again mds) inode)

/-- `send_cap`. -/
def sendCap (inode : Inode) (mds : ℕ) (used want retain flush : Mask) : Checked Inode := do
  let cap ← deref inode.caps[mds]?
  let revoking := cap.implemented \ cap.issued
  let issued := cap.issued ∩ (retain \ revoking)
  let implemented := cap.implemented ∩ (issued ∪ used)
  let tid := if flush = ∅ then inode.lastFlushTid else inode.lastFlushTid + 1
  pure { inode with
    caps := inode.caps.insert mds { cap with issued := issued, implemented := implemented, wanted := want }
    lastFlushTid := tid
    flushingCapTid := fun i => if i ∈ flush then BitVec.ofNat 16 tid else inode.flushingCapTid i
    sent := .caps mds (if flush = ∅ then 0 else tid) implemented flush :: inode.sent }

/-- `flush_caps` of an inode. -/
def flushCaps (inode : Inode) (env : Env) (mds : ℕ) : Checked Inode := do
  assert (inode.authCap == some mds)
  let cap ← deref inode.caps[mds]?
  inode.sendCap mds inode.getCapsUsed env.wanted (cap.issued ∪ cap.implemented) inode.flushingCaps

/-- All the cap snaps are sent again. -/
def reflushSnaps (inode : Inode) : Checked Inode :=
  if inode.capSnaps.isEmpty then pure inode else inode.flushSnaps true none

/-- The flushing caps are sent again. -/
def reflushCaps (inode : Inode) (env : Env) (mds : ℕ) : Checked Inode :=
  if inode.flushingCaps = ∅ then pure inode else inode.flushCaps env mds

/-- `remove_cap`. -/
def removeCap (inode : Inode) (mds : ℕ) : Checked Inode := do
  assert (inode.caps.contains mds)
  if inode.authCap = some mds then
    pure { inode with flushingItem := none, authCap := none, caps := inode.caps.erase mds }
  else pure { inode with caps := inode.caps.erase mds }

/-- `mark_caps_dirty`. -/
def markCapsDirty (inode : Inode) (caps : Mask) : Inode :=
  { inode with
    dirtyRefs := if caps ≠ ∅ ∧ inode.capsDirty = ∅ then inode.dirtyRefs + 1 else inode.dirtyRefs
    dirtyCaps := inode.dirtyCaps ∪ caps }

/-! ## A new cap -/

/-- "We are processing a message that was send before the cap import message." -/
def merge (inode : Inode) (mds : ℕ) (g : Grant) : Checked Grant :=
  match inode.caps[mds]? with
  | none => pure g
  | some cap =>
    if cephSeqCmp g.seq cap.seq ≤ 0 then do
      assert (inode.authCap == some mds)
      assert (cap.capId == g.capId)
      pure { g with seq := cap.seq, mseq := cap.mseq, issued := g.issued ∪ cap.issued, auth := true }
    else pure g

/-- The cap becomes the auth cap, if it is newer. -/
def setAuth (inode : Inode) (mds : ℕ) (g : Grant) : Inode :=
  if g.auth ∧ inode.authCap ≠ some mds ∧
      (inode.authCap = none ∨ ∃ cap ∈ inode.auth, cephSeqCmp cap.mseq g.mseq < 0) then
    { inode with
      flushingItem := if inode.authCap.isSome ∧ inode.flushingItem.isSome then some mds else inode.flushingItem
      authCap := some mds }
  else inode

/-- The caps are those of the grant, too. -/
def takeGrant (inode : Inode) (mds : ℕ) (g : Grant) : Inode :=
  let cap := inode.caps[mds]?.getD .new
  inode.setCap mds { cap with
    capId := g.capId
    issued := cap.issued ∪ g.issued
    implemented := cap.implemented ∪ g.issued
    seq := g.seq
    issueSeq := g.seq
    mseq := g.mseq }

/-- "Non-auth MDS is revoking the newly grant caps ?" -/
def revokedElsewhere (inode : Inode) (mds : ℕ) (issued : Mask) : Bool :=
  inode.authCap == some mds &&
    inode.caps.toList.any fun p => p.1 != mds && decide ((p.2.implemented \ p.2.issued) ∩ issued ≠ ∅)

end Inode

namespace Local

/-! ## Flushing -/

/-- `mark_caps_flushing`. -/
def markCapsFlushing (l : Local) : Checked Local := do
  let mds ← deref l.inode.authCap
  assert (l.inode.dirtyCaps ≠ ∅)
  pure {
    inode := { l.inode with
      flushingCaps := l.inode.flushingCaps ∪ l.inode.dirtyCaps
      dirtyCaps := ∅
      flushingItem := some mds }
    numFlushingCaps := if l.inode.flushingCaps = ∅ then l.numFlushingCaps + 1 else l.numFlushingCaps }

/-- `check_caps` comes to `ack` with this cap. -/
def acks (l : Local) (env : Env) (used retain : Mask) (hold : Bool) (mds : ℕ) (cap : Cap) : Bool :=
  let revoking := cap.implemented \ cap.issued
  (env.askSize && l.inode.authCap == some mds) ||
    (revoking ≠ ∅ && revoking ∩ used = ∅) ||
    env.wanted \ (cap.wanted ∪ cap.issued) ≠ ∅ ||
    (revoking = ∅ && env.unmounting && used = ∅) ||
    !((env.wanted = cap.wanted && cap.issued \ retain = ∅ && l.inode.dirtyCaps = ∅) || hold)

/-- The loop body of `check_caps`. -/
def checkCap (env : Env) (used retain : Mask) (hold : Bool) (l : Local) (mds : ℕ) : Checked Local := do
  let cap ← deref l.inode.caps[mds]?
  if l.acks env (l.inode.capUsed used mds) retain hold mds cap then
    if l.inode.authCap = some mds ∧ l.inode.dirtyCaps ≠ ∅ then do
      let l' ← l.markCapsFlushing
      let inode ← l'.inode.sendCap mds (l.inode.capUsed used mds) env.wanted retain l.inode.dirtyCaps
      pure { l' with inode := inode }
    else do
      let inode ← l.inode.sendCap mds (l.inode.capUsed used mds) env.wanted retain ∅
      pure { l with inode := inode }
  else pure l

/-- `check_caps`. -/
def checkCaps (l : Local) (env : Env) (isDelayed : Bool) : Checked Local := do
  let used := l.inode.getCapsUsed
  let retain := env.wanted ∪ used ∪ {capPin} ∪
    (if env.unmounting then ∅ else if env.wanted ≠ ∅ then capAny else anyShared)
  if l.inode.caps.isEmpty then pure l
  else if l.inode.capSnaps.isEmpty then
    l.inode.caps.keys.foldlM (checkCap env used retain (!isDelayed && env.hold)) l
  else do
    let inode ← l.inode.flushSnaps false none
    inode.caps.keys.foldlM (checkCap env used retain (!isDelayed && env.hold)) { l with inode := inode }

/-- `add_update_cap`. -/
def addUpdateCap (l : Local) (env : Env) (mds : ℕ) (g : Grant) : Checked Local := do
  let g ← l.inode.merge mds g
  let old := (l.inode.caps[mds]?).elim ∅ Cap.issued
  let inode := ((l.inode.checkCapIssue g.issued).setAuth mds g).takeGrant mds g
  if g.issued \ old ≠ ∅ ∧ inode.revokedElsewhere mds g.issued then
    checkCaps { l with inode := inode } env true
  else pure { l with inode := inode }

/-- `_release`. -/
def release (l : Local) (env : Env) : Checked Local :=
  if l.inode.capRefs fileCache = 0 then
    let l := { l with inode := { l.inode with cached := l.inode.cached && !env.released } }
    if env.invalidated then l.checkCaps env false else pure l
  else pure l

/-- `handle_cap_grant`, of a `GRANT`, a `REVOKE` or an `IMPORT`. -/
def handleCapGrant (l : Local) (env : Env) (mds : ℕ) (isImport : Bool) (m : Msg) : Checked Local := do
  let cap ← deref l.inode.caps[mds]?
  let used := l.inode.getCapsUsed
  let issued := l.inode.capsIssued ∪ l.inode.capsDirty ∪ l.inode.capsImplemented
  let check := isImport && decide (m.wanted ≠ env.wanted)
  let inode := l.inode.checkCapIssue issued
  let cap' := { cap with seq := m.seq, issued := m.caps, implemented := cap.implemented ∪ m.caps }
  if cap.issued \ m.caps ≠ ∅ then
    let l := { l with inode := inode.setCap mds cap' }
    if fileBuffer ∈ used \ m.caps ∧ !env.flushed then
      if check then l.checkCaps env false else pure l
    else if fileCache ∈ cap.issued \ m.caps then do
      let l ← l.release env
      if check then l.checkCaps env false else pure l
    else
      checkCaps { l with inode := inode.setCap mds { cap' with wanted := ∅ } } env false
  else if cap.issued = m.caps then
    let l := { l with inode := inode.setCap mds { cap with seq := m.seq } }
    if check then l.checkCaps env false else pure l
  else
    let l := { l with inode := inode.setCap mds cap' }
    if check || l.inode.revokedElsewhere mds m.caps then l.checkCaps env false else pure l

/-! ## Migration -/

/-- `handle_cap_import`, up to the grant. -/
def importCap (l : Local) (env : Env) (mds : ℕ) (m : Msg) : Checked Local := do
  let l ← l.addUpdateCap env mds ⟨m.capId, m.caps, m.seq, m.mseq, true⟩
  let old := l.inode.caps[m.peer.mds]?
  if m.peer.capId ≠ 0 ∧ (old.map Cap.capId) = some m.peer.capId then do
    let inode ← l.inode.removeCap m.peer.mds
    pure { l with inode := inode }
  else pure l

/-- "Reflush any/all caps (if we are now the auth_cap)". -/
def reflush (l : Local) (env : Env) (mds : ℕ) : Checked Local :=
  if l.inode.authCap = some mds then do
    let inode ← l.inode.reflushSnaps
    let inode ← inode.reflushCaps env mds
    pure { l with inode := inode }
  else pure l

/-- `handle_caps` of an `IMPORT`. -/
def handleCapImport (l : Local) (env : Env) (mds : ℕ) (m : Msg) : Checked Local := do
  let l ← l.importCap env mds m
  let l ← l.reflush env mds
  if l.inode.caps.contains mds then l.handleCapGrant env mds true m else pure l

/-- The cap of the new server takes over from the one of `mds`. -/
def updatePeer (l : Local) (mds : ℕ) (cap tcap : Cap) (peer : Peer) : Local :=
  if tcap.capId ≠ peer.capId ∨ cephSeqCmp tcap.seq peer.seq < 0 then
    let authCap := if l.inode.authCap = some mds then some peer.mds else l.inode.authCap
    { l with inode := { l.inode with
      caps := l.inode.caps.insert peer.mds { tcap with
        capId := peer.capId
        seq := peer.seq - 1
        issueSeq := peer.seq - 1
        mseq := peer.mseq
        issued := tcap.issued ∪ cap.issued
        implemented := tcap.implemented ∪ cap.issued }
      authCap := authCap
      flushingItem :=
        if authCap = some peer.mds ∧ l.inode.flushingItem.isSome then some peer.mds else l.inode.flushingItem } }
  else l

/-- The cap of the new server is updated, or added. -/
def exportTo (l : Local) (env : Env) (mds : ℕ) (cap : Cap) (peer : Peer) : Checked Local :=
  if peer.capId = 0 then pure l
  else
    match l.inode.caps[peer.mds]? with
    | some tcap => pure (l.updatePeer mds cap tcap peer)
    | none => l.addUpdateCap env peer.mds
        ⟨peer.capId, cap.issued, peer.seq - 1, peer.mseq, l.inode.authCap == some mds⟩

/-- `handle_cap_export`. -/
def handleCapExport (l : Local) (env : Env) (mds : ℕ) (m : Msg) : Checked Local :=
  match l.inode.caps[mds]? with
  | none => pure l
  | some cap =>
    if cap.capId ≠ m.capId then pure l
    else do
      let l ← l.exportTo env mds cap m.peer
      let inode ← l.inode.removeCap mds
      pure { l with inode := inode }

/-! ## Acknowledgements and sessions -/

/-- `handle_cap_flush_ack`. -/
def handleCapFlushAck (l : Local) (tid : BitVec 16) (dirty : Mask) : Local :=
  let cleaned := dirty.filter fun i => tid = l.inode.flushingCapTid i
  if cleaned = ∅ ∨ l.inode.flushingCaps = ∅ then l
  else
    let flushing := l.inode.flushingCaps \ cleaned
    { inode := { l.inode with
        flushingCaps := flushing
        flushingItem := if flushing = ∅ then none else l.inode.flushingItem
        dirtyRefs := if l.inode.dirtyCaps ∪ flushing = ∅ then l.inode.dirtyRefs - 1 else l.inode.dirtyRefs }
      numFlushingCaps := if flushing = ∅ then l.numFlushingCaps - 1 else l.numFlushingCaps }

/-- `kick_flushing_caps`, for one inode: its caps. -/
def kickFlushingCaps (l : Local) (env : Env) (mds : ℕ) : Checked Local :=
  if l.inode.flushingItem = some mds ∧ l.inode.flushingCaps ≠ ∅ then do
    let inode ← l.inode.flushCaps env mds
    pure { l with inode := inode }
  else pure l

/-- `remove_session_caps`, for one inode. -/
def removeSessionCaps (l : Local) (mds : ℕ) : Checked Local :=
  if l.inode.caps.contains mds then do
    let dirty := if l.inode.authCap = some mds then l.inode.capsDirty else ∅
    let inode ← l.inode.removeCap mds
    if dirty = ∅ then pure { l with inode := inode }
    else pure {
      inode := { inode with flushingCaps := ∅, dirtyCaps := ∅, dirtyRefs := inode.dirtyRefs - 1 }
      numFlushingCaps := if inode.flushingCaps = ∅ then l.numFlushingCaps else l.numFlushingCaps - 1 }
  else pure l

end Local

end CephMds.Caps
