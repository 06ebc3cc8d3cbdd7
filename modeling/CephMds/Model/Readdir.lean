import CephMds.Model.Omap

/-!
# Reading a directory

`Server::handle_client_readdir`, for one dirfrag that is complete, and the
client that reads it in pages: each request continues after the last name of the
reply before. The items are in the order of their keys. The linkage of a dentry
is the one that is used for the client. A remote link has its inode if that is in
the cache, and is never to `/.ceph`, which is a directory. What is encoded is
given by its length. Locks, the lru and popularity are left out.
-/

namespace CephMds.Readdir

open Checked Dentries

/-! ## Data -/

inductive Linkage
  | null
  | primary (ino : ℕ)
  | remote (ino : ℕ)
  deriving DecidableEq

structure Dentry where
  first : Snapid
  linkage : Linkage
  /-- `STATE_PURGING`. -/
  purging : Bool
  /-- Nobody has a reference to the dentry and its inode, but for being dirty. -/
  idle : Bool
  deriving DecidableEq

abbrev Item := Key × Dentry

/-- The dirfrag, with what the cache has of the inodes that remote links are to. -/
structure State where
  items : List Item
  snapPurgedThru : Snapid
  inodes : Finset ℕ
  /-- The dentries with `STATE_BADREMOTEINO`. -/
  badRemoteIno : Finset Key

/-- What is around the dirfrag: the realm, the inodes that can be opened, and lengths. -/
structure Surroundings where
  snaps : Finset Snapid
  lastDestroyed : Snapid
  resolves : ℕ → Bool
  dirstatLength : ℕ
  snapTraceLength : ℕ
  sizeofLeaseStat : ℕ
  leaseLength : ℕ
  /-- `encode_inodestat`: the length, if it is within the bytes left. -/
  encodeInodestat : ℕ → ℤ → Option ℕ

structure Request where
  snapid : Snapid
  maxEntries : UInt32
  maxBytes : UInt32
  /-- `offset_str`. -/
  offset : List Byte

/-- A name and its inode. -/
abbrev Entry := List Byte × ℕ

structure Reply where
  entries : List Entry
  atEnd : Bool
  complete : Bool

/-- `CEPH_INO_CEPH`. -/
def cephInoCeph : ℕ := 2

/-! ## The handler -/

variable (e : Surroundings) (r : Request)

/-- A number as an `int`. -/
def toInt32 (x : ℤ) : ℤ := (BitVec.ofInt 32 x).toInt

/-- `bytes_left`. -/
def bytesLeft : ℤ :=
  let maxBytes : ℕ := if r.maxBytes = 0 then 512 * 1024 else r.maxBytes.toNat
  let frontBytes : ℕ := e.dirstatLength + 4 + 2
  toInt32 (toInt32 (maxBytes - frontBytes) - e.snapTraceLength)

/-- The length of `dnbl` with one more entry, if there is room for it. -/
def encodeEntry (dnbl : ℕ) (name : List Byte) (ino : ℕ) : Option ℕ :=
  if toInt32 (dnbl + name.length + 4 + e.sizeofLeaseStat : ℕ) > bytesLeft e r then none
  else
    let dnbl := dnbl + (4 + name.length) + e.leaseLength
    (e.encodeInodestat ino (bytesLeft e r - dnbl)).map fun length => dnbl + length

/-- The local variables of the loop, with the items of the dirfrag. -/
structure Loop where
  /-- The length of `dnbl`. -/
  dnbl : ℕ
  entries : List Entry
  items : List Item

/-- How an iteration ends. -/
inductive Visit
  | next (l : Loop)
  /-- `break`, with a remote dentry that is opened without waiting for it. -/
  | stop (opening : Option (Key × ℕ))
  /-- The request is to be retried when a remote dentry has been opened. -/
  | retry (k : Key) (ino : ℕ)

/-- Includes an entry, if there is room for it. -/
def Loop.add (l : Loop) (name : List Byte) (ino : ℕ) : Visit :=
  match encodeEntry e r l.dnbl name ino with
  | none => .stop none
  | some dnbl => .next { l with dnbl := dnbl, entries := l.entries ++ [(name, ino)] }

/-- `try_trim_snap_dentry`, where snapshots are purged. -/
def trims (snaps : Option (Finset Snapid)) (p : Item) : Bool :=
  p.1.snapid != cephNosnap && snaps.any (fun snaps => Omap.noSnap snaps p.2.first p.1.snapid && p.2.idle)

/-- The loop body. -/
def visit (s : State) (snaps : Option (Finset Snapid)) (l : Loop) (p : Item) : Visit :=
  if p.2.purging then .next l
  else if p.2.linkage = .null then .next l
  else if trims snaps p then .next { l with items := l.items.filter fun q => q.1 ≠ p.1 }
  else if p.1.snapid < r.snapid ∨ r.snapid < p.2.first then .next l
  else if r.offset ≠ [] ∧ p.1.name ≤ r.offset then .next l
  else match p.2.linkage with
    | .null => .next l
    | .primary ino => if ino = cephInoCeph then .next l else l.add e r p.1.name ino
    | .remote ino =>
      if ino ∈ s.inodes then l.add e r p.1.name ino
      else if p.1 ∈ s.badRemoteIno then .next l
      else if 0 < l.dnbl then .stop (some (p.1, ino))
      else .retry p.1 ino

/-- How the loop ends. -/
inductive Exit
  | finished
  | stopped (opening : Option (Key × ℕ))
  | retry (k : Key) (ino : ℕ)

/-- The loop, which has `end` exactly if it has come to the end of the items without a `break`. -/
def loop (s : State) (snaps : Option (Finset Snapid)) (max : ℕ) : List Item → Loop → Loop × Exit
  | [], l => (l, .finished)
  | p :: ps, l =>
    if l.entries.length < max then
      match visit e r s snaps l p with
      | .next l => loop s snaps max ps l
      | .stop opening => (l, .stopped opening)
      | .retry k ino => (l, .retry k ino)
    else (l, .stopped none)

inductive Outcome
  | reply (s : State) (reply : Reply) (opening : Option (Key × ℕ))
  | retry (s : State) (k : Key) (ino : ℕ)

/-- What follows the loop. -/
def outcome (s : State) : Loop × Exit → Outcome
  | (l, .finished) => .reply { s with items := l.items } ⟨l.entries, true, r.offset.isEmpty⟩ none
  | (l, .stopped opening) => .reply { s with items := l.items } ⟨l.entries, false, false⟩ opening
  | (l, .retry k ino) => .retry { s with items := l.items } k ino

/-- "Purge stale snap data?" -/
def purgeDue (s : State) : Bool := s.snapPurgedThru < e.lastDestroyed

/-- `Server::handle_client_readdir`. -/
def handleClientReaddir (s : State) : Checked Outcome := do
  assert (!purgeDue e s || r.snapid = cephNosnap || r.snapid ∈ e.snaps)
  let snaps := if purgeDue e s then some e.snaps else none
  let max := if r.maxEntries = 0 then s.items.length else r.maxEntries.toNat
  pure (outcome r { s with snapPurgedThru := if purgeDue e s then e.lastDestroyed else s.snapPurgedThru }
    (loop e r s snaps max s.items ⟨0, [], s.items⟩))

/-! ## The client -/

/-- A remote dentry has been opened, or cannot be. -/
def State.openRemoteDentry (s : State) (k : Key) (ino : ℕ) : State :=
  if e.resolves ino then { s with inodes := insert ino s.inodes }
  else { s with badRemoteIno := insert k s.badRemoteIno }

/-- One request, until there is a reply. -/
def serve : ℕ → State → Checked (State × Reply × Option (Key × ℕ))
  | 0, _ => throw .fuel
  | fuel + 1, s => do
    let o ← handleClientReaddir e r s
    match o with
    | .reply s reply opening => pure (s, reply, opening)
    | .retry s k ino => serve fuel (s.openRemoteDentry e k ino)

/-- What has been opened meanwhile, if it has. -/
def State.settle (s : State) (prompt : Bool) : Option (Key × ℕ) → State
  | some (k, ino) => if prompt then s.openRemoteDentry e k ino else s
  | none => s

/-- The name after which the next request continues. -/
def Reply.lastName (reply : Reply) : List Byte := (reply.entries.getLast?.map Prod.fst).getD []

/-- All requests of a client, which begin at an offset. `prompt` says after which replies the dentry
that they left has been opened before the next request. -/
def readAll (prompt : ℕ → Bool) : ℕ → State → List Byte → Checked (List Reply)
  | 0, _, _ => throw .fuel
  | fuel + 1, s, offset => do
    let x ← serve e { r with offset := offset } (fuel + 1) s
    if x.2.1.atEnd then pure [x.2.1]
    else do
      let replies ← readAll prompt fuel (x.1.settle e (prompt fuel) x.2.2) x.2.1.lastName
      pure (x.2.1 :: replies)

end CephMds.Readdir
