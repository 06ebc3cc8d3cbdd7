import CephMds.Model.Subtree
import Mathlib

/-!
# Recursive statistics

`MDCache::predirty_journal_parents` with `project_rstat_inode_to_frag` and
`project_rstat_frag_to_inode` on the head versions, and
`CDir::resync_accounted_fragstat` and `resync_accounted_rstat`. The state of
the locks is an argument: at which fragments the nestlock of the directory can
be written, and at which the climb stops. Journaling and pins are left out.
-/

namespace CephMds.Stat

open Checked

variable {ι α : Type}

/-! ## Counters -/

/-- `nfiles` and `nsubdirs`. -/
abbrev FragCount := ℤ × ℤ

/-- `rbytes`, `rfiles`, `rsubdirs` and `rsnaprealms`. -/
abbrev NestCount := ℤ × ℤ × ℤ × ℤ

/-- `frag_info_t`. -/
structure FragInfo where
  version : ℕ
  mtime : ℕ
  count : FragCount
  deriving DecidableEq

/-- `nest_info_t`. -/
@[ext]
structure NestInfo where
  version : ℕ
  rctime : ℕ
  count : NestCount
  deriving DecidableEq

def FragInfo.size (f : FragInfo) : ℤ := f.count.1 + f.count.2

def NestInfo.rbytes (r : NestInfo) : ℤ := r.count.1

/-- `frag_info_t()`. -/
def FragInfo.zero : FragInfo := ⟨0, 0, 0⟩

/-- `nest_info_t()`. -/
def NestInfo.zero : NestInfo := ⟨0, 0, 0⟩

/-- `frag_info_t::add_delta`. -/
def FragInfo.addDelta (f cur acc : FragInfo) : FragInfo :=
  { f with
    mtime := if cur.mtime = acc.mtime then f.mtime else cur.mtime
    count := f.count + (cur.count - acc.count) }

/-- `frag_info_t::add`. -/
def FragInfo.add (f other : FragInfo) : FragInfo :=
  { f with mtime := max f.mtime other.mtime, count := f.count + other.count }

/-- `nest_info_t::add`. -/
def NestInfo.add (r other : NestInfo) : NestInfo :=
  { r with rctime := max r.rctime other.rctime, count := r.count + other.count }

/-- `nest_info_t::sub`. -/
def NestInfo.sub (r other : NestInfo) : NestInfo :=
  { r with rctime := max r.rctime other.rctime, count := r.count - other.count }

/-- `nest_info_t::add_delta`. -/
def NestInfo.addDelta (r cur acc : NestInfo) : NestInfo :=
  { r with rctime := max r.rctime cur.rctime, count := r.count + (cur.count - acc.count) }

/-! ## State -/

/-- The directories with the head dentries: the primary ones of a fragment
are those of the inodes it holds, the remote ones are listed. `whole` is the
fragment of a directory that is not fragmented. -/
structure Names (ι α : Type) extends DirTree ι α where
  isDir : ι → Bool
  inode_isDir {d : α} {i : ι} : inode d = some i → isDir i = true
  children : α → Finset ι
  mem_children {i : ι} {d : α} : i ∈ children d ↔ parentDir i = some d
  remotes : α → List ι
  whole : α → Bool
  whole_only {d : α} {i : ι} : whole d = true → inode d = some i → dirfrags i = [d]

/-- `fnode_t`, projected. -/
structure Fnode where
  fragstat : FragInfo
  accountedFragstat : FragInfo
  rstat : NestInfo
  accountedRstat : NestInfo
  deriving DecidableEq

/-- `inode_t`, projected, with the flag of `mark_dirty_rstat`. -/
structure Inode where
  dirstat : FragInfo
  rstat : NestInfo
  accountedRstat : NestInfo
  mtime : ℕ
  ctime : ℕ
  dirtyRstat : Bool
  deriving DecidableEq

structure Stats (ι α : Type) where
  fnode : α → Fnode
  inode : ι → Inode

variable [DecidableEq ι] [DecidableEq α]

def Stats.setFnode (s : Stats ι α) (d : α) (f : Fnode) : Stats ι α :=
  { s with fnode := Function.update s.fnode d f }

def Stats.setInode (s : Stats ι α) (i : ι) (n : Inode) : Stats ι α :=
  { s with inode := Function.update s.inode i n }

/-! ## Resync -/

/-- `CDir::resync_accounted_fragstat`, for a fragment of `pin`. -/
def resyncAccountedFragstat (s : Stats ι α) (d : α) (pin : ι) : Stats ι α :=
  let pf := s.fnode d
  let pi := s.inode pin
  if pf.accountedFragstat.version ≠ pi.dirstat.version then
    let fragstat := { pf.fragstat with version := pi.dirstat.version }
    s.setFnode d { pf with fragstat := fragstat, accountedFragstat := fragstat }
  else s

/-- `CDir::resync_accounted_rstat`. -/
def resyncAccountedRstat (s : Stats ι α) (d : α) (pin : ι) : Stats ι α :=
  let pf := s.fnode d
  let pi := s.inode pin
  if pf.accountedRstat.version ≠ pi.rstat.version then
    let rstat := { pf.rstat with version := pi.rstat.version }
    s.setFnode d { pf with rstat := rstat, accountedRstat := rstat }
  else s

/-! ## Projection -/

/-- `_project_rstat_inode_to_frag`, to the head. -/
def projectRstatInodeToFrag (s : Stats ι α) (cur : ι) (parent : α) (linkunlink : ℤ) : Stats ι α :=
  let inode := s.inode cur
  let delta :=
    if linkunlink = 0 then (NestInfo.zero.add inode.rstat).sub inode.accountedRstat
    else if linkunlink < 0 then NestInfo.zero.sub inode.accountedRstat
    else NestInfo.zero.add inode.rstat
  let pf := s.fnode parent
  (s.setInode cur { inode with accountedRstat := inode.rstat }).setFnode parent
    { pf with rstat := pf.rstat.add delta }

/-- `project_rstat_frag_to_inode`, from and to the head. -/
def projectRstatFragToInode (s : Stats ι α) (parent : α) (pin : ι) : Stats ι α :=
  let pf := s.fnode parent
  let pi := s.inode pin
  s.setInode pin { pi with rstat := pi.rstat.add (pf.rstat.sub pf.accountedRstat) }

/-! ## One level of the climb -/

/-- "Update stale fragstat?", the mtime and the size of the fragment. -/
def touchFragstat (s : Stats ι α) (parent : α) (pin : ι) (isDir doParentMtime : Bool) (linkunlink : ℤ)
    (stamp : ℕ) : Stats ι α :=
  let s := resyncAccountedFragstat s parent pin
  let pf := s.fnode parent
  let pf := if doParentMtime then
      { pf with
        fragstat := { pf.fragstat with mtime := stamp }
        rstat := if stamp > pf.rstat.rctime then { pf.rstat with rctime := stamp } else pf.rstat }
    else pf
  s.setFnode parent { pf with
    fragstat := { pf.fragstat with
      count := pf.fragstat.count + if isDir then (0, linkunlink) else (linkunlink, 0) } }

/-- "Rstat": the inode to the fragment, unless the link is remote or the
nestlock cannot be written. -/
def touchRstat (s : Stats ι α) (cur : ι) (parent : α) (pin : ι) (primaryDn : Bool) (linkunlink : ℤ)
    (writable : Bool) : Stats ι α :=
  if !primaryDn then s
  else if linkunlink = 0 && !writable then s.setInode cur { s.inode cur with dirtyRstat := true }
  else
    let s := resyncAccountedRstat s parent pin
    let s := projectRstatInodeToFrag s cur parent linkunlink
    s.setInode cur { s.inode cur with dirtyRstat := false }

/-- "Dirstat". -/
def touchDirstat (t : Names ι α) (s : Stats ι α) (parent : α) (pin : ι) : Stats ι α :=
  let pf := s.fnode parent
  let pi := s.inode pin
  let dirstat := pi.dirstat.addDelta pf.fragstat pf.accountedFragstat
  let touched := pf.fragstat.mtime ≠ pf.accountedFragstat.mtime
  let s := s.setFnode parent { pf with accountedFragstat := pf.fragstat }
  s.setInode pin { pi with
    mtime := if touched then dirstat.mtime else pi.mtime
    ctime := if touched then dirstat.mtime else pi.ctime
    -- A directory that is not fragmented trusts its fragment.
    dirstat := if t.whole parent && dirstat.size != pf.fragstat.size then pf.fragstat else dirstat }

/-- "Rstat": the fragment to its directory. -/
def touchInodeRstat (t : Names ι α) (s : Stats ι α) (parent : α) (pin : ι) : Stats ι α :=
  let s := resyncAccountedRstat s parent pin
  let s := projectRstatFragToInode s parent pin
  let pf := s.fnode parent
  let pi := s.inode pin
  let s := s.setFnode parent { pf with accountedRstat := pf.rstat }
  if t.whole parent && pi.rstat.rbytes != pf.rstat.rbytes then s.setInode pin { pi with rstat := pf.rstat }
  else s

/-- What the locks and the authority let a climb do at each fragment. -/
structure Locks (α : Type) where
  writable : α → Bool
  stop : α → Bool

/-- What is left to do at a level. -/
structure Level (ι α : Type) where
  cur : ι
  parent : α
  isDir : Bool
  primaryDn : Bool
  doParentMtime : Bool
  linkunlink : ℤ

def Level.counts (l : Level ι α) : Bool := l.doParentMtime || l.linkunlink != 0

/-- The fragment of a level, before it is known whether the climb stops. -/
def touchFrag (s : Stats ι α) (locks : Locks α) (stamp : ℕ) (l : Level ι α) (pin : ι) : Stats ι α :=
  let s := if l.counts then touchFragstat s l.parent pin l.isDir l.doParentMtime l.linkunlink stamp else s
  touchRstat s l.cur l.parent pin l.primaryDn l.linkunlink (locks.writable l.parent)

/-- The loop of `predirty_journal_parents`, with the last fragment it looks at. -/
def climb (t : Names ι α) (locks : Locks α) (stamp : ℕ) :
    ℕ → Stats ι α → Level ι α → Checked (Stats ι α × α)
  | 0, _, _ => .error .fuel
  | fuel + 1, s, l => do
    let pin ← deref (t.inode l.parent)
    let s := touchFrag s locks stamp l pin
    if locks.stop l.parent then return (s, l.parent)
    else
      let s := if l.counts then touchDirstat t s l.parent pin else s
      if t.isBase pin then return (s, l.parent)
      else do
        let next ← deref (t.parentDir pin)
        let s := if l.primaryDn then touchInodeRstat t s l.parent pin else s
        climb t locks stamp fuel s
          { cur := pin, parent := next, isDir := l.isDir, primaryDn := true, doParentMtime := false,
            linkunlink := 0 }

/-- `MDCache::predirty_journal_parents`, with the last fragment it looks at. -/
def predirtyJournalParents (t : Names ι α) (locks : Locks α) (stamp : ℕ) (s : Stats ι α) (i : ι)
    (parent : Option α) (primaryDn doParentMtime shallow : Bool) (linkunlink : ℤ) :
    Checked (Stats ι α × Option α) :=
  if t.isBase i then return (s, none)
  else do
    assert (parent.isSome || primaryDn)
    let parent ← deref (parent.or (t.parentDir i))
    if !primaryDn && !doParentMtime && !shallow && linkunlink == 0 then return (s, none)
    else do
      let r ← climb t locks stamp (t.depth parent + 1) s
        { cur := i, parent := parent, isDir := t.isDir i, primaryDn := primaryDn,
          doParentMtime := doParentMtime, linkunlink := linkunlink }
      return (r.1, some r.2)

end CephMds.Stat
