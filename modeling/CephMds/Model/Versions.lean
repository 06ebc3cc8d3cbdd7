import CephMds.Framework.Intervals
import CephMds.Model.Stat

/-!
# Statistics of snapshots

`_project_rstat_inode_to_frag` and `project_rstat_frag_to_inode` with the old
versions: what the fragment of a directory has to pass on for an interval of
snapshots that is not that of its fnode is in `dirty_old_rstat`, and a version of an
inode that is not the current one is in `old_inodes`. Both go through the interval
from its end. `CInode::cow_old_inode` is not under these sources: it stores the
current version.
-/

namespace CephMds.Versions

open Checked Intervals Stat

/-- `CEPH_NOSNAP`. -/
def cephNosnap : ℕ := 2 ^ 64 - 2

/-- `s - 1`, in 64 bits. -/
def pred (s : ℕ) : ℕ := (s + (2 ^ 64 - 1)) % 2 ^ 64

theorem pred_eq {s : ℕ} (h : 0 < s) (hs : s ≤ cephNosnap + 1) : pred s = s - 1 := by
  unfold pred
  unfold cephNosnap at hs
  omega

/-! ## To the fragment -/

/-- `old_rstat_t`, whose `first` is that of the interval. -/
structure OldRstat where
  rstat : NestInfo
  accountedRstat : NestInfo
  deriving DecidableEq

/-- What `map::operator[]` makes. -/
def OldRstat.new : OldRstat := ⟨.zero, .zero⟩

/-- A fragment: where its current interval begins, the projected fnode, and the older ones. -/
structure CDir where
  first : ℕ
  fnode : Fnode
  dirtyOldRstat : Pieces OldRstat

namespace CDir

variable (d : CDir)

/-- `dirty_old_rstat[last].first = first`, with `prstat` that of this entry. -/
def setFirst (last first : ℕ) : CDir :=
  let old := (d.dirtyOldRstat[last]?.map Piece.value).getD .new
  { d with dirtyOldRstat := d.dirtyOldRstat.insert last ⟨first, old⟩ }

/-- The fnode, copied. -/
def cow (last : ℕ) : CDir :=
  { d with dirtyOldRstat := d.dirtyOldRstat.insert last ⟨d.first, ⟨d.fnode.rstat, d.fnode.accountedRstat⟩⟩ }

/-- "Projecting to head". -/
def projectToHead (ofirst : ℕ) : ℕ × CDir :=
  let first := max ofirst d.first
  let d := if d.first < first ∧ d.fnode.rstat ≠ d.fnode.accountedRstat then d.cow (pred first) else d
  (first, { d with first := first })

/-- "Projecting to dirty_old_rstat", with nothing that ends at `last` or later. -/
def beyondLast (ofirst : ℕ) : ℕ :=
  match d.dirtyOldRstat.maxKey? with
  | none => ofirst
  | some k => if ofirst ≤ k then k + 1 else ofirst

/-- The interval that ends at `k`, and goes round `last`, is cut at both ends. -/
def cutAround (k : ℕ) (p : Piece OldRstat) (ofirst last : ℕ) : CDir :=
  let m := if p.first < ofirst then splitAt d.dirtyOldRstat k (pred ofirst) else d.dirtyOldRstat
  { d with dirtyOldRstat := if last < k then splitAt m k last else m }

/-- "Be careful, dirty_old_rstat is a _sparse_ map". -/
def projectToSparse (ofirst last : ℕ) : Checked (ℕ × CDir) :=
  match lowerBound d.dirtyOldRstat last with
  | none => pure (d.beyondLast ofirst, d.setFirst last (d.beyondLast ofirst))
  | some (k, p) =>
    if p.first ≤ last then
      let first := max ofirst p.first
      pure (first, (d.cutAround k p ofirst last).setFirst last first)
    else do
      -- The first interval that ends in the range, not the last one before `last`.
      let q ← deref (lowerBound d.dirtyOldRstat ofirst)
      let first := if q.2.first ≤ last ∧ ofirst ≤ q.1 then q.1 + 1 else ofirst
      pure (first, d.setFirst last first)

/-- The segment that ends at `last` and is to be changed: its first point. -/
def pickSegment (ofirst last : ℕ) : Checked (ℕ × CDir) :=
  if last = cephNosnap then pure (d.projectToHead ofirst)
  else if d.first ≤ last then pure (d.first, d.cow last)
  else d.projectToSparse ofirst last

/-- `prstat->add(delta)`. -/
def addTo (last : ℕ) (delta : NestInfo) : CDir :=
  if last = cephNosnap then { d with fnode := { d.fnode with rstat := d.fnode.rstat.add delta } }
  else
    match d.dirtyOldRstat[last]? with
    | none => d
    | some p => { d with
        dirtyOldRstat := d.dirtyOldRstat.insert last { p with value := { p.value with rstat := p.value.rstat.add delta } } }

/-- `while (last >= ofirst)`. -/
def projectSegments (ofirst : ℕ) (delta : NestInfo) : ℕ → ℕ → CDir → Checked CDir
  | 0, _, _ => .error .fuel
  | fuel + 1, last, d =>
    if last < ofirst then pure d
    else do
      let (first, d) ← d.pickSegment ofirst last
      assert (first ≤ last)
      projectSegments ofirst delta fuel (pred first) (d.addTo last delta)

end CDir

/-- What an inode has to pass on. -/
def inodeDelta (inode : Inode) (linkunlink : ℤ) : NestInfo :=
  if linkunlink = 0 then (NestInfo.zero.add inode.rstat).sub inode.accountedRstat
  else if linkunlink < 0 then NestInfo.zero.sub inode.accountedRstat
  else NestInfo.zero.add inode.rstat

/-- `_project_rstat_inode_to_frag`. -/
def projectRstatInodeToFrag (inode : Inode) (ofirst last : ℕ) (parent : CDir) (linkunlink : ℤ) :
    Checked (Inode × CDir) := do
  let d ← CDir.projectSegments ofirst (inodeDelta inode linkunlink) (last + 2) last parent
  pure ({ inode with accountedRstat := inode.rstat }, d)

/-! ## To the inode -/

/-- An inode: the interval of its current version, this version as it is
projected, and the older ones. -/
structure CInode where
  first : ℕ
  last : ℕ
  inode : Inode
  oldInodes : Pieces Inode
  dirtyOldRstats : Finset ℕ

namespace CInode

variable (pin : CInode)

/-- `cow_old_inode`. -/
def cowOldInode (follows : ℕ) : CInode :=
  { pin with first := follows + 1, oldInodes := pin.oldInodes.insert follows ⟨pin.first, pin.inode⟩ }

/-- "Splitting right". -/
def splitRight (k last : ℕ) : CInode :=
  if last < k then
    { pin with oldInodes := splitAt pin.oldInodes k last, dirtyOldRstats := insert k pin.dirtyOldRstats }
  else pin

/-- "Splitting left". -/
def splitLeft (first ofirst last : ℕ) : ℕ × CInode :=
  if first < ofirst then
    (ofirst, { pin with
      oldInodes := splitAt pin.oldInodes last (pred ofirst)
      dirtyOldRstats := insert (pred ofirst) pin.dirtyOldRstats })
  else (first, pin)

/-- An old version that ends at `last`, and where it begins; there may be none. -/
def pickOld (last : ℕ) : Option (ℕ × CInode) :=
  if pin.first ≤ last then some (pin.first, pin.cowOldInode last)
  else
    match lowerBound pin.oldInodes last with
    | none => none
    | some (k, p) => if last < p.first then none else some (p.first, pin.splitRight k last)

/-- `pi->rstat.add(delta)`, to the current version. -/
def addToHead (delta : NestInfo) : CInode :=
  { pin with inode := { pin.inode with rstat := pin.inode.rstat.add delta } }

/-- `pi->rstat.add(delta)`, to an old version. -/
def addToOld (last : ℕ) (delta : NestInfo) : CInode :=
  match pin.oldInodes[last]? with
  | none => pin
  | some p => { pin with
      oldInodes := pin.oldInodes.insert last { p with value := { p.value with rstat := p.value.rstat.add delta } }
      dirtyOldRstats := insert last pin.dirtyOldRstats }

/-- `while (last >= ofirst)`. -/
def projectSegments (ofirst : ℕ) (delta : NestInfo) : ℕ → ℕ → CInode → Checked CInode
  | 0, _, _ => .error .fuel
  | fuel + 1, last, pin =>
    if last < ofirst then pure pin
    else if last = pin.last then
      let first := max ofirst pin.first
      let pin := if pin.first < first then pin.cowOldInode (pred first) else pin
      projectSegments ofirst delta fuel (pred first) (pin.addToHead delta)
    else
      match pin.pickOld last with
      | none => pure pin
      | some (first, pin) =>
        let (first, pin) := pin.splitLeft first ofirst last
        projectSegments ofirst delta fuel (pred first) (pin.addToOld last delta)

end CInode

/-- `project_rstat_frag_to_inode`. -/
def projectRstatFragToInode (rstat accountedRstat : NestInfo) (ofirst last : ℕ) (pin : CInode) : Checked CInode :=
  CInode.projectSegments ofirst (rstat.sub accountedRstat) (last + 2) last pin

end CephMds.Versions
