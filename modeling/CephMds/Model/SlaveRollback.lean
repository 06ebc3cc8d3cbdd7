import CephMds.Model.SlaveRename
import CephMds.Model.Stat

/-!
# Links and removals on a slave, and their rollbacks

`handle_slave_link_prep`, `_logged_slave_link`, `do_link_rollback` and
`_link_rollback_finish`, over the statistics of `predirty_journal_parents`; and
`handle_slave_rmdir_prep`, `_logged_slave_rmdir`, `do_rmdir_rollback` and
`_rmdir_rollback_finish`, over the subtree map. `CDentry` is not in the
repository: what the server relies on of it is `DentryClass`. The tree with
the directory in the stray directory is given, as is the one to go back to.
Journaling, versions, messages, and the trimming of a rank in resolve are left
out.
-/

namespace CephMds.SlaveRollback

open Checked Stat
open SlaveRename (Linkage)

/-! ## A link -/

section Link

variable {ι α : Type}

/-- The fields of the inodes and of the fnodes that a slave link touches. -/
structure Fields (ι α : Type) where
  stats : Stats ι α
  nlink : ι → ℤ

/-- The fields that are in effect, and those that the update in flight has projected. -/
structure LinkSlave (ι α : Type) where
  fields : Fields ι α
  projected : Option (Fields ι α)

/-- `link_rollback`. -/
structure LinkRollback (ι : Type) where
  ino : ι
  wasInc : Bool
  oldCtime : ℕ
  oldDirMtime : ℕ
  oldDirRctime : ℕ

/-- What `project_inode` and `project_fnode` start from. -/
def LinkSlave.latest (s : LinkSlave ι α) : Fields ι α := s.projected.getD s.fields

/-- `pop_and_dirty_projected_inode` and `MutationImpl::apply`. -/
def LinkSlave.apply (s : LinkSlave ι α) : Checked (LinkSlave ι α) := do
  assert s.projected.isSome
  return { fields := s.latest, projected := none }

/-- "Parent dir rctime". -/
def restoreTimes (rb : LinkRollback ι) (ctime : ℕ) (pf : Fnode) : Fnode :=
  if pf.fragstat.mtime = ctime then
    { pf with
      fragstat := { pf.fragstat with mtime := rb.oldDirMtime }
      rstat := if pf.rstat.rctime = ctime then { pf.rstat with rctime := rb.oldDirRctime } else pf.rstat }
  else pf

variable [DecidableEq ι] [DecidableEq α]

/-- `handle_slave_link_prep`, for `OP_LINKPREP` (`inc`) and `OP_UNLINKPREP`,
with the stamp of the operation. -/
def handleSlaveLinkPrep (t : Names ι α) (locks : Locks α) (stamp : ℕ) (s : LinkSlave ι α) (i : ι) (inc : Bool) :
    Checked (LinkRollback ι × LinkSlave ι α) := do
  let parent ← deref (t.parentDir i)
  let v := s.latest
  let pf := v.stats.fnode parent
  let rollback : LinkRollback ι := {
    ino := i
    wasInc := inc
    oldCtime := (s.fields.stats.inode i).ctime
    oldDirMtime := pf.fragstat.mtime
    oldDirRctime := pf.rstat.rctime }
  let nlink := Function.update v.nlink i (v.nlink i + if inc then 1 else -1)
  let stats := v.stats.setInode i { v.stats.inode i with ctime := stamp }
  -- `PREDIRTY_SHALLOW|PREDIRTY_PRIMARY`
  let r ← predirtyJournalParents t locks stamp stats i none true false true 0
  return (rollback, { s with projected := some { stats := r.1, nlink } })

/-- `_logged_slave_link`. -/
def loggedSlaveLink (s : LinkSlave ι α) : Checked (LinkSlave ι α) := s.apply

/-- `do_link_rollback`. -/
def doLinkRollback (t : Names ι α) (rb : LinkRollback ι) (s : LinkSlave ι α) : Checked (LinkSlave ι α) := do
  assert s.projected.isNone
  let parent ← deref (t.parentDir rb.ino)
  let v := s.fields
  let pi := v.stats.inode rb.ino
  let stats := v.stats.setFnode parent (restoreTimes rb pi.ctime (v.stats.fnode parent))
  let stats := stats.setInode rb.ino { pi with ctime := rb.oldCtime }
  let nlink := Function.update v.nlink rb.ino (v.nlink rb.ino + if rb.wasInc then -1 else 1)
  return { s with projected := some { stats, nlink } }

/-- `_link_rollback_finish`. -/
def linkRollbackFinish (s : LinkSlave ι α) : Checked (LinkSlave ι α) := s.apply

/-- A link that is prepared, logged and rolled back. -/
def linkAndRollback (t : Names ι α) (locks : Locks α) (stamp : ℕ) (s : LinkSlave ι α) (i : ι) (inc : Bool) :
    Checked (LinkSlave ι α) := do
  let (rb, s) ← handleSlaveLinkPrep t locks stamp s i inc
  let s ← loggedSlaveLink s
  let s ← doLinkRollback t rb s
  linkRollbackFinish s

end Link

/-! ## A removal -/

section Rmdir

/-- `CDentry`: a linkage, and those that are projected, in order. Popping the
first of them onto a dentry without linkage puts it into effect. -/
structure DentryClass (ι D : Type) where
  linkage : D → Linkage ι
  projected : D → List (Linkage ι)
  setLinkage : Linkage ι → D → D
  pushProjectedLinkage : Linkage ι → D → D
  popProjectedLinkage : D → Checked D
  linkage_set (l : Linkage ι) (d : D) : linkage (setLinkage l d) = l
  projected_set (l : Linkage ι) (d : D) : projected (setLinkage l d) = projected d
  linkage_push (l : Linkage ι) (d : D) : linkage (pushProjectedLinkage l d) = linkage d
  projected_push (l : Linkage ι) (d : D) : projected (pushProjectedLinkage l d) = projected d ++ [l]
  pop {l : Linkage ι} {ls : List (Linkage ι)} {d : D} : linkage d = .null → projected d = l :: ls →
    ∃ d', popProjectedLinkage d = .ok d' ∧ linkage d' = l ∧ projected d' = ls

/-- The cache of the slave. -/
structure RmdirSlave (ι α δ L D : Type) where
  cache : Cache ι α L
  dir : δ → α
  dentry : δ → D
  first : ι → ℕ
  dnFirst : δ → ℕ

/-- `rmdir_rollback`, with a dentry for its fragment and name. -/
structure RmdirRollback (δ : Type) where
  src : δ
  dest : δ

variable {ι α δ L D : Type} [LinearOrder α] [DecidableEq ι] [DecidableEq δ]

namespace RmdirSlave

def setDentry (s : RmdirSlave ι α δ L D) (dn : δ) (d : D) : RmdirSlave ι α δ L D :=
  { s with dentry := Function.update s.dentry dn d }

variable (K : DentryClass ι D)

/-- `CDir::unlink_inode`. -/
def unlinkInode (s : RmdirSlave ι α δ L D) (dn : δ) : Checked (RmdirSlave ι α δ L D) := do
  let l := K.linkage (s.dentry dn)
  assert (l.isRemote || l.isPrimary)
  return s.setDentry dn (K.setLinkage .null (s.dentry dn))

/-- `CDir::link_primary_inode`. -/
def linkPrimaryInode (s : RmdirSlave ι α δ L D) (dn : δ) (i : ι) : Checked (RmdirSlave ι α δ L D) := do
  assert (K.linkage (s.dentry dn)).isNull
  return s.setDentry dn (K.setLinkage (.primary i) (s.dentry dn))

def pushProjected (s : RmdirSlave ι α δ L D) (dn : δ) (l : Linkage ι) : RmdirSlave ι α δ L D :=
  s.setDentry dn (K.pushProjectedLinkage l (s.dentry dn))

def popProjected (s : RmdirSlave ι α δ L D) (dn : δ) : Checked (RmdirSlave ι α δ L D) := do
  let d ← K.popProjectedLinkage (s.dentry dn)
  return s.setDentry dn d

/-- `CInode::has_subtree_root_dirfrag`. -/
def hasSubtreeRootDirfrag (s : RmdirSlave ι α δ L D) (whoami : ℤ) (i : ι) : Bool :=
  (s.cache.tree.dirfrags i).any fun d => s.cache.isSubtreeRoot d && (s.cache.dirAuth d).first = whoami

variable [AddCommGroup L] (I : InodeAuthority ι α)

/-- `adjust_subtree_after_rename`, once the inode is where it is in `tree`. -/
def adjustSubtrees (s : RmdirSlave ι α δ L D) (tree : DirTree ι α) (i : ι) (olddir : α) (pop : Bool) :
    Checked (RmdirSlave ι α δ L D) := do
  let c ← Cache.adjustSubtreeAfterRename I { s.cache with tree } i olddir pop
  return { s with cache := c }

/-- "No auth subtree, skipping journal". -/
def rmdirUnjournaled (s : RmdirSlave ι α δ L D) (dn straydn : δ) (i : ι) (moved : DirTree ι α) :
    Checked (RmdirSlave ι α δ L D) := do
  let s ← s.unlinkInode K dn
  let s ← s.linkPrimaryInode K straydn i
  assert (s.first i ≤ s.dnFirst straydn)
  let s := { s with first := Function.update s.first i (s.dnFirst straydn) }
  s.adjustSubtrees I moved i (s.dir dn) false

omit [AddCommGroup L] in
/-- The linkages and the rename that are journaled with the removal. -/
def rmdirProject (s : RmdirSlave ι α δ L D) (dn straydn : δ) (i : ι) : RmdirSlave ι α δ L D :=
  let s := s.pushProjected K straydn (.primary i)
  let s := s.pushProjected K dn .null
  { s with cache := s.cache.projectSubtreeRename i (s.dir dn) (s.dir straydn) }

/-- `handle_slave_rmdir_prep`, with `slave_update_journaled`. -/
def handleSlaveRmdirPrep (whoami : ℤ) (s : RmdirSlave ι α δ L D) (dn straydn : δ) (moved : DirTree ι α) :
    Checked (RmdirRollback δ × Bool × RmdirSlave ι α δ L D) := do
  let i ← deref (K.linkage (s.dentry dn)).inode
  if s.hasSubtreeRootDirfrag whoami i then return (⟨dn, straydn⟩, true, s.rmdirProject K dn straydn i)
  else do
    let s ← s.rmdirUnjournaled K I dn straydn i moved
    return (⟨dn, straydn⟩, false, s)

/-- `_logged_slave_rmdir`. -/
def loggedSlaveRmdir (s : RmdirSlave ι α δ L D) (dn straydn : δ) (moved : DirTree ι α) :
    Checked (RmdirSlave ι α δ L D) := do
  let i ← deref (K.linkage (s.dentry dn)).inode
  let s ← s.unlinkInode K dn
  let s ← s.popProjected K straydn
  let s ← s.popProjected K dn
  s.adjustSubtrees I moved i (s.dir dn) true

/-- The rollback of a removal that has not been journaled. -/
def rollbackUnjournaled (whoami : ℤ) (s : RmdirSlave ι α δ L D) (dn straydn : δ) (i : ι) (back : DirTree ι α) :
    Checked (RmdirSlave ι α δ L D) := do
  assert (!s.hasSubtreeRootDirfrag whoami i)
  let s ← s.unlinkInode K straydn
  let s ← s.linkPrimaryInode K dn i
  s.adjustSubtrees I back i (s.dir straydn) false

omit [AddCommGroup L] in
/-- What is journaled with the rollback of one that has. -/
def rollbackProject (s : RmdirSlave ι α δ L D) (dn straydn : δ) (i : ι) : RmdirSlave ι α δ L D :=
  let s := s.pushProjected K dn (.primary i)
  let s := s.pushProjected K straydn .null
  { s with cache := s.cache.projectSubtreeRename i (s.dir straydn) (s.dir dn) }

/-- `do_rmdir_rollback`. -/
def doRmdirRollback (whoami : ℤ) (rb : RmdirRollback δ) (journaled : Bool) (s : RmdirSlave ι α δ L D)
    (back : DirTree ι α) : Checked (RmdirSlave ι α δ L D) := do
  let i ← deref (K.linkage (s.dentry rb.dest)).inode
  if !journaled then s.rollbackUnjournaled K I whoami rb.src rb.dest i back
  else return s.rollbackProject K rb.src rb.dest i

/-- `_rmdir_rollback_finish`. -/
def rmdirRollbackFinish (s : RmdirSlave ι α δ L D) (dn straydn : δ) (back : DirTree ι α) :
    Checked (RmdirSlave ι α δ L D) := do
  let s ← s.unlinkInode K straydn
  let s ← s.popProjected K dn
  let s ← s.popProjected K straydn
  let i ← deref (K.linkage (s.dentry dn)).inode
  s.adjustSubtrees I back i (s.dir straydn) true

/-- A removal that is prepared, logged where it is journaled, and rolled back. -/
def rmdirAndRollback (whoami : ℤ) (s : RmdirSlave ι α δ L D) (dn straydn : δ) (moved back : DirTree ι α) :
    Checked (RmdirSlave ι α δ L D) := do
  let (rb, journaled, s) ← s.handleSlaveRmdirPrep K I whoami dn straydn moved
  if journaled then do
    let s ← s.loggedSlaveRmdir K I dn straydn moved
    let s ← s.doRmdirRollback K I whoami rb journaled back
    s.rmdirRollbackFinish K I rb.src rb.dest back
  else s.doRmdirRollback K I whoami rb journaled back

end RmdirSlave

end Rmdir

end CephMds.SlaveRollback
