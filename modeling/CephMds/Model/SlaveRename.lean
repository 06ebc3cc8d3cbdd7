import CephMds.Model.Subtree
import Mathlib

/-!
# The slave of a rename

What `Server.cc` decides on a slave about the journal of a rename:
`_need_force_journal`, the metablob of `_rename_prepare`, the changes of
`_rename_apply` to the linkages and the subtree map, and `do_rename_rollback`
with its assertions. A fragment, an inode and a dentry are pointers; a dentry
has the authority of its fragment, and an inode is linked at `parentDn`. The
trees after the rename are given with it. `EMetaBlob` is not in the repository:
of a metablob it matters only whether it is empty (`MetaBlob`).
-/

namespace CephMds.SlaveRename

inductive Linkage (ι : Type)
  | null
  | primary (i : ι)
  | remote (i : ι)
  deriving DecidableEq

namespace Linkage

variable {ι : Type}

def inode : Linkage ι → Option ι
  | null => Option.none
  | primary i => some i
  | remote i => some i

def isPrimary : Linkage ι → Bool
  | primary _ => true
  | _ => false

def isRemote : Linkage ι → Bool
  | remote _ => true
  | _ => false

def isNull : Linkage ι → Bool
  | null => true
  | _ => false

/-- The inode of a primary linkage. -/
def ino : Linkage ι → Option ι
  | primary i => some i
  | _ => Option.none

/-- The inode of a remote linkage. -/
def remoteIno : Linkage ι → Option ι
  | remote i => some i
  | _ => Option.none

end Linkage

/-- What is added to a metablob. Only a dentry is sure to make it non-empty;
the inode that is noted as renamed does not count. -/
structure MetaBlob (ι α δ B : Type) where
  start : B
  empty : B → Bool
  addPrimaryDentry : δ → B → B
  addRemoteDentry : δ → B → B
  addNullDentry : δ → B → B
  addDirContext : α → B → B
  addDir : α → B → B
  journalCowDentry : δ → B → B
  predirtyJournalParents : ι → α → B → B
  noteRenamedDir : ι → B → B
  empty_start : empty start = true
  empty_addPrimaryDentry (d : δ) (b : B) : empty (addPrimaryDentry d b) = false
  empty_addRemoteDentry (d : δ) (b : B) : empty (addRemoteDentry d b) = false
  empty_addNullDentry (d : δ) (b : B) : empty (addNullDentry d b) = false
  empty_addDirContext {d : α} {b : B} : empty b = false → empty (addDirContext d b) = false
  empty_addDir {d : α} {b : B} : empty b = false → empty (addDir d b) = false
  empty_journalCowDentry {d : δ} {b : B} : empty b = false → empty (journalCowDentry d b) = false
  empty_predirty {i : ι} {d : α} {b : B} : empty b = false → empty (predirtyJournalParents i d b) = false
  empty_noteRenamedDir (i : ι) (b : B) : empty (noteRenamedDir i b) = empty b

/-- The cache of the slave. -/
structure Slave (ι α δ L : Type) where
  cache : Cache ι α L
  /-- The tree with the projected linkages. -/
  projected : DirTree ι α
  dir : δ → α
  linkage : δ → Linkage ι
  parentDn : ι → Option δ
  isDir : ι → Bool
  isStray : ι → Bool
  hasDentry : δ → Bool
  hasInode : ι → Bool

structure Rename (δ : Type) where
  srcdn : δ
  destdn : δ
  straydn : Option δ

/-- `rename_rollback::drec`, with the dentry for its fragment and name. -/
structure Drec (ι δ : Type) where
  dn : δ
  ino : Option ι
  remoteIno : Option ι

structure RenameRollback (ι δ : Type) where
  origSrc : Drec ι δ
  origDest : Drec ι δ
  stray : Option δ

variable {ι α δ L B : Type} [LinearOrder α] [DecidableEq ι] [DecidableEq δ]

open Checked

namespace Slave

section Reading

variable (I : InodeAuthority ι α) (whoami : ℤ) (s : Slave ι α δ L)

def dentryIsAuth (d : δ) : Bool := (s.cache.authority I (s.dir d)).first = whoami

def inodeIsAuth (i : ι) : Bool := (I.authority s.cache.tree s.cache.dirAuth i).first = whoami

/-- `CDir::contains`, along the projected parents. -/
def contains (d x : α) : Bool := (s.projected.forest.nearest (fun y => y = d) x).isSome

/-- Is the fragment a subtree root of this rank? -/
def isAuthRoot (d : α) : Bool := s.cache.isSubtreeRoot d && (s.cache.dirAuth d).first = whoami

/-- `_need_force_journal`. -/
def needForceJournal (diri : ι) (empty : Bool) : Bool :=
  if empty then (s.cache.tree.dirfrags diri).any (s.isAuthRoot whoami)
  else (s.cache.tree.dirfrags diri).any fun dir =>
    ∃ q ∈ s.cache.tree.dirs, (s.cache.subtrees q).isSome ∧ s.contains dir q ∧ (s.cache.dirAuth q).first = whoami

end Reading

/-! ## `_rename_prepare` -/

section Prepare

variable (I : InodeAuthority ι α) (whoami : ℤ) (s : Slave ι α δ L) (r : Rename δ)

def srcdnl : Linkage ι := s.linkage r.srcdn
def destdnl : Linkage ι := s.linkage r.destdn

def linkmerge : Bool :=
  (s.srcdnl r).inode = (s.destdnl r).inode ∧ ((s.srcdnl r).isPrimary ∨ (s.destdnl r).isPrimary)

/-- `force_journal_dest`, for the source inode. -/
def forceJournalDest (srci : ι) : Bool :=
  s.isDir srci && !s.dentryIsAuth I whoami r.destdn &&
    (s.inodeIsAuth I whoami srci || s.needForceJournal whoami srci false)

/-- `force_journal_stray`. -/
def forceJournalStray : Bool :=
  (s.destdnl r).inode.any fun oldin => s.isDir oldin &&
    r.straydn.any (fun straydn => !s.dentryIsAuth I whoami straydn) && s.needForceJournal whoami oldin true

variable (M : MetaBlob ι α δ B)

/-- `get_projected_parent_dn()->is_auth()`. -/
def parentIsAuth (i : ι) : Bool := (s.parentDn i).any (s.dentryIsAuth I whoami)

/-- The primary dentry of an inode that is linked elsewhere. -/
def addInode (i : ι) (b : B) : B :=
  match s.parentDn i with
  | some dn => M.addPrimaryDentry dn (M.addDirContext (s.dir dn) b)
  | none => b

/-- The same for an inode that changes, with the copy-on-write of its dentry. -/
def addInodeCow (i : ι) (b : B) : B :=
  match s.parentDn i with
  | some dn => M.addPrimaryDentry dn (M.journalCowDentry dn (M.addDirContext (s.dir dn) b))
  | none => b

/-- "Noting renamed dir ino". -/
def noteRenamed (srci : ι) (b : B) : B :=
  if s.isDir srci && (s.dentryIsAuth I whoami r.destdn || s.forceJournalDest I whoami r srci) then
    M.noteRenamedDir srci b
  else if s.forceJournalStray I whoami r then (s.destdnl r).inode.elim b fun oldin => M.noteRenamedDir oldin b
  else b

/-- "Guarantee stray dir is processed first". -/
def addStray (b : B) : Checked B := do
  assert ((s.destdnl r).isPrimary → r.straydn.isSome)
  return if (s.destdnl r).isPrimary then r.straydn.elim b fun straydn =>
      if s.dentryIsAuth I whoami straydn then M.addDir (s.dir straydn) (M.addDirContext (s.dir straydn) b) else b
    else b

/-- The nested updates: the stray directory first, then the dentries of which the rank has the authority. -/
def predirty (srci : ι) (b : B) : Checked B := do
  let b ← s.addStray I whoami r M b
  let b := if s.dentryIsAuth I whoami r.destdn then
      let b := (s.destdnl r).inode.elim b fun oldin => M.predirtyJournalParents oldin (s.dir r.destdn) b
      (s.destdnl r).ino.elim b fun oldin => r.straydn.elim b fun straydn =>
        M.predirtyJournalParents oldin (s.dir straydn) b
    else b
  let b := if s.dentryIsAuth I whoami r.srcdn then M.predirtyJournalParents srci (s.dir r.srcdn) b else b
  return if s.dentryIsAuth I whoami r.destdn then M.predirtyJournalParents srci (s.dir r.destdn) b else b

/-- "Target inode". -/
def addTarget (b : B) : B :=
  if s.linkmerge r then b
  else match s.destdnl r with
    | .primary _ => r.straydn.elim b fun straydn =>
      if s.dentryIsAuth I whoami r.destdn then M.addPrimaryDentry straydn b
      else if s.forceJournalStray I whoami r then M.addPrimaryDentry straydn (M.addDirContext (s.dir straydn) b)
      else b
    | .remote oldin => if s.inodeIsAuth I whoami oldin then s.addInodeCow M oldin b else b
    | .null => b

/-- `journal_cow_dentry` of the destination. -/
def cowDest (b : B) : B :=
  if s.dentryIsAuth I whoami r.destdn && !(s.destdnl r).isNull then M.journalCowDentry r.destdn b else b

/-- "Dest". -/
def addDest (b : B) : B :=
  match s.srcdnl r with
  | .remote srci =>
    let b := s.cowDest I whoami r M b
    if s.linkmerge r then
      if s.dentryIsAuth I whoami r.destdn then M.addPrimaryDentry r.destdn b else b
    else
      let b := if s.dentryIsAuth I whoami r.destdn then M.addRemoteDentry r.destdn b else b
      if s.parentIsAuth I whoami srci then s.addInodeCow M srci b else b
  | .primary srci =>
    let b := s.cowDest I whoami r M b
    if s.dentryIsAuth I whoami r.destdn then M.addPrimaryDentry r.destdn b
    else if s.forceJournalDest I whoami r srci then
      let b := M.addPrimaryDentry r.destdn (M.addDirContext (s.dir r.destdn) b)
      if s.dentryIsAuth I whoami r.srcdn && s.isDir srci then
        ((s.cache.tree.dirfrags srci).filter fun d => (s.cache.authority I d).first = whoami).foldl
          (fun b d => M.addDir d b) b
      else b
    else b
  | .null => b

/-- "Src". -/
def addSrc (b : B) : B :=
  if s.dentryIsAuth I whoami r.srcdn then
    let b := M.journalCowDentry r.srcdn b
    let b := if (s.srcdnl r).ino.any (fun srci => !s.isDir srci) && !s.dentryIsAuth I whoami r.destdn then
        M.addPrimaryDentry r.srcdn b
      else b
    M.addNullDentry r.srcdn b
  else b

/-- The metablob of `_rename_prepare`. -/
def renamePrepare : Checked B := do
  let srci ← deref (s.srcdnl r).inode
  let b ← s.predirty I whoami r M srci (s.noteRenamed I whoami r M srci M.start)
  return s.addSrc I whoami r M (s.addDest I whoami r M (s.addTarget I whoami r M b))

end Prepare

/-! ## `handle_slave_rename_prep` and `_rename_apply` -/

/-- The record of a dentry. -/
def drec (s : Slave ι α δ L) (dn : δ) : Drec ι δ := ⟨dn, (s.linkage dn).ino, (s.linkage dn).remoteIno⟩

/-- "Encode everything we'd need to roll this back". -/
def rollback (s : Slave ι α δ L) (r : Rename δ) : RenameRollback ι δ := ⟨s.drec r.srcdn, s.drec r.destdn, r.straydn⟩

def setLinkage (s : Slave ι α δ L) (dn : δ) (l : Linkage ι) : Slave ι α δ L :=
  { s with linkage := Function.update s.linkage dn l
           parentDn := l.ino.elim s.parentDn fun i => Function.update s.parentDn i (some dn) }

/-- "Merging remote onto primary link". -/
def mergesRemote (s : Slave ι α δ L) (r : Rename δ) : Bool := s.linkmerge r && (s.srcdnl r).isRemote

/-- The linkages after the rename: the overwritten inode goes to the stray
dentry, and a primary link stays when a remote link is merged onto it. -/
def relink (s : Slave ι α δ L) (r : Rename δ) : Slave ι α δ L :=
  let x := r.straydn.elim s fun straydn => s.setLinkage straydn (s.destdnl r)
  let x := if s.mergesRemote r then x else x.setLinkage r.destdn (s.srcdnl r)
  x.setLinkage r.srcdn .null

/-- The subtree map is to follow an inode, if it is a directory with a primary link. -/
def projectMove (s : Slave ι α δ L) (l : Linkage ι) (olddir newdir : α) (c : Cache ι α L) : Cache ι α L :=
  l.ino.elim c fun i => if s.isDir i then c.projectSubtreeRename i olddir newdir else c

variable [AddCommGroup L]

/-- The subtree map follows it. -/
def adjustMove (I : InodeAuthority ι α) (s : Slave ι α δ L) (l : Linkage ι) (olddir : α) (c : Cache ι α L) :
    Checked (Cache ι α L) :=
  match l with
  | .primary i => if s.isDir i then c.adjustSubtreeAfterRename I i olddir true else return c
  | _ => return c

/-- And the overwritten inode. -/
def adjustStray (I : InodeAuthority ι α) (s : Slave ι α δ L) (r : Rename δ) (c : Cache ι α L) :
    Checked (Cache ι α L) :=
  if r.straydn.isSome then s.adjustMove I (s.destdnl r) (s.dir r.destdn) c else return c

/-- `_rename_apply`, to the trees after the rename. -/
def renameApply (I : InodeAuthority ι α) (s : Slave ι α δ L) (r : Rename δ) (tree projected : DirTree ι α) :
    Checked (Slave ι α δ L) := do
  let c := r.straydn.elim s.cache fun straydn =>
    s.projectMove (s.destdnl r) (s.dir r.destdn) (s.dir straydn) s.cache
  let c := s.projectMove (s.srcdnl r) (s.dir r.srcdn) (s.dir r.destdn) c
  let c ← s.adjustMove I (s.srcdnl r) (s.dir r.srcdn) { c with tree }
  let c ← s.adjustStray I r c
  return { s.relink r with cache := c, projected }

/-! ## `do_rename_rollback` -/

/-- What `do_rename_rollback` finds in the cache. -/
structure Found (ι δ : Type) where
  srcdn : Option δ
  destdn : Option δ
  straydn : Option δ
  inode : Option ι
  target : Option ι

omit [AddCommGroup L] in
/-- `get_dirfrag` and `lookup`. -/
def lookup (s : Slave ι α δ L) (dn : δ) : Option δ :=
  if s.dir dn ∈ s.cache.tree.dirs ∧ s.hasDentry dn then some dn else none

/-- `get_inode`. -/
def getInode (s : Slave ι α δ L) (i : Option ι) : Option ι := i.filter s.hasInode

def find (s : Slave ι α δ L) (rb : RenameRollback ι δ) : Found ι δ where
  srcdn := s.lookup rb.origSrc.dn
  destdn := s.lookup rb.origDest.dn
  straydn := rb.stray.bind s.lookup
  inode := s.getInode (rb.origSrc.ino <|> rb.origSrc.remoteIno)
  target := s.getInode (rb.origDest.ino <|> rb.origDest.remoteIno)

section Rollback

variable (I : InodeAuthority ι α) (whoami : ℤ) (s : Slave ι α δ L) (rb : RenameRollback ι δ)

/-- The dentry is found, and the rank has its authority. -/
def foundAuth (dn : Option δ) : Bool := dn.any (s.dentryIsAuth I whoami)

/-- `force_journal_src`. -/
def forceRollbackSrc (f : Found ι δ) : Bool :=
  f.inode.any fun i => s.isDir i && !s.foundAuth I whoami f.srcdn && s.needForceJournal whoami i false

/-- `force_journal_dest`. -/
def forceRollbackDest (f : Found ι δ) : Bool :=
  f.inode.any fun i => f.target.any s.isDir && s.needForceJournal whoami i true

/-- "Journal it". -/
def rollbackBlob (M : MetaBlob ι α δ B) (f : Found ι δ) : B :=
  let b := f.srcdn.elim M.start fun srcdn =>
    if s.dentryIsAuth I whoami srcdn || s.forceRollbackSrc I whoami f then
      let b := M.addDirContext (s.dir srcdn) M.start
      if rb.origSrc.ino.isSome then M.addPrimaryDentry srcdn b else M.addRemoteDentry srcdn b
    else M.start
  let b := f.inode.elim b fun i =>
    if rb.origSrc.ino.isNone && s.inodeIsAuth I whoami i then s.addInode M i b else b
  let b := if s.forceRollbackDest whoami f then
      f.destdn.elim b fun destdn => M.addPrimaryDentry destdn (M.addDirContext (s.dir destdn) b)
    else b
  let b := f.target.elim b fun t =>
    if f.target ≠ f.inode && s.inodeIsAuth I whoami t then s.addInode M t b else b
  if s.forceRollbackDest whoami f then f.target.elim b fun t => M.noteRenamedDir t b
  else f.inode.elim b fun i =>
    if s.forceRollbackSrc I whoami f || s.isDir i && s.foundAuth I whoami f.srcdn then M.noteRenamedDir i b else b

/-- Is the dentry in a stray directory? -/
def inStray (dn : δ) : Bool := (s.cache.tree.inode (s.dir dn)).any s.isStray

/-- `do_rename_rollback`: the assertions, and the metablob. With `journaled`,
the prepare has been journaled; `resolve` is `mds->is_resolve()`. -/
def doRenameRollback (M : MetaBlob ι α δ B) (journaled resolve : Bool) : Checked B := do
  let f := s.find rb
  assert (∀ dn ∈ f.srcdn, s.linkage dn = .null)
  assert (rb.origSrc.ino.isSome → f.inode.any s.isDir → f.srcdn.isSome ∧ f.destdn.isSome)
  assert (∀ dn ∈ f.straydn, (s.linkage dn).isPrimary)
  assert (rb.origDest.ino.isSome → f.target.isSome → f.destdn.isSome ∧ f.straydn.isSome)
  assert (s.foundAuth I whoami f.destdn = false)
  assert (s.foundAuth I whoami f.straydn = false)
  assert (f.srcdn.isSome → rb.origSrc.ino.isSome → f.inode.isSome)
  assert (f.destdn.isSome → f.target.isNone → rb.origDest.ino.isSome → resolve)
  assert (f.target.isSome → s.inStray rb.origSrc.dn → s.inStray rb.origDest.dn →
    rb.origDest.ino.isNone ∧ rb.origDest.remoteIno.isNone)
  assert (f.target.isSome → s.inStray rb.origSrc.dn → s.inStray rb.origDest.dn = false →
    rb.origDest.remoteIno.isSome ∧ rb.origDest.remoteIno = rb.origSrc.ino)
  assert (s.forceRollbackDest whoami f → rb.origDest.ino.isSome)
  assert (f.target ≠ f.inode → f.target.any (s.inodeIsAuth I whoami) → rb.origDest.remoteIno.isSome)
  assert (f.target.any s.isDir → f.destdn.isSome)
  assert (f.inode.any s.isDir → f.srcdn.isSome)
  assert (M.empty (s.rollbackBlob I whoami rb M f) = !journaled)
  return s.rollbackBlob I whoami rb M f

end Rollback

end Slave

end CephMds.SlaveRename
