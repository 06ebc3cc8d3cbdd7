import CephMds.Framework.Check
import CephMds.Framework.Run
import Mathlib.Data.List.MinMax

/-!
# Purging dentries of destroyed snapshots

A directory fragment on disk (the header and the omap of its object) and in
the cache, with `CDir::_omap_fetched`, `CDir::_omap_commit`,
`CDir::try_trim_snap_dentry` and the purge of `Server::handle_client_readdir`.
A write is applied when it is submitted: the object store keeps their order.
`added` is the history of the dentries that fetches have added.
-/

namespace CephMds.Purge

open Checked

variable {ν : Type}

/-- `CEPH_NOSNAP`. -/
def cephNosnap : ℕ := 2 ^ 64 - 2

/-- What the fragment sees of `SnapRealm`. -/
structure Realm where
  snaps : Finset ℕ
  lastDestroyed : ℕ
  pastParentsOpen : Bool

/-- `dentry_key_t`. -/
structure Key (ν : Type) where
  name : ν
  last : ℕ
  deriving DecidableEq

/-- The markers `L` and `I`, with the inode number. -/
inductive Stored
  | remote (ino : ℕ)
  | primary (ino : ℕ)
  deriving DecidableEq

/-- A value of the omap. -/
structure Entry where
  first : ℕ
  stored : Stored
  deriving DecidableEq

/-- An inode in the cache. -/
structure Inode where
  ino : ℕ
  dirty : Bool
  numRef : ℕ
  deriving DecidableEq

inductive Linkage
  | null
  | remote (ino : ℕ)
  | primary (inode : Inode)
  deriving DecidableEq

/-- `CDentry`, whose key has its `last`. -/
structure Dentry where
  first : ℕ
  dirty : Bool
  fragmenting : Bool
  numRef : ℕ
  linkage : Linkage
  deriving DecidableEq

/-- The part of `fnode_t` that is used here. -/
structure Fnode where
  version : ℕ
  snapPurgedThru : ℕ
  deriving DecidableEq

structure CDir (ν : Type) where
  fnode : Fnode
  complete : Bool
  items : List (Key ν × Dentry)

structure State (ν : Type) where
  header : Fnode
  omap : List (Key ν × Entry)
  dir : Option (CDir ν)
  added : List (Key ν × ℕ)

/-! ## Stale dentries -/

/-- `p == snaps.end() || *p > last` for `p = snaps.lower_bound(first)`. -/
def noSnap (snaps : Finset ℕ) (first last : ℕ) : Bool :=
  match (ascending snaps).find? (first ≤ ·) with
  | none => true
  | some p => last < p

/-- A snapped dentry on `[first, last]` without a live snapshot. -/
def isStale (snaps : Finset ℕ) (first last : ℕ) : Bool := last != cephNosnap && noSnap snaps first last

/-- The references of the inode, if there is one, are that of being dirty. -/
def Linkage.unreferenced : Linkage → Bool
  | .primary i => i.numRef == i.dirty.toNat
  | _ => true

/-- Whether `try_trim_snap_dentry` removes the dentry. -/
def trySnapTrim (snaps : Finset ℕ) (last : ℕ) (dn : Dentry) : Bool :=
  noSnap snaps dn.first last && dn.numRef == dn.dirty.toNat && dn.linkage.unreferenced

/-! ## Fetch -/

section Fetch

variable [DecidableEq ν]

/-- `CDir::lookup`. -/
def lookup (items : List (Key ν × Dentry)) (name : ν) (snap : ℕ) : Option (Key ν × Dentry) :=
  ((items.filter fun p => p.1.name = name ∧ snap ≤ p.1.last).argmin (·.1.last)).filter
    (·.2.first ≤ snap)

/-- `add_remote_dentry`, `add_primary_dentry`. -/
def CDir.addDentry (d : CDir ν) (k : Key ν) (first : ℕ) (l : Linkage) : CDir ν :=
  { d with items := (k, ⟨first, false, false, 0, l⟩) :: d.items }

/-- One key of the omap, for the fragment and the dentries added so far. An
inode that the cache has already (`known`) is not added again. -/
def fetchKey (snaps : Option (Finset ℕ)) (known : ℕ → ℕ → Bool) (b : CDir ν × List (Key ν × ℕ))
    (p : Key ν × Entry) : CDir ν × List (Key ν × ℕ) :=
  if snaps.any (isStale · p.2.first p.1.last) then b
  else if (lookup b.1.items p.1.name p.1.last).isSome then b
  else match p.2.stored with
    | .remote ino => (b.1.addDentry p.1 p.2.first (.remote ino), (p.1, p.2.first) :: b.2)
    | .primary ino =>
      if known ino p.1.last then b
      else (b.1.addDentry p.1 p.2.first (.primary ⟨ino, false, 0⟩), (p.1, p.2.first) :: b.2)

/-- "Purge stale snaps?" -/
def purgeSnaps (realm : Realm) (f : Fnode) : Option (Finset ℕ) :=
  if realm.pastParentsOpen && f.snapPurgedThru < realm.lastDestroyed then some realm.snaps else none

/-- "Take the loaded fnode?" -/
def CDir.takeFnode (d : CDir ν) (got : Fnode) : CDir ν :=
  if d.fnode.version = 0 then { d with fnode := got } else d

/-- `CDir::_omap_fetched`, with the dentries it adds. -/
def CDir.omapFetched (d : CDir ν) (realm : Realm) (known : ℕ → ℕ → Bool) (got : Fnode)
    (omap : List (Key ν × Entry)) : CDir ν × List (Key ν × ℕ) :=
  let d := d.takeFnode got
  let snaps := purgeSnaps realm d.fnode
  let thru := if snaps.isSome then realm.lastDestroyed else d.fnode.snapPurgedThru
  let b := omap.reverse.foldl (fetchKey snaps known)
    ({ d with fnode := { d.fnode with snapPurgedThru := thru } }, [])
  ({ b.1 with complete := true }, b.2)

end Fetch

/-! ## Readdir -/

/-- The purge of `Server::handle_client_readdir` for the dentries that it
looks at. -/
def CDir.readdir (d : CDir ν) (realm : Realm) (snapid : ℕ) (visited : Key ν → Bool) :
    Checked (CDir ν) :=
  if realm.lastDestroyed > d.fnode.snapPurgedThru then do
    assert (snapid == cephNosnap || snapid ∈ realm.snaps)
    return { d with
      fnode := { d.fnode with snapPurgedThru := realm.lastDestroyed }
      items := d.items.filter fun (k, dn) =>
        !(visited k && k.last != cephNosnap && trySnapTrim realm.snaps k.last dn) }
  else return d

/-! ## Commit -/

/-- What a commit does with a dentry. -/
inductive Op
  | trim
  | skip
  | rm
  | set (e : Entry)
  deriving DecidableEq

/-- The loop body of `_omap_commit`. -/
def commitOp (snaps : Option (Finset ℕ)) (k : Key ν) (dn : Dentry) : Op :=
  if k.last != cephNosnap && snaps.any (trySnapTrim · k.last dn) then .trim
  else if !dn.dirty && (!dn.fragmenting || dn.linkage == .null) then .skip
  else match dn.linkage with
    | .null => .rm
    | .remote ino => .set ⟨dn.first, .remote ino⟩
    | .primary i => .set ⟨dn.first, .primary i.ino⟩

section Commit

variable [DecidableEq ν]

/-- The omap after what is written for one dentry. -/
def applyOp (omap : List (Key ν × Entry)) (k : Key ν) : Op → List (Key ν × Entry)
  | .trim => omap.filter (·.1 ≠ k)
  | .skip => omap
  | .rm => omap.filter (·.1 ≠ k)
  | .set e => (k, e) :: omap.filter (·.1 ≠ k)

/-- The dentry after the commit, clean if it was written. -/
def Dentry.markClean (dn : Dentry) : Dentry :=
  { dn with dirty := false, numRef := dn.numRef - dn.dirty.toNat }

/-- `CDir::_omap_commit` of header and dentries, and its completion. -/
def State.omapCommit (s : State ν) (realm : Realm) (d : CDir ν) : State ν :=
  let snaps := purgeSnaps realm d.fnode
  { s with
    header := d.fnode
    omap := d.items.foldl (fun omap (k, dn) => applyOp omap k (commitOp snaps k dn)) s.omap
    dir := some { d with
      items := (d.items.filter fun (k, dn) => commitOp snaps k dn != .trim).map fun (k, dn) =>
        (k, dn.markClean) } }

/-! ## Runs -/

inductive Action (ν : Type)
  | fetch (known : ℕ → ℕ → Bool)
  | readdir (snapid : ℕ) (visited : Key ν → Bool)
  | modify (k : Key ν) (dn : Dentry)
  | commit
  | drop

/-- A dentry is linked, changed or unlinked, and dirty. -/
def CDir.modify (d : CDir ν) (k : Key ν) (dn : Dentry) : CDir ν :=
  { d with
    fnode := { d.fnode with version := d.fnode.version + 1 }
    items := (k, { dn with dirty := true }) :: d.items.filter (·.1 ≠ k) }

/-- A fragment that has just been created in the cache. -/
def CDir.fresh (ν : Type) : CDir ν := ⟨⟨0, 0⟩, false, []⟩

def State.step (realm : Realm) (s : State ν) : Action ν → Option (State ν)
  | .fetch known =>
    let d := s.dir.getD (.fresh ν)
    if d.complete then none
    else
      let b := d.omapFetched realm known s.header s.omap
      some { s with dir := some b.1, added := b.2 ++ s.added }
  | .readdir snapid visited => do
    let d ← s.dir.filter (·.complete)
    let d ← (d.readdir realm snapid visited).toOption
    some { s with dir := some d }
  | .modify k dn => do
    let d ← s.dir
    some { s with dir := some (d.modify k dn) }
  | .commit => do
    let d ← s.dir
    some (s.omapCommit realm d)
  | .drop => some { s with dir := none }

end Commit

end CephMds.Purge
