import CephMds.Framework.Check
import CephMds.Framework.Forest
import Mathlib.Algebra.Group.Defs
import Mathlib.Data.Finset.Sort

/-!
# The subtree map of the metadata cache

The cached directory fragments (`DirTree`), the map `subtrees` from subtree
roots to their bounds with what is kept beside it (`Cache`), and the functions
of `MDCache.cc` that change it: `adjustSubtreeAuth`, `trySubtreeMergeAt`,
`trySubtreeMerge`, `adjustBoundedSubtreeAuth` and `adjustSubtreeAfterRename`.
Directory fragments are pointers: a type `α` with a linear order, in which the
sets of the source are iterated. Evaluation of locks and the journaling of a
merged bound are left out.
-/

namespace CephMds

/-- `mds_authority_t`: the authority, and the rank it is about to pass to. -/
structure Auth where
  first : ℤ
  second : ℤ
  deriving DecidableEq, Repr

def cdirAuthParent : ℤ := -1
def cdirAuthUnknown : ℤ := -2
def cdirAuthDefault : Auth := ⟨cdirAuthParent, cdirAuthUnknown⟩
def cdirAuthUndef : Auth := ⟨cdirAuthUnknown, cdirAuthUnknown⟩

/-- The cached directory fragments `dirs`, each below an inode, and the
fragment that holds each inode's dentry. Pointers outside `dirs` are free. -/
structure DirTree (ι α : Type) where
  dirs : Finset α
  inode : α → Option ι
  mem_dirs {d : α} : d ∈ dirs ↔ (inode d).isSome
  dirfrags : ι → List α
  mem_dirfrags {d : α} {i : ι} : d ∈ dirfrags i ↔ inode d = some i
  nodup_dirfrags (i : ι) : (dirfrags i).Nodup
  parentDir : ι → Option α
  isBase : ι → Bool
  isRoot : ι → Bool
  root_base {i : ι} : isRoot i = true → isBase i = true
  base_parent {i : ι} : isBase i = true → parentDir i = none
  depth : α → ℕ
  depth_lt {d q : α} {i : ι} : inode d = some i → parentDir i = some q → depth q < depth d

/-- The fragments with `CDir::get_parent_dir`. -/
def DirTree.forest {ι α : Type} (t : DirTree ι α) : Forest α where
  parent d := (t.inode d).bind t.parentDir
  depth := t.depth
  depth_lt h := by
    obtain ⟨i, hi, hq⟩ := Option.bind_eq_some_iff.mp h
    exact t.depth_lt hi hq

/-- The state of `MDCache` and its `CDir`s that the subtree functions use. -/
structure Cache (ι α L : Type) where
  tree : DirTree ι α
  dirAuth : α → Auth
  subtrees : α → Option (Finset α)
  pinSubtree : α → ℕ
  exportBound : α → Bool
  isAuth : α → Bool
  popAuthSubtree : α → L
  projectedSubtreeRenames : ι → List (α × α)

/-- `CInode::authority`, which is not part of this code: never the default,
that of the fragment that holds the inode's dentry if the inode is linked, and
the inode's own if it is not. -/
structure InodeAuthority (ι α : Type) where
  authority : DirTree ι α → (α → Auth) → ι → Auth
  ne_default {t : DirTree ι α} {a : α → Auth} {i : ι} : authority t a i ≠ cdirAuthDefault
  of_parent {t : DirTree ι α} {a : α → Auth} {i : ι} {q : α} : t.parentDir i = some q →
    authority t a i = if a q = cdirAuthDefault then
      match t.inode q with
      | some j => authority t a j
      | none => cdirAuthUndef
    else a q
  of_top {t t' : DirTree ι α} {a a' : α → Auth} {i : ι} : t.parentDir i = none →
    t'.parentDir i = none → authority t a i = authority t' a' i

namespace Cache

variable {ι α L : Type} [LinearOrder α]

open Checked

/-! ## Reading the map -/

def isSubtreeRoot (c : Cache ι α L) (d : α) : Bool := c.dirAuth d != cdirAuthDefault

def getParentDir (c : Cache ι α L) (d : α) : Option α := c.tree.forest.parent d

def getSubtreeRoot (c : Cache ι α L) (d : α) : Option α := c.tree.forest.nearest c.isSubtreeRoot d

/-- `CDir::authority`. -/
def authority (I : InodeAuthority ι α) (c : Cache ι α L) (d : α) : Auth :=
  if c.isSubtreeRoot d then c.dirAuth d
  else match c.tree.inode d with
    | some i => I.authority c.tree c.dirAuth i
    | none => cdirAuthUndef

/-- `subtrees[r]`. -/
def bounds (c : Cache ι α L) (r : α) : Finset α := (c.subtrees r).getD ∅

/-! ## Elementary changes -/

/-- The assignment of `CDir::set_dir_auth`. -/
def setDirAuth (c : Cache ι α L) (d : α) (a : Auth) : Cache ι α L :=
  { c with dirAuth := Function.update c.dirAuth d a }

/-- `subtrees[r] = b`. -/
def setBounds (c : Cache ι α L) (r : α) (b : Finset α) : Cache ι α L :=
  { c with subtrees := Function.update c.subtrees r (some b) }

/-- `subtrees[r].insert(b)`. -/
def insertBound (c : Cache ι α L) (r b : α) : Cache ι α L := c.setBounds r (insert b (c.bounds r))

/-- `subtrees[r].erase(b)`. -/
def eraseBound (c : Cache ι α L) (r b : α) : Cache ι α L := c.setBounds r ((c.bounds r).erase b)

/-- `subtrees.erase(r)`. -/
def eraseSubtree (c : Cache ι α L) (r : α) : Cache ι α L :=
  { c with subtrees := Function.update c.subtrees r none }

/-- `get(PIN_SUBTREE)`. -/
def getPin (c : Cache ι α L) (d : α) : Cache ι α L :=
  { c with pinSubtree := Function.update c.pinSubtree d (c.pinSubtree d + 1) }

/-- `put(PIN_SUBTREE)`, which asserts that the pin is held. -/
def putPin (c : Cache ι α L) (d : α) : Checked (Cache ι α L) := do
  assert (0 < c.pinSubtree d)
  return { c with pinSubtree := Function.update c.pinSubtree d (c.pinSubtree d - 1) }

/-- A new key with no bounds, and its pin. -/
def newSubtree (c : Cache ι α L) (d : α) : Cache ι α L := (c.setBounds d ∅).getPin d

/-- The loop that changes `pop_auth_subtree` from `d` up to the first subtree root. -/
def adjustPop (f : L → L) : ℕ → Option α → Cache ι α L → Cache ι α L
  | 0, _, c => c
  | _, none, c => c
  | n + 1, some p, c =>
    let c := { c with popAuthSubtree := Function.update c.popAuthSubtree p (f (c.popAuthSubtree p)) }
    if c.isSubtreeRoot p then c else adjustPop f n (c.getParentDir p) c

/-- A bound on the iterations of every loop: each either passes a new fragment
or removes one from the keys. -/
def fuel (c : Cache ι α L) : ℕ := c.tree.dirs.card + 1

/-! ## `adjust_subtree_auth` -/

/-- "Move items nested beneath me, under me": the bounds of `root` whose
parent now resolves to `dir`. -/
def claimBounds (c : Cache ι α L) (root dir : α) : Checked (Cache ι α L) :=
  (ascending (c.bounds root)).foldlM (fun c p => do
    let q ← deref (c.getParentDir p)
    if c.getSubtreeRoot q = some dir then
      return (c.insertBound dir p).eraseBound root p
    else return c) c

/-- The current root of `dir`. A fragment of a base inode is its own, and is
made a key if it is none ("bootstrap hack"). -/
def currentRoot (bootstrap : ι → Bool) (c : Cache ι α L) (dir : α) : Checked (α × Cache ι α L) := do
  let i ← deref (c.tree.inode dir)
  if bootstrap i then
    return (dir, if (c.subtrees dir).isSome then c else c.newSubtree dir)
  else do
    assert (c.getSubtreeRoot dir).isSome
    let root ← deref (c.getSubtreeRoot dir)
    return (root, c)

/-- The part that `adjust_subtree_auth` and `adjust_bounded_subtree_auth` have
in common: `dir` gets the authority and is a root afterwards. The result says
whether it is a new one. -/
def delegate (bootstrap : ι → Bool) (c : Cache ι α L) (dir : α) (auth : Auth) :
    Checked (Bool × Cache ι α L) := do
  let (root, c) ← c.currentRoot bootstrap dir
  assert (c.subtrees root).isSome
  if root = dir then
    return (false, c.setDirAuth dir auth)
  else do
    assert (c.subtrees dir).isNone
    let c ← ((c.newSubtree dir).setDirAuth dir auth).claimBounds root dir
    return (true, c.insertBound root dir)

variable [AddCommGroup L]

def adjustSubtreeAuth (c : Cache ι α L) (dir : α) (auth : Auth) : Checked (Cache ι α L) := do
  let (new, c) ← c.delegate c.tree.isBase dir auth
  if new && c.isAuth dir then
    return adjustPop (· - c.popAuthSubtree dir) c.fuel (c.getParentDir dir) c
  else return c

/-! ## `try_subtree_merge_at` and `try_subtree_merge` -/

/-- The root that `dir` could be merged with: its own for a base inode. -/
def mergeParent (c : Cache ι α L) (dir : α) : Checked α := do
  let i ← deref (c.tree.inode dir)
  if c.tree.isBase i then return dir
  else do
    let q ← deref (c.getParentDir dir)
    deref (c.getSubtreeRoot q)

/-- "Merge with parent". -/
def mergeInto (c : Cache ι α L) (dir parent : α) : Checked (Cache ι α L) := do
  let c := c.setDirAuth dir cdirAuthDefault
  let c := (ascending (c.bounds dir)).foldl (fun c p => c.insertBound parent p) c
  let c ← c.putPin dir
  let c := (c.eraseSubtree dir).eraseBound parent dir
  if c.isAuth dir then
    return adjustPop (· + c.popAuthSubtree dir) c.fuel (c.getParentDir dir) c
  else return c

def trySubtreeMergeAt (c : Cache ι α L) (dir : α) : Checked (Cache ι α L) := do
  assert (c.subtrees dir).isSome
  let parent ← c.mergeParent dir
  if parent ≠ dir ∧ c.dirAuth parent = c.dirAuth dir ∧ (c.dirAuth dir).second = cdirAuthUnknown ∧
      c.exportBound dir = false then
    c.mergeInto dir parent
  else return c

def trySubtreeMerge (c : Cache ι α L) (dir : α) : Checked (Cache ι α L) := do
  assert (c.subtrees dir).isSome
  let oldbounds := c.bounds dir
  let c ← c.trySubtreeMergeAt dir
  (ascending oldbounds).foldlM (fun c p => c.trySubtreeMergeAt p) c

/-! ## `adjust_bounded_subtree_auth` -/

/-- `while (subtrees[dir].count(t) == 0) t = get_subtree_root(t->get_parent_dir())`. -/
def climbToBound (c : Cache ι α L) (dir : α) : ℕ → α → Checked α
  | 0, _ => .error .fuel
  | n + 1, t =>
    if t ∈ c.bounds dir then .ok t
    else do
      let q ← deref (c.getParentDir t)
      let t ← deref (c.getSubtreeRoot q)
      climbToBound c dir n t

/-- "Swallowing subtree": give the root `t` the authority, and merge it. -/
def swallow (c : Cache ι α L) (t : α) (auth : Auth) : Checked (Cache ι α L) := do
  let c ← c.adjustSubtreeAuth t auth
  c.trySubtreeMergeAt t

/-- "Make sure it's nested beneath ambiguous subtree(s)": swallow the subtrees
between `dir` and `bound`. -/
def swallowIntervening (dir : α) (auth : Auth) (bound : α) :
    ℕ → α → Cache ι α L → Checked (Cache ι α L)
  | 0, _, _ => .error .fuel
  | n + 1, t, c => do
    let t ← c.climbToBound dir c.fuel t
    let c ← c.swallow t auth
    let q ← deref (c.getParentDir bound)
    let t ← deref (c.getSubtreeRoot q)
    if t = dir then return c else swallowIntervening dir auth bound n t c

/-- A wanted bound below the subtree `t` becomes a root with its authority. -/
def newBoundBelow (I : InodeAuthority ι α) (dir t : α) (c : Cache ι α L) (bound : α) :
    Checked (Cache ι α L) :=
  if bound ∈ c.bounds t then return c
  else do
    assert (t ≠ dir)
    c.adjustSubtreeAuth bound (c.authority I t)

/-- "Verify/adjust bounds", for one bound. -/
def adjustBound (I : InodeAuthority ι α) (dir : α) (auth oldauth : Auth) (c : Cache ι α L)
    (bound : α) : Checked (Cache ι α L) :=
  if bound ∈ c.bounds dir then return c
  else if c.getSubtreeRoot bound = some dir then c.adjustSubtreeAuth bound oldauth
  else do
    let q ← deref (c.getParentDir bound)
    let t ← deref (c.getSubtreeRoot q)
    let c ← newBoundBelow I dir t c bound
    swallowIntervening dir auth bound c.fuel t c

/-- "Merge stray bounds": one pass over a copy of the bounds. -/
def swallowExtra (bounds : Finset α) (auth : Auth) (c : Cache ι α L) (copy : Finset α) :
    Checked (Cache ι α L) :=
  (ascending copy).foldlM (fun c stray =>
    if stray ∈ bounds then pure c else c.swallow stray auth) c

/-- The passes, until one leaves the bounds as they were. -/
def mergeStray (dir : α) (bounds : Finset α) (auth : Auth) :
    ℕ → Cache ι α L → Checked (Cache ι α L)
  | 0, _ => .error .fuel
  | n + 1, c =>
    if c.bounds dir = ∅ then .ok c
    else do
      let copy := c.bounds dir
      let c ← swallowExtra bounds auth c copy
      if copy = c.bounds dir then return c else mergeStray dir bounds auth n c

def adjustBoundedSubtreeAuth (I : InodeAuthority ι α) (c : Cache ι α L) (dir : α)
    (bounds : Finset α) (auth : Auth) : Checked (Cache ι α L) := do
  let oldauth := c.authority I dir
  let (_, c) ← c.delegate c.tree.isRoot dir auth
  let c ← (ascending bounds).foldlM (adjustBound I dir auth oldauth) c
  let c ← mergeStray dir bounds auth c.fuel c
  assert (c.subtrees dir).isSome
  assert (bounds = c.bounds dir)
  return c

/-! ## `handle_resolve` -/

/-- The subtrees that a peer claims in `MMDSResolve`, with the fragments as
`get_force_dirfrag` and `get_force_dirfrag_bound_set` find them: the root may
not be cached. -/
structure Resolve (α : Type) where
  sender : ℤ
  subtrees : List (Option α × Finset α)

/-- One claimed subtree. -/
def handleClaim (I : InodeAuthority ι α) (sender : ℤ) (c : Cache ι α L)
    (claim : Option α × Finset α) : Checked (Cache ι α L) :=
  match claim.1 with
  | none => return c
  | some dir => do
    let c ← c.adjustBoundedSubtreeAuth I dir claim.2 ⟨sender, cdirAuthUnknown⟩
    c.trySubtreeMerge dir

/-- "Update my dir_auth values". -/
def handleResolve (I : InodeAuthority ι α) (c : Cache ι α L) (m : Resolve α) :
    Checked (Cache ι α L) :=
  m.subtrees.foldlM (handleClaim I m.sender) c

/-! ## `adjust_subtree_after_rename` -/

/-- `projected_subtree_renames[diri] = l`. -/
def setProjectedRenames [DecidableEq ι] (c : Cache ι α L) (diri : ι) (l : List (α × α)) :
    Cache ι α L :=
  { c with projectedSubtreeRenames := Function.update c.projectedSubtreeRenames diri l }

def projectSubtreeRename [DecidableEq ι] (c : Cache ι α L) (diri : ι) (olddir newdir : α) :
    Cache ι α L :=
  c.setProjectedRenames diri (c.projectedSubtreeRenames diri ++ [(olddir, newdir)])

/-- With `pop`, the rename must be the first one projected for the inode. -/
def popProjectedRename [DecidableEq ι] (c : Cache ι α L) (diri : ι) (olddir : α)
    (newdir : Option α) (pop : Bool) : Checked (Cache ι α L) :=
  if pop then
    match c.projectedSubtreeRenames diri with
    | [] => .error .assert
    | (o, n) :: rest => do
      assert (o = olddir)
      assert (some n = newdir)
      return c.setProjectedRenames diri rest
  else return c

/-- The bounds of `oldparent` that no longer resolve to it. -/
def boundsToMove (c : Cache ι α L) (oldparent newparent : α) : Checked (List α) :=
  (ascending (c.bounds oldparent)).foldlM (fun tomove bound => do
    let q ← deref (c.getParentDir bound)
    if c.getSubtreeRoot q = some oldparent then return tomove
    else do
      assert (c.getSubtreeRoot q = some newparent)
      return tomove ++ [bound]) []

/-- The loop of `adjust_subtree_after_rename`, for one fragment of the inode. -/
def renameDirfrag (I : InodeAuthority ι α) (olddir newdir : α) (c : Cache ι α L) (dir : α) :
    Checked (Cache ι α L) :=
  let oldparent := c.getSubtreeRoot olddir
  let newparent := c.getSubtreeRoot newdir
  if oldparent = newparent then return c
  else do
    let oldparent ← deref oldparent
    let newparent ← deref newparent
    if c.isSubtreeRoot dir then do
      assert (dir ∈ c.bounds oldparent)
      let c := c.eraseBound oldparent dir
      assert (c.subtrees newparent).isSome
      let c := c.insertBound newparent dir
      c.trySubtreeMergeAt dir
    else do
      let tomove ← c.boundsToMove oldparent newparent
      let c := tomove.foldl (fun c b => (c.eraseBound oldparent b).insertBound newparent b) c
      if c.authority I oldparent ≠ c.authority I newparent then do
        let c ← c.adjustSubtreeAuth dir (c.authority I oldparent)
        c.trySubtreeMergeAt dir
      else return c

/-- Called when the inode `diri` has moved away from `olddir`. The fragments
that are subtree roots come first (`get_subtree_dirfrags`, `get_nested_dirfrags`). -/
def adjustSubtreeAfterRename [DecidableEq ι] (I : InodeAuthority ι α) (c : Cache ι α L) (diri : ι)
    (olddir : α) (pop : Bool) : Checked (Cache ι α L) := do
  let newdir := c.tree.parentDir diri
  let c ← c.popProjectedRename diri olddir newdir pop
  let frags := c.tree.dirfrags diri
  let dfls := frags.filter c.isSubtreeRoot ++ frags.filter (fun d => !c.isSubtreeRoot d)
  dfls.foldlM (fun c dir => do
    let newdir ← deref newdir
    c.renameDirfrag I olddir newdir dir) c

end Cache

end CephMds
