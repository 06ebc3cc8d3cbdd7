import CephMds.Model.Subtree

/-!
# The journaled subtree map

`MDCache::create_subtree_map`: the subtrees of this rank with their bounds,
after the projected renames, and simplified. The directories with their
projected parents are a second tree `proj`. The fragments stand for their
`dirfrag_t`, and come with the order of these. The metablob is left out.
-/

namespace CephMds

/-- `ESubtreeMap`. -/
structure SubtreeMap (α : Type) where
  subtrees : α → Option (List α)
  ambiguousSubtrees : α → Bool

namespace SubtreeMap

variable {α : Type} [DecidableEq α]

/-- `subtrees[r] = v`. -/
def set (le : SubtreeMap α) (r : α) (v : List α) : SubtreeMap α :=
  { le with subtrees := Function.update le.subtrees r (some v) }

/-- `subtrees.erase(r)`. -/
def erase (le : SubtreeMap α) (r : α) : SubtreeMap α :=
  { le with subtrees := Function.update le.subtrees r none }

/-- The bounds of `r`, if it is a subtree, without the first `df`. -/
def removeBound (le : SubtreeMap α) (df r : α) : SubtreeMap α :=
  match le.subtrees r with
  | some v => le.set r (v.erase df)
  | none => le

/-- The bounds of `r`, if it is a subtree, with `df` at the end. -/
def pushBound (le : SubtreeMap α) (df r : α) : SubtreeMap α :=
  match le.subtrees r with
  | some v => le.set r (v ++ [df])
  | none => le

/-- `MDCache::_move_subtree_map_bound`. -/
def moveSubtreeMapBound (le : SubtreeMap α) (df oldparent newparent : α) : SubtreeMap α :=
  (le.removeBound df oldparent).pushBound df newparent

/-- "Simplify", for the subtree `p`: the bounds `done` stay, those in `rest`
are looked at, and the bounds of one that is swallowed come at the end. -/
def swallowBounds (p : α) : ℕ → SubtreeMap α → List α → List α → Checked (SubtreeMap α)
  | 0, _, _, _ => .error .fuel
  | _ + 1, le, done, [] => .ok (le.set p done)
  | n + 1, le, done, b :: rest =>
    match le.subtrees b with
    | some bb =>
      if le.ambiguousSubtrees b then swallowBounds p n le (done ++ [b]) rest
      else swallowBounds p n (le.erase b) done (rest ++ bb)
    | none => swallowBounds p n le (done ++ [b]) rest

/-- "Simplify the journaled map", over the subtrees in the order of their
`dirfrag_t`. -/
def simplify (fuel : ℕ) (order : List α) (le : SubtreeMap α) : Checked (SubtreeMap α) :=
  order.foldlM (fun le p =>
    match le.subtrees p with
    | some v => if le.ambiguousSubtrees p then pure le else le.swallowBounds p fuel [] v
    | none => pure le) le

end SubtreeMap

namespace Cache

variable {ι α L : Type} [LinearOrder α]

open Checked

def getProjectedSubtreeRoot (c : Cache ι α L) (proj : DirTree ι α) (d : α) : Option α :=
  proj.forest.nearest c.isSubtreeRoot d

/-- `CDir::contains`. -/
def contains (proj : DirTree ι α) (d x : α) : Bool := (proj.forest.nearest (fun y => y = d) x).isSome

/-- "Include all auth subtrees, and their bounds". -/
def authSubtrees (c : Cache ι α L) (whoami : ℤ) (ambiguous : α → Bool) : SubtreeMap α where
  subtrees d := if (c.subtrees d).isSome ∧ (c.dirAuth d).first = whoami then some (ascending (c.bounds d))
    else none
  ambiguousSubtrees d := (c.subtrees d).isSome && (c.dirAuth d).first = whoami && ambiguous d

/-- "Creating subtree": it is mine if `oldparent` is, and a bound of
`newparent` if that is mine. -/
def createProjected (le : SubtreeMap α) (dir oldparent newparent : α) : SubtreeMap α :=
  (if (le.subtrees oldparent).isSome then le.set dir [] else le).pushBound dir newparent

/-- One fragment of a projected rename. -/
def projectDirfrag (c : Cache ι α L) (proj : DirTree ι α) (olddir newdir : α) (le : SubtreeMap α)
    (dir : α) : Checked (SubtreeMap α) := do
  let oldparent ← deref (c.getProjectedSubtreeRoot proj olddir)
  let newparent ← deref (c.getProjectedSubtreeRoot proj newdir)
  if oldparent = newparent then return le
  else if c.isSubtreeRoot dir then return le.moveSubtreeMapBound dir oldparent newparent
  else
    let split := c.dirAuth oldparent ≠ c.dirAuth newparent
    let le := if split then createProjected le dir oldparent newparent else le
    let newparent := if split then dir else newparent
    (ascending (c.bounds oldparent)).foldlM (fun le bound => do
      let q ← deref (c.getParentDir bound)
      return if contains proj dir q then le.moveSubtreeMapBound bound oldparent newparent else le) le

/-- `projected_subtree_renames`, in the order of the map and its lists. -/
def projectedRenames (c : Cache ι α L) (renamed : List ι) : List (ι × α × α) :=
  renamed.flatMap fun diri => (c.projectedSubtreeRenames diri).map fun p => (diri, p)

/-- "Apply projected renames". -/
def applyProjectedRenames (c : Cache ι α L) (proj : DirTree ι α) (renames : List (ι × α × α))
    (le : SubtreeMap α) : Checked (SubtreeMap α) :=
  renames.foldlM (fun le p =>
    (c.tree.dirfrags p.1).foldlM (c.projectDirfrag proj p.2.1 p.2.2) le) le

/-- `MDCache::create_subtree_map`: `renamed` are the inodes with projected
renames in the order of the map, `ambiguous` the ambiguous imports. -/
def createSubtreeMap (c : Cache ι α L) (proj : DirTree ι α) (renamed : List ι) (order : List α)
    (whoami : ℤ) (ambiguous : α → Bool) : Checked (SubtreeMap α) := do
  let le ← c.applyProjectedRenames proj (c.projectedRenames renamed) (c.authSubtrees whoami ambiguous)
  le.simplify (c.tree.dirs.card + 1) order

end Cache

end CephMds
