import Mathlib

/-!
# What is exported to whom

`MDBalancer::try_rebalance`, `find_exports` and `fragment_selector_luahook`, on
the dirfrags of the cache. A directory of the built-in policy or of the Lua
hook is chosen by its load, which does not change during a rebalance. What is
handed to `export_dir_nicely` is kept in order. The hook is given the loads and
returns the indices of what it chooses.
-/

namespace CephMds.Rebalance

/-- The dirfrags of the cache: those of the subdirectories of one in the order
of its dentries, and what the balancer asks of a dirfrag. A dirfrag that is not
a subtree root has the authority of the one above it. -/
structure DirFrags (α : Type) where
  children : α → List α
  height : α → ℕ
  height_lt {c d : α} : c ∈ children d → height c < height d
  nodup_children (d : α) : (children d).Nodup
  parent_unique {c d e : α} : c ∈ children d → c ∈ children e → d = e
  isSubtreeRoot : α → Bool
  isAuth : α → Bool
  auth_child {c d : α} : isAuth d = true → c ∈ children d → isSubtreeRoot c = false → isAuth c = true
  isFrozen : α → Bool
  isFreezing : α → Bool
  isRep : α → Bool
  inodeIsBase : α → Bool
  inodeIsRoot : α → Bool
  inodeIsStray : α → Bool
  /-- `make_path_string_projected` begins with "~". -/
  inMdsdir : α → Bool
  inodeAuthority : α → ℤ
  /-- `pop_auth_subtree.meta_load`. -/
  pop : α → ℚ
  pop_nonneg (d : α) : 0 ≤ pop d

/-- The settings of the balancer; `howmuch` is the Lua hook, if it is used. -/
structure Config where
  minOffload : ℤ
  idleThreshold : ℚ
  minStart : ℚ
  needMax : ℚ
  needMin : ℚ
  midchunk : ℚ
  minchunk : ℚ
  howmuch : Option (ℚ → List ℚ → List ℕ)

/-- `exports`, `have` and `already_exporting`. -/
structure Selection (α : Type) where
  exports : List α
  haveLoad : ℚ
  alreadyExporting : List α
  deriving DecidableEq

variable {α : Type} [DecidableEq α]

namespace DirFrags

variable (T : DirFrags α) (cfg : Config)

/-- From big to small: a `multimap`, read from its end. -/
def byPop (l : List α) : List α := (l.insertionSort fun c d => T.pop c ≤ T.pop d).reverse

/-- Exports the dirfrag, without a note in `already_exporting`. -/
def push (d : α) (s : Selection α) : Selection α :=
  { s with exports := s.exports ++ [d], haveLoad := s.haveLoad + T.pop d }

def take (d : α) (s : Selection α) : Selection α :=
  { T.push d s with alreadyExporting := d :: s.alreadyExporting }

/-- `fragment_selector_luahook`. -/
def fragmentSelectorLuahook (hook : ℚ → List ℚ → List ℕ) (smaller : List α) (amount : ℚ) (s : Selection α) :
    Selection α :=
  if smaller = [] then s
  else (hook amount (smaller.map T.pop)).foldl (fun s k => smaller[k]?.elim s fun d => T.take d s) s

omit [DecidableEq α] in
/-- A loop that ends when there is enough; then the caller returns. -/
def untilEnough (enough : ℚ) (f : α → Selection α → Selection α) : List α → Selection α → Selection α × Bool
  | [], s => (s, false)
  | d :: ds, s => if enough < (f d s).haveLoad then (f d s, true) else untilEnough enough f ds (f d s)

omit [DecidableEq α] in
/-- The rest of the caller, if it has not returned. -/
def andThen (r : Selection α × Bool) (f : Selection α → Selection α × Bool) : Selection α × Bool :=
  if r.2 then r else f r.1

/-- The subdirectories that `find_exports` looks at. -/
def subdirs (dir : α) (need : ℚ) (s : Selection α) : List α :=
  (T.children dir).filter fun c =>
    T.isAuth c && decide (c ∉ s.alreadyExporting) && !T.isFrozen c && !decide (T.pop c < need * cfg.minchunk)

/-- "Lucky find?" -/
def lucky (need : ℚ) (c : α) : Bool := need * cfg.needMin < T.pop c ∧ T.pop c < need * cfg.needMax

/-- "Grab some sufficiently big small items". -/
def takeSmaller (amount need : ℚ) (smaller : List α) (s : Selection α) : Selection α × Bool :=
  match cfg.howmuch with
  | some hook =>
    let s := T.fragmentSelectorLuahook hook smaller amount s
    (s, need * cfg.needMin < s.haveLoad)
  | none =>
    untilEnough (need * cfg.needMin) T.take (smaller.takeWhile fun c => ¬T.pop c < need * cfg.midchunk) s

/-- "Ok fine, use smaller bits". -/
def takeMuchSmaller (need : ℚ) (smaller : List α) (s : Selection α) : Selection α × Bool :=
  if cfg.howmuch.isSome then (s, false)
  else untilEnough (need * cfg.needMin) T.take (smaller.dropWhile fun c => ¬T.pop c < need * cfg.midchunk) s

/-- `find_exports`, below a dirfrag of at most a height. -/
def findExports (amount : ℚ) : ℕ → α → Selection α → Selection α
  | 0, _, s => s
  | h + 1, dir, s =>
    let need := amount - s.haveLoad
    if need < amount * cfg.minStart then s
    else
      let subdirs := T.subdirs cfg dir need s
      match subdirs.find? (T.lucky cfg need) with
      | some c => T.take c s
      | none =>
        let smaller := T.byPop (subdirs.filter fun c => ¬need < T.pop c)
        let bigger := subdirs.filter fun c => need < T.pop c
        let r := T.takeSmaller cfg amount need smaller s
        let r := andThen r (untilEnough (need * cfg.needMin) (findExports amount h) (bigger.filter fun c => !T.isRep c))
        let r := andThen r (T.takeMuchSmaller cfg need smaller)
        (andThen r (untilEnough (need * cfg.needMin) (findExports amount h) (bigger.filter T.isRep))).1

end DirFrags

/-- `import_from_map` and `already_exporting`, and the calls of `export_dir_nicely` so far. -/
structure Rebalancing (α : Type) where
  importFrom : List (ℤ × α)
  alreadyExporting : List α
  exported : List (α × ℤ)
  deriving DecidableEq

namespace Rebalancing

variable (T : DirFrags α) (cfg : Config) (whoami : ℤ)

/-- An import that has been idle goes back, and others are listed. -/
def sortImport (s : Rebalancing α) (im : α) : Rebalancing α :=
  if T.inodeIsStray im then s
  else if 0 < cfg.idleThreshold ∧ T.pop im < cfg.idleThreshold ∧ T.inodeIsRoot im = false ∧
      T.inodeAuthority im ≠ whoami then
    { s with exported := s.exported ++ [(im, T.inodeAuthority im)] }
  else { s with importFrom := s.importFrom ++ [(T.inodeAuthority im, im)] }

/-- "Make a sorted list of my imports". -/
def sortImports (roots : List α) : Rebalancing α :=
  roots.foldl (sortImport T cfg whoami) ⟨[], [], []⟩

/-- "Looking through imports from target mds", with `have`. -/
def searchImports (target : ℤ) (amount : ℚ) : List α → ℚ × Rebalancing α → ℚ × Rebalancing α
  | [], s => s
  | dir :: dirs, s =>
    if T.inodeIsBase dir ∨ T.inodeIsStray dir ∨ T.isFreezing dir ∨ T.isFrozen dir then
      searchImports target amount dirs s
    else
      let s := if T.pop dir ≤ amount - s.1 then
          (s.1 + T.pop dir, { s.2 with
            exported := s.2.exported ++ [(dir, target)]
            importFrom := s.2.importFrom.erase (target, dir) })
        else s
      if amount - s.1 < cfg.minOffload then s else searchImports target amount dirs s

/-- "Should we move this entire auth?" -/
def wholeRoots (roots : List α) (need : ℚ) (already : List α) : List α :=
  T.byPop (roots.filter fun d =>
    !T.inMdsdir d && !T.inodeIsStray d && T.isAuth d && decide (d ∉ already) && !T.isFrozen d && decide (T.pop d < need))

/-- The selector, among whole roots. -/
def selectRoots (roots : List α) (amount : ℚ) (s : Selection α) : Selection α :=
  let smaller := wholeRoots T roots (amount - s.haveLoad) s.alreadyExporting
  match cfg.howmuch with
  | some hook => T.fragmentSelectorLuahook hook smaller amount s
  | none => (DirFrags.untilEnough (amount - cfg.minOffload) T.push smaller s).1

/-- "Ok, drill down". -/
def drillDown (roots : List α) (amount : ℚ) (s : Selection α) : Selection α :=
  if s.haveLoad < amount - cfg.minOffload then
    (DirFrags.untilEnough (amount - cfg.minOffload) (fun pot s =>
      if pot ∈ s.alreadyExporting ∨ pot ∈ s.exports then s
      else T.findExports cfg amount (T.height pot + 1) pot s) roots s).1
  else s

/-- What is exported of the own workload. -/
def selectExports (roots : List α) (target : ℤ) (amount : ℚ) (s : ℚ × Rebalancing α) : Rebalancing α :=
  let sel := drillDown T cfg roots amount (selectRoots T cfg roots amount ⟨[], s.1, s.2.alreadyExporting⟩)
  { s.2 with
    alreadyExporting := sel.alreadyExporting
    exported := s.2.exported ++ sel.exports.map fun d => (d, target) }

omit [DecidableEq α] in
/-- `import_from_map.equal_range`. -/
def importsFrom (s : Rebalancing α) (target : ℤ) : List α := (s.importFrom.filter fun p => p.1 = target).map Prod.snd

/-- One of `my_targets`. -/
def exportTo (roots : List α) (s : Rebalancing α) (t : ℤ × ℚ) : Rebalancing α :=
  if t.2 < cfg.minOffload then s
  else
    let r := searchImports T cfg t.1 t.2 (s.importsFrom t.1) (0, s)
    if t.2 - r.1 < cfg.minOffload then r.2 else selectExports T cfg roots t.1 t.2 r

end Rebalancing

/-- `try_rebalance`, where all targets are in the map: `roots` are the fully
authoritative subtree roots. -/
def tryRebalance (T : DirFrags α) (cfg : Config) (whoami : ℤ) (roots : List α) (myTargets : List (ℤ × ℚ)) :
    Rebalancing α :=
  myTargets.foldl (Rebalancing.exportTo T cfg roots) (Rebalancing.sortImports T cfg whoami roots)

end CephMds.Rebalance
