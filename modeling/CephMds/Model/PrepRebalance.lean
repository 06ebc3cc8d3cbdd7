import Mathlib

/-!
# Who exports how much to whom

`MDBalancer::prep_rebalance`, from the loads of the cluster on: the target
load, the exporters and importers, and the three loops that match them. Loads
are exact rationals, and a map that is read by `[]` has 0 where it has no entry.
-/

namespace CephMds.Rebalance

/-- The per-epoch state of `MDBalancer`. -/
structure Plan where
  metaLoad : ℤ → ℚ
  targetLoad : ℚ
  myTargets : ℤ → Option ℚ
  imported : ℤ → ℚ
  exported : ℤ → ℚ

namespace Plan

/-- What is too little to be matched. -/
def negligible : ℚ := 1 / 1000

variable (p : Plan)

def getMaxim (im : ℤ) : ℚ := p.targetLoad - p.metaLoad im - p.imported im
def getMaxex (ex : ℤ) : ℚ := p.metaLoad ex - p.targetLoad - p.exported ex

/-- `ex` is to export `howmuch` to `im`. -/
def transfer (whoami ex im : ℤ) (howmuch : ℚ) : Plan :=
  { p with
    myTargets :=
      if ex = whoami then Function.update p.myTargets im (some ((p.myTargets im).getD 0 + howmuch)) else p.myTargets
    exported := Function.update p.exported ex (p.exported ex + howmuch)
    imported := Function.update p.imported im (p.imported im + howmuch) }

/-- `try_match`, with what is left of `maxex` and `maxim`. -/
def tryMatch (whoami ex : ℤ) (maxex : ℚ) (im : ℤ) (maxim : ℚ) : Plan × ℚ × ℚ :=
  if maxex ≤ 0 ∨ maxim ≤ 0 then (p, maxex, maxim)
  else
    let howmuch := min maxex maxim
    if howmuch ≤ 0 then (p, maxex, maxim)
    else (p.transfer whoami ex im howmuch, maxex - howmuch, maxim - howmuch)

/-- A match uses up one of the two. -/
theorem tryMatch_exhausts (whoami ex im : ℤ) {maxex maxim : ℚ} (h : ¬(maxex < negligible ∨ maxim < negligible)) :
    (p.tryMatch whoami ex maxex im maxim).2.1 ≤ negligible ∨ (p.tryMatch whoami ex maxex im maxim).2.2 ≤ negligible := by
  have h₀ : (0 : ℚ) < negligible := by norm_num [negligible]
  obtain ⟨h₁, h₂⟩ := not_or.mp h
  rw [not_lt] at h₁ h₂
  have hmin : 0 < min maxex maxim := lt_min (h₀.trans_le h₁) (h₀.trans_le h₂)
  rw [tryMatch, if_neg (not_or.mpr ⟨not_le.mpr (h₀.trans_le h₁), not_le.mpr (h₀.trans_le h₂)⟩), if_neg (not_le.mpr hmin)]
  rcases le_total maxex maxim with hle | hle
  · left
    rw [min_eq_left hle, sub_self]
    exact h₀.le
  · right
    rw [min_eq_right hle, sub_self]
    exact h₀.le

/-- The importers that an exporter has imported from, as long as it has something left. -/
def matchSources (whoami ex : ℤ) : ℚ → List ℤ → Plan → Plan
  | _, [], p => p
  | maxex, im :: ims, p =>
    if p.getMaxim im ≤ negligible then matchSources whoami ex maxex ims p
    else
      let r := p.tryMatch whoami ex maxex im (p.getMaxim im)
      if r.2.1 ≤ negligible then r.1 else matchSources whoami ex r.2.1 ims r.1

/-- "Matching exporters to import sources". -/
def matchImports (whoami : ℤ) (importMap : ℤ → List ℤ) (exporters : List ℤ) : Plan :=
  exporters.foldl (fun p ex =>
    if p.getMaxex ex ≤ negligible then p else matchSources whoami ex (p.getMaxex ex) (importMap ex) p) p

/-- `++ex` or `++im`, if what is left is negligible. -/
def advance {α : Type} (left : ℚ) (a : α) (rest : List α) : List α := if left ≤ negligible then rest else a :: rest

theorem length_advance {α : Type} (left : ℚ) (a : α) (rest : List α) :
    (advance left a rest).length ≤ rest.length + 1 ∧
      (left ≤ negligible → (advance left a rest).length < rest.length + 1) := by
  unfold advance
  split
  · exact ⟨by omega, fun _ => by omega⟩
  · exact ⟨by simp, fun h => absurd h ‹_›⟩

/-- "Matching big (or small) exporters to big importers". -/
def matchWalk (whoami : ℤ) : List ℤ → List ℤ → Plan → Plan
  | ex :: exs, im :: ims, p =>
    if _ : p.getMaxex ex < negligible ∨ p.getMaxim im < negligible then p
    else
      let r := p.tryMatch whoami ex (p.getMaxex ex) im (p.getMaxim im)
      matchWalk whoami (advance r.2.1 ex exs) (advance r.2.2 im ims) r.1
  | _, _, p => p
termination_by exs ims => exs.length + ims.length
decreasing_by
  rename_i h
  have hex := length_advance (p.tryMatch whoami ex (p.getMaxex ex) im (p.getMaxim im)).2.1 ex exs
  have him := length_advance (p.tryMatch whoami ex (p.getMaxex ex) im (p.getMaxim im)).2.2 im ims
  simp only [List.length_cons]
  rcases p.tryMatch_exhausts whoami ex im h with h₁ | h₁
  · have := hex.2 h₁
    omega
  · have := him.2 h₁
    omega

end Plan

/-- The ranks of a cluster. -/
def cluster (n : ℕ) : List ℤ := (List.range n).map Nat.cast

/-- `load_map`: the ranks by their load. -/
def loadMap (n : ℕ) (load : ℤ → ℚ) : List ℤ := (cluster n).insertionSort fun i j => load i ≤ load j

def targetLoad (n : ℕ) (load : ℤ → ℚ) : ℚ := ((cluster n).map load).sum / n

def importers (n : ℕ) (load : ℤ → ℚ) : List ℤ := (loadMap n load).filter fun i => load i < targetLoad n load
def exporters (n : ℕ) (load : ℤ → ℚ) : List ℤ := (loadMap n load).filter fun i => targetLoad n load ≤ load i

/-- Nothing is matched. -/
def Plan.reset (n : ℕ) (load : ℤ → ℚ) : Plan where
  metaLoad := load
  targetLoad := Rebalance.targetLoad n load
  myTargets _ := none
  imported _ := 0
  exported _ := 0

/-- The exporters in the order of the walk: an odd beat goes the "old way". -/
def walkExporters (n : ℕ) (load : ℤ → ℚ) (beat : ℕ) : List ℤ :=
  if beat % 2 = 1 then (exporters n load).reverse else exporters n load

/-- "Analyze import_map; do any matches i can". -/
def importsMatched (whoami : ℤ) (n : ℕ) (load : ℤ → ℚ) (importMap : ℤ → List ℤ) : Plan :=
  (Plan.reset n load).matchImports whoami importMap (exporters n load).reverse

/-- "Determine load transfer mapping": the loops of `prep_rebalance`. -/
def prepRebalance (whoami : ℤ) (n : ℕ) (load : ℤ → ℚ) (importMap : ℤ → List ℤ) (beat : ℕ) : Plan :=
  (importsMatched whoami n load importMap).matchWalk whoami (walkExporters n load beat) (importers n load)

end CephMds.Rebalance
