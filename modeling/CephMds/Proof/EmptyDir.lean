import CephMds.Model.EmptyDir
import CephMds.Proof.Items

/-!
# A directory judged empty is empty

Where the filelock can be read (`Readable`), the sum over the fragments that
are not cached is what the inode has beyond the cached ones. As these counts are
not negative, it is zero only if each of them is.
-/

namespace CephMds.EmptyDir

open Stat Items Writes Dentries

variable {α : Type} {d : Directory α} {version : ℕ}

/-- No head entry. -/
def Leaf.Empty (l : Leaf) : Prop :=
  ∀ (k : Key) (dn : Dentry), l.dir.items[k]? = some dn → dn.isHead = true → dn.isNull = true

/-- What holds while the filelock can be read: the inode has the sum over all fragments, and what
is not cached has been accounted for. -/
structure Directory.Readable (d : Directory α) : Prop where
  dirstat : d.dirstat.count = ∑ f ∈ d.leaves, (counted d.dirstat.version (d.leaf f).fnode).count
  nonneg {f : α} : f ∈ d.leaves →
    0 ≤ (d.leaf f).fnode.fragstat.count.1 ∧ 0 ≤ (d.leaf f).fnode.fragstat.count.2
  uncached {f : α} : f ∈ d.leaves → f ∉ d.dirfrags →
    (d.leaf f).fnode.accountedFragstat = (d.leaf f).fnode.fragstat
  items {f : α} : f ∈ d.leaves → (d.leaf f).dir.Counted
  /-- What `check_rstats` asserts. -/
  fragstat {f : α} : f ∈ d.leaves → (d.leaf f).dir.numHeadItems = (d.leaf f).fnode.fragstat.size

/-! ## The loop -/

/-- The loop ends with a sum only if no fragment has entries. -/
theorem addAll_eq_some {ls : List Fnode} {dirstat r : FragInfo} (h : addAll version dirstat ls = some r) :
    (∀ pf ∈ ls, pf.fragstat.size = 0) ∧ r.count = dirstat.count + (ls.map fun pf => (counted version pf).count).sum := by
  induction ls generalizing dirstat with
  | nil =>
    cases h
    simp
  | cons pf ls ih =>
    rw [addAll] at h
    by_cases hpf : pf.fragstat.size ≠ 0
    · rw [if_pos hpf] at h
      cases h
    · rw [if_neg hpf] at h
      obtain ⟨hall, hsum⟩ := ih h
      refine ⟨fun p hp => ?_, ?_⟩
      · rcases List.mem_cons.mp hp with rfl | hp
        · exact not_not.mp hpf
        · exact hall p hp
      · rw [hsum, List.map_cons, List.sum_cons, ← add_assoc]
        rfl

theorem addAll_of_empty {ls : List Fnode} (h : ∀ pf ∈ ls, pf.fragstat.size = 0) (dirstat : FragInfo) :
    ∃ r, addAll version dirstat ls = some r := by
  induction ls generalizing dirstat with
  | nil => exact ⟨dirstat, rfl⟩
  | cons pf ls ih =>
    rw [addAll, if_neg (not_not.mpr (h pf List.mem_cons_self))]
    exact ih (fun p hp => h p (List.mem_cons_of_mem pf hp)) _

/-! ## Sums -/

theorem Directory.sum_dirfrags [DecidableEq α] {M : Type*} [AddCommMonoid M] (d : Directory α) (g : α → M) :
    ∑ f ∈ d.leaves, g f = (d.dirfrags.map g).sum + ∑ f ∈ d.leaves.filter (· ∉ d.dirfrags), g f := by
  have hcached : d.leaves.filter (· ∈ d.dirfrags) = d.dirfrags.toFinset := by
    ext f
    rw [Finset.mem_filter, List.mem_toFinset]
    exact ⟨fun h => h.2, fun h => ⟨d.mem_leaves h, h⟩⟩
  rw [← Finset.sum_filter_add_sum_filter_not d.leaves (· ∈ d.dirfrags), hcached, List.sum_toFinset g d.nodup]

/-- The sizes of counts that are added up. -/
def sizeHom : FragCount →+ ℤ := AddMonoidHom.coprod (AddMonoidHom.id ℤ) (AddMonoidHom.id ℤ)

theorem sizeHom_count (f : FragInfo) : sizeHom f.count = f.size := rfl

/-! ## Entries -/

theorem Directory.Readable.empty_iff (h : d.Readable) {f : α} (hf : f ∈ d.leaves) :
    (d.leaf f).Empty ↔ (d.leaf f).fnode.fragstat.size = 0 := by
  have hnum : (d.leaf f).dir.numHeadItems = tally (CDir.isKind true false) (d.leaf f).dir.items := h.items hf true false
  rw [← h.fragstat hf, hnum, Int.natCast_eq_zero, tally, List.countP_eq_zero]
  constructor
  · rintro hempty ⟨k, dn⟩ hmem
    have hnull := hempty k dn (Std.ExtTreeMap.mem_toList_iff_getElem?_eq_some.mp hmem)
    cases hhead : dn.isHead with
    | false => simp [CDir.isKind, hhead]
    | true => simp [CDir.isKind, hnull hhead]
  · intro hno k dn hk hhead
    have := hno (k, dn) (Std.ExtTreeMap.mem_toList_iff_getElem?_eq_some.mpr hk)
    simpa [CDir.isKind, hhead] using this

/-- Where the cached fragments are empty, the sum misses what the others have. -/
theorem Directory.Readable.size_eq [DecidableEq α] (h : d.Readable) {r : FragInfo}
    (hr : addAll d.dirstat.version FragInfo.zero (d.dirfrags.map fun f => (d.leaf f).fnode) = some r) :
    d.dirstat.size = r.size + ∑ f ∈ d.leaves.filter (· ∉ d.dirfrags), (d.leaf f).fnode.fragstat.size := by
  have hsum := (addAll_eq_some hr).2
  have huncached : ∀ f ∈ d.leaves.filter (· ∉ d.dirfrags),
      counted d.dirstat.version (d.leaf f).fnode = (d.leaf f).fnode.fragstat := by
    intro f hf
    obtain ⟨hleaf, hno⟩ := Finset.mem_filter.mp hf
    rw [counted, h.uncached hleaf hno, ite_self]
  rw [List.map_map] at hsum
  have hcount : d.dirstat.count = r.count + ∑ f ∈ d.leaves.filter (· ∉ d.dirfrags), (d.leaf f).fnode.fragstat.count := by
    rw [h.dirstat, d.sum_dirfrags, hsum, Finset.sum_congr rfl fun f hf => congrArg FragInfo.count (huncached f hf)]
    congr 1
    exact (zero_add _).symm
  rw [← sizeHom_count, ← sizeHom_count, hcount, map_add, map_sum]
  rfl

/-- While the filelock can be read, a directory is judged empty exactly if no fragment has a head
entry, cached or not. -/
theorem dirIsNonempty_eq_false_iff (d : Directory α) (h : d.Readable) :
    d.dirIsNonempty = false ↔ ∀ f ∈ d.leaves, (d.leaf f).Empty := by
  classical
  have hsize : (∀ f ∈ d.leaves, (d.leaf f).Empty) ↔ ∀ f ∈ d.leaves, (d.leaf f).fnode.fragstat.size = 0 :=
    forall₂_congr fun f hf => h.empty_iff hf
  rw [hsize, Directory.dirIsNonempty]
  cases hr : addAll d.dirstat.version FragInfo.zero (d.dirfrags.map fun f => (d.leaf f).fnode) with
  | none =>
    -- A cached fragment has entries.
    refine ⟨fun hf => absurd hf Bool.noConfusion, fun hall => ?_⟩
    have hempty : ∀ pf ∈ d.dirfrags.map fun f => (d.leaf f).fnode, pf.fragstat.size = 0 := by
      intro pf hpf
      obtain ⟨f, hf, rfl⟩ := List.mem_map.mp hpf
      exact hall f (d.mem_leaves hf)
    obtain ⟨r, hr'⟩ := addAll_of_empty hempty FragInfo.zero
    have hsome := hr.symm.trans hr'
    cases hsome
  | some r =>
    have hcached := (addAll_eq_some hr).1
    have hnonneg : ∀ f ∈ d.leaves.filter (· ∉ d.dirfrags), 0 ≤ (d.leaf f).fnode.fragstat.size := by
      intro f hf
      obtain ⟨h1, h2⟩ := h.nonneg (Finset.mem_filter.mp hf).1
      exact add_nonneg h1 h2
    have hzero := Finset.sum_eq_zero_iff_of_nonneg hnonneg
    have heq := h.size_eq hr
    dsimp only
    rw [decide_eq_false_iff_not, not_not]
    constructor
    · intro hsame f hf
      by_cases hc : f ∈ d.dirfrags
      · exact hcached _ (List.mem_map_of_mem hc)
      · exact hzero.mp (by omega) f (Finset.mem_filter.mpr ⟨hf, hc⟩)
    · intro hall
      have := hzero.mpr fun f hf => hall f (Finset.mem_filter.mp hf).1
      omega

/-- A fragment without dentries. -/
def bare : CDir := ⟨∅, 0, 0, 0, 0, 0, false, false, false⟩

def link : Dentry := .make [97] 2 cephNosnap (.remote 7 8)

/-- One fragment is cached and has lost its entry since it was accounted for, and the other one
has an entry. -/
def twoLeaves : Directory Bool where
  leaves := {true, false}
  leaf
    | true => ⟨bare, ⟨⟨3, 5, 0⟩, ⟨2, 4, (1, 0)⟩, ⟨3, 5, 0⟩, ⟨2, 4, 0⟩⟩⟩
    | false => ⟨{ bare with items := bare.items.insert link.key link }.count link.isHead link.isNull 1,
        ⟨⟨3, 5, (1, 0)⟩, ⟨3, 5, (1, 0)⟩, ⟨3, 5, 0⟩, ⟨3, 5, 0⟩⟩⟩
  dirfrags := [true]
  nodup := List.nodup_singleton true
  mem_leaves {f} _ := by cases f <;> decide
  dirstat := ⟨3, 5, (1, 0)⟩

theorem twoLeaves_dirIsNonempty : twoLeaves.dirIsNonempty = true ∧ ¬ ∀ f ∈ twoLeaves.leaves, (twoLeaves.leaf f).Empty := by
  have hbare : bare.Counted := by
    intro head null
    cases head <;> cases null <;> rfl
  have hread : twoLeaves.Readable := by
    refine ⟨rfl, fun {f} _ => by cases f <;> decide, fun {f} _ hf => ?_, fun {f} _ => ?_, fun {f} _ => ?_⟩
    · cases f with
      | true => exact absurd (List.mem_singleton_self true) hf
      | false => rfl
    · cases f with
      | true => exact hbare
      | false => exact hbare.insert Std.ExtTreeMap.getElem?_empty link
    · cases f <;> rfl
  have hiff := dirIsNonempty_eq_false_iff twoLeaves hread
  exact ⟨rfl, fun hall => absurd (hiff.mpr hall) (by decide)⟩

end CephMds.EmptyDir
