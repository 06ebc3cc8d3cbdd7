import CephMds.Framework.Writes
import Mathlib.Algebra.BigOperators.Group.List.Basic
import Mathlib.Algebra.Order.BigOperators.Group.List
import Mathlib.Algebra.Order.Group.Int

/-!
# Totals over a map

`total` adds up a weight of the values of a map. It follows an insertion and a
removal, so a loop that moves the values of one map to others one by one leaves
the sum of the totals as it is (`total_move`).
-/

namespace CephMds.Writes

universe u v w

variable {κ : Type u} {β : Type v} {M : Type w} [Ord κ] [Std.TransOrd κ] [AddCommMonoid M]

def total (f : β → M) (m : Std.ExtTreeMap κ β) : M := (m.toList.map fun q => f q.2).sum

@[simp] theorem total_empty (f : β → M) : total f (∅ : Std.ExtTreeMap κ β) = 0 := by
  have hlist : (∅ : Std.ExtTreeMap κ β).toList = [] := by simp
  rw [total, hlist]
  rfl

theorem total_of_isEmpty (f : β → M) {m : Std.ExtTreeMap κ β} (h : m.isEmpty = true) : total f m = 0 := by
  rw [Std.ExtTreeMap.isEmpty_iff] at h
  rw [h, total_empty]

omit [AddCommMonoid M] in
theorem total_nonneg {f : β → ℤ} (m : Std.ExtTreeMap κ β) (h : ∀ b, 0 ≤ f b) : 0 ≤ total f m := by
  apply List.sum_nonneg
  intro x hx
  obtain ⟨q, -, rfl⟩ := List.mem_map.mp hx
  exact h q.2

/-- The values by two properties. -/
theorem size_eq_tally (p q : β → Bool) (m : Std.ExtTreeMap κ β) : m.size =
    tally (fun b => p b == true && q b == false) m + tally (fun b => p b == true && q b == true) m +
      tally (fun b => p b == false && q b == false) m + tally (fun b => p b == false && q b == true) m := by
  rw [← Std.ExtTreeMap.length_toList]
  simp only [tally]
  induction m.toList with
  | nil => rfl
  | cons x l ih =>
    simp only [List.length_cons, List.countP_cons, ih]
    cases p x.2 <;> cases q x.2 <;> simp <;> omega

variable [Std.LawfulEqOrd κ] {m m' : Std.ExtTreeMap κ β} {k : κ} {b : β}

theorem total_erase (f : β → M) (h : m[k]? = some b) : total f m = total f (m.erase k) + f b := by
  rw [total, ((toList_perm_of_getElem? h).map _).sum_eq, List.map_cons, List.sum_cons, total, add_comm]

theorem total_insert (f : β → M) (h : m[k]? = none) (b : β) : total f (m.insert k b) = total f m + f b := by
  classical
  rw [total_erase f (k := k) (b := b) (by rw [getElem?_insert, if_pos rfl]), erase_insert h]

/-- A value goes from one map to another. -/
theorem total_move (f : β → M) (h : m[k]? = some b) (h' : m'[k]? = none) :
    total f (m'.insert k b) + total f (m.erase k) = total f m' + total f m := by
  rw [total_insert f h', total_erase f h, add_assoc, add_comm (f b)]

end CephMds.Writes
