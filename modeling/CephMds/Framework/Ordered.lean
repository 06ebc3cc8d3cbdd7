import Mathlib.Data.List.TakeWhile
import Mathlib.Tactic.Common

/-!
# Lists in the order of a key

A map or multimap of the standard library is a list in the order of its keys.
Iterating from its beginning, or from a lower bound, up to the first element
past a bound visits exactly the elements up to that bound.
-/

namespace CephMds.Ordered

variable {α : Type*} {r : α → α → Prop} {p : α → Bool} {l : List α}

/-- In a list ordered by `r`, with `p` closed downwards, the elements with `p` come first. -/
theorem takeWhile_eq_filter (h : l.Pairwise r) (hp : ∀ a b, r a b → p b = true → p a = true) :
    l.takeWhile p = l.filter p := by
  induction l with
  | nil => rfl
  | cons a l ih =>
    rw [List.pairwise_cons] at h
    cases ha : p a with
    | true => rw [List.takeWhile_cons_of_pos ha, List.filter_cons_of_pos ha, ih h.2]
    | false =>
      have hnone : l.filter p = [] := by
        rw [List.filter_eq_nil_iff]
        intro b hb hpb
        rw [hp a b (h.1 b hb) hpb] at ha
        cases ha
      rw [List.takeWhile_cons_of_neg (by simp [ha]), List.filter_cons_of_neg (by simp [ha]), hnone]

/-- And the others after them. -/
theorem dropWhile_eq_filter (h : l.Pairwise r) (hp : ∀ a b, r a b → p b = true → p a = true) :
    l.dropWhile p = l.filter (fun a => !p a) := by
  induction l with
  | nil => rfl
  | cons a l ih =>
    rw [List.pairwise_cons] at h
    cases ha : p a with
    | true =>
      rw [List.dropWhile_cons_of_pos ha, List.filter_cons_of_neg (by simp [ha]), ih h.2]
    | false =>
      have hall : l.filter (fun a => !p a) = l := by
        rw [List.filter_eq_self]
        intro b hb
        cases hpb : p b with
        | true =>
          rw [hp a b (h.1 b hb) hpb] at ha
          cases ha
        | false => rfl
      rw [List.dropWhile_cons_of_neg (by simp [ha]), List.filter_cons_of_pos (by simp [ha]), hall]

end CephMds.Ordered
