import Mathlib

/-!
# Cutting a list into pieces

`cutBy p` goes through a list and cuts behind an element when `p` holds of the
piece that ends there; the last piece is what remains. `Followed` are the pieces
that some element comes after. If pieces are to be kept below a bound but for
their last elements, a cut must be made wherever the bound is reached and more
is to come (`cutBy_bounded_iff`).
-/

namespace CephMds.Cutting

variable {α : Type*} {p q : List α → Bool} {cur l : List α} {a : α}

/-- The pieces, of which `cur` is the beginning of the first one. -/
def cutBy (p : List α → Bool) : List α → List α → List (List α)
  | cur, [] => [cur]
  | cur, a :: l => if p (cur ++ [a]) then (cur ++ [a]) :: cutBy p [] l else cutBy p (cur ++ [a]) l

theorem flatten_cutBy (p : List α → Bool) (cur l : List α) : (cutBy p cur l).flatten = cur ++ l := by
  induction l generalizing cur with
  | nil => simp [cutBy]
  | cons a l ih =>
    rw [cutBy]
    split
    · rw [List.flatten_cons, ih]
      simp
    · rw [ih]
      simp

/-- The first piece begins as given. -/
theorem exists_cutBy_cons (p : List α → Bool) (cur l : List α) :
    ∃ l' ls, cutBy p cur l = (cur ++ l') :: ls ∧ (l ≠ [] → l' ≠ []) := by
  induction l generalizing cur with
  | nil => exact ⟨[], [], by rw [cutBy, List.append_nil], fun h => absurd rfl h⟩
  | cons a l ih =>
    rw [cutBy]
    split
    · exact ⟨[a], _, rfl, fun _ => List.cons_ne_nil _ _⟩
    · obtain ⟨l', ls, heq, -⟩ := ih (cur ++ [a])
      exact ⟨a :: l', ls, by rw [heq, List.append_assoc, List.singleton_append], fun _ => List.cons_ne_nil _ _⟩

/-- The pieces that are followed by an element. -/
def followed (ls : List (List α)) : List (List α) := (ls.filter fun l => !l.isEmpty).dropLast

theorem followed_singleton (l : List α) : followed [l] = [] := by
  rw [followed, List.filter_singleton]
  cases !l.isEmpty <;> rfl

theorem followed_cut_nil (h : l ≠ []) : followed (l :: cutBy p [] []) = [] := by
  rw [followed, cutBy, List.filter_cons_of_pos (by simpa using h)]
  rfl

theorem followed_cut_cons (h : l ≠ []) (a : α) (l' : List α) :
    followed (l :: cutBy p [] (a :: l')) = l :: followed (cutBy p [] (a :: l')) := by
  obtain ⟨t, ls, heq, ht⟩ := exists_cutBy_cons p [] (a :: l')
  have ht := ht (List.cons_ne_nil _ _)
  rw [heq, followed, followed, List.filter_cons_of_pos (by simpa using h), List.filter_cons_of_pos (by simpa using ht)]
  rfl

section Bound

variable {size : α → ℕ} {max : ℕ}

/-- Where the pieces are cut by `p`, and only where the size has reached the bound, they stay below it
but for their last elements exactly if `p` holds of every piece cut at the bound that is followed. -/
theorem cutBy_bounded_iff (hp : ∀ l, p l = true → max ≤ (l.map size).sum) (hcur : (cur.map size).sum < max) :
    (∀ c ∈ cutBy p cur l, (c.dropLast.map size).sum < max) ↔
      ∀ c ∈ followed (cutBy (fun c => decide (max ≤ (c.map size).sum)) cur l), p c = true := by
  induction l generalizing cur with
  | nil =>
    have hle : (cur.dropLast.map size).sum ≤ (cur.map size).sum := by
      rcases List.eq_nil_or_concat cur with rfl | ⟨l, a, rfl⟩
      · exact Nat.le_refl _
      · rw [List.concat_eq_append, List.dropLast_concat, List.map_append, List.sum_append]
        exact Nat.le_add_right _ _
    rw [cutBy, cutBy, followed_singleton]
    simp only [List.mem_singleton, forall_eq, List.not_mem_nil, false_implies, implies_true, iff_true]
    omega
  | cons a l ih =>
    rw [cutBy, cutBy]
    have hne : cur ++ [a] ≠ [] := List.append_ne_nil_of_right_ne_nil _ (List.cons_ne_nil _ _)
    have hzero : (([] : List α).map size).sum < max := Nat.lt_of_le_of_lt (Nat.zero_le _) hcur
    by_cases hmax : max ≤ ((cur ++ [a]).map size).sum
    · rw [if_pos (decide_eq_true hmax)]
      by_cases hcut : p (cur ++ [a]) = true
      · -- Both cut here.
        rw [if_pos hcut, List.forall_mem_cons, List.dropLast_concat, and_iff_right hcur, ih hzero]
        cases l with
        | nil =>
          rw [followed_cut_nil hne, cutBy, followed_singleton]
        | cons b l => rw [followed_cut_cons hne, List.forall_mem_cons, and_iff_right hcut]
      · -- The piece grows beyond the bound if anything follows.
        rw [if_neg hcut]
        cases l with
        | nil =>
          rw [followed_cut_nil hne, cutBy]
          simp only [List.mem_singleton, forall_eq, List.dropLast_concat, List.not_mem_nil, false_implies, implies_true,
            iff_true]
          exact hcur
        | cons b l =>
          obtain ⟨t, ls, heq, ht⟩ := exists_cutBy_cons p (cur ++ [a]) (b :: l)
          have ht := ht (List.cons_ne_nil _ _)
          rw [followed_cut_cons hne, List.forall_mem_cons, heq, List.forall_mem_cons]
          constructor
          · rintro ⟨hlt, -⟩
            rw [List.dropLast_append_of_ne_nil ht, List.map_append, List.sum_append] at hlt
            omega
          · rintro ⟨hc, -⟩
            exact absurd hc hcut
    · rw [if_neg (fun h => hmax (of_decide_eq_true h)), if_neg (fun h => hmax (hp _ h))]
      exact ih (Nat.not_le.mp hmax)

end Bound

end CephMds.Cutting
