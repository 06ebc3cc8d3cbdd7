import Mathlib

/-!
# Files with zeros at the end

A file is kept as its beginning, and zeros up to its size (`padTo`). A write
replaces a part of it (`overwrite`). The beginning of the result is the old one
up to the write, what is written, and the old one from its end on; one that
goes on from an earlier place is right only if there are zeros
(`padTo_splice_iff`).
-/

namespace CephMds

variable {α : Type*} [Zero α]

/-- The list with zeros up to a length. -/
def padTo (n : ℕ) (l : List α) : List α := l ++ List.replicate (n - l.length) 0

/-- The elements from `o` on are replaced by `buf`, after zeros if `o` is beyond the end. -/
def overwrite (l : List α) (o : ℕ) (buf : List α) : List α :=
  padTo o (l.take o) ++ buf ++ l.drop (o + buf.length)

namespace Padded

variable {l buf : List α} {n o e : ℕ}

theorem length_padTo (n : ℕ) (l : List α) : (padTo n l).length = max n l.length := by
  rw [padTo, List.length_append, List.length_replicate]
  omega

theorem padTo_of_le (h : n ≤ l.length) : padTo n l = l := by
  rw [padTo, Nat.sub_eq_zero_of_le h, List.replicate_zero, List.append_nil]

theorem padTo_append (l m : List α) (n : ℕ) : padTo n (l ++ m) = l ++ padTo (n - l.length) m := by
  rw [padTo, padTo, List.length_append, List.append_assoc, Nat.sub_add_eq]

theorem drop_padTo (n : ℕ) (l : List α) (o : ℕ) :
    (padTo n l).drop o = l.drop o ++ List.replicate (n - max o l.length) 0 := by
  rw [padTo, List.drop_append, List.drop_replicate]
  congr 2
  omega

/-- A range of a file. -/
theorem take_drop_padTo (h : l.length ≤ n) (o k : ℕ) :
    ((padTo n l).drop o).take k =
      (l.drop o).take k ++ List.replicate (min (o + k) n - max o l.length) 0 := by
  rw [drop_padTo, List.take_append, List.length_drop, List.take_replicate]
  congr 2
  omega

/-- Padding goes on where the list ends. -/
theorem padTo_take_padTo (n o : ℕ) (l : List α) : padTo o ((padTo n l).take o) = padTo o (l.take o) := by
  simp only [padTo, List.take_append, List.take_replicate, List.append_assoc, List.replicate_append_replicate,
    List.length_append, List.length_take, List.length_replicate]
  congr 2
  omega

/-- Where a list repeats itself up to zeros, it is zero. -/
theorem getD_eq_zero_of_shift {d : ℕ} (hd : 0 < d) (h : ∀ x, e ≤ x → l.getD x 0 = l.getD (x + d) 0) {x : ℕ}
    (hx : e ≤ x) : l.getD x 0 = 0 := by
  have hshift : ∀ k, l.getD x 0 = l.getD (x + k * d) 0 := by
    intro k
    induction k with
    | zero => rw [Nat.zero_mul, Nat.add_zero]
    | succ k ih => rw [ih, h _ (hx.trans (Nat.le_add_right _ _)), Nat.succ_mul, Nat.add_assoc]
  rw [hshift l.length]
  refine List.getD_eq_default _ _ ?_
  exact (Nat.le_mul_of_pos_right _ hd).trans (Nat.le_add_left _ _)

theorem getD_append_replicate (l : List α) (k x : ℕ) : (l ++ List.replicate k 0).getD x 0 = l.getD x 0 := by
  rcases Nat.lt_or_ge x l.length with h | h
  · exact List.getD_append _ _ _ _ h
  · rw [List.getD_append_right _ _ _ _ h, List.getD_eq_default l _ h, List.getD_eq_getElem?_getD,
      List.getElem?_replicate]
    split
    · rfl
    · rfl

/-- After the bytes up to `e`, the old ones from `p` on are right if `p` is `e`, if there are none,
or if they are zeros that fit into the old size. -/
theorem drop_append_zeros_iff {p : ℕ} (hp : p ≤ e) (hl : l.length ≤ n) :
    l.drop p ++ List.replicate (max n e - e - (l.length - p)) 0 = (padTo n l).drop e ↔
      p = e ∨ l.length ≤ p ∨ e + (l.length - p) ≤ n ∧ ∀ b ∈ l.drop p, b = 0 := by
  rw [drop_padTo]
  rcases hp.eq_or_lt with rfl | hlt
  · refine iff_of_true ?_ (.inl rfl)
    congr 2
    omega
  rcases Nat.lt_or_ge p l.length with hlen | hlen
  · constructor
    · intro heq
      have hlengths := congrArg List.length heq
      simp only [List.length_append, List.length_drop, List.length_replicate] at hlengths
      refine .inr (.inr ⟨by omega, fun b hb => ?_⟩)
      have hshift : ∀ x, p ≤ x → l.getD x 0 = l.getD (x + (e - p)) 0 := by
        intro x hx
        have hx' : (l.drop p).getD (x - p) 0 = (l.drop e).getD (x - p) 0 := by
          rw [← getD_append_replicate (l.drop p), heq, getD_append_replicate]
        have hadd : e + (x - p) = x + (e - p) := by omega
        rw [List.getD_eq_getElem?_getD, List.getD_eq_getElem?_getD, List.getElem?_drop, List.getElem?_drop,
          Nat.add_sub_cancel' hx, hadd] at hx'
        rw [List.getD_eq_getElem?_getD, List.getD_eq_getElem?_getD, hx']
      obtain ⟨x, hx, rfl⟩ := List.mem_iff_getElem.mp hb
      have hzero := getD_eq_zero_of_shift (Nat.sub_pos_of_lt hlt) hshift (Nat.le_add_right p x)
      rw [List.length_drop] at hx
      rwa [List.getD_eq_getElem _ _ (by omega), ← List.getElem_drop] at hzero
    · rintro (rfl | h | ⟨hle, hzero⟩)
      · exact absurd rfl hlt.ne
      · exact absurd hlen (not_lt.mpr h)
      · have hzero' : ∀ b ∈ l.drop e, b = 0 := fun b hb => hzero b <| by
          rw [← Nat.add_sub_cancel' hp, ← List.drop_drop] at hb
          exact List.mem_of_mem_drop hb
        rw [List.eq_replicate_of_mem hzero, List.eq_replicate_of_mem hzero', List.replicate_append_replicate,
          List.replicate_append_replicate, List.length_drop, List.length_drop]
        congr 1
        omega
  · refine iff_of_true ?_ (.inr (.inl hlen))
    rw [List.drop_eq_nil_of_le hlen, List.drop_eq_nil_of_le (hlen.trans hp)]
    congr 2
    omega

/-- A beginning that is put together from what is before the write, the write, and what is from `p` on. -/
theorem padTo_splice_iff {p : ℕ} (hp : p ≤ o + buf.length) (hl : l.length ≤ n) :
    padTo (max n (o + buf.length)) (padTo o (l.take o) ++ buf ++ l.drop p) = overwrite (padTo n l) o buf ↔
      p = o + buf.length ∨ l.length ≤ p ∨
        o + buf.length + (l.length - p) ≤ n ∧ ∀ b ∈ l.drop p, b = 0 := by
  have hlen : (padTo o (l.take o) ++ buf).length = o + buf.length := by
    rw [List.length_append, length_padTo, List.length_take, Nat.max_eq_left (Nat.min_le_left _ _)]
  rw [padTo_append, hlen, overwrite, padTo_take_padTo, List.append_cancel_left_eq, ← drop_append_zeros_iff hp hl, padTo,
    List.length_drop]

end Padded

end CephMds
