import CephMds.Proof.Waiting
import Mathlib

/-!
# Who waits for a mask

`is_waiter_for` starts at the highest bit of the mask (`toNat_clearLsb`), where
`take_waiting` visits every tag. A tag between that bit and the mask meets the
mask (`meets_of_between`), so the loop decides at the first tag that it sees
(`isWaiterFor_iff`). The two agree iff that tag is no worse than the others.
-/

namespace CephMds.Waiting.Waiters

open Checked

variable {ν κ : Type} {w : Waiters ν κ} {mask tag : UInt64}

/-! ## The highest bit -/

theorem log2_and_sub_one {n : ℕ} (hn : n ≠ 0) (h : n &&& (n - 1) ≠ 0) : (n &&& (n - 1)).log2 = n.log2 := by
  have hbit : (n &&& (n - 1)).testBit n.log2 := by
    apply Nat.and_sub_one_testBit_log2 hn
    rwa [← Nat.and_sub_one_eq_zero_iff_isPowerOfTwo hn]
  rw [Nat.log2_eq_iff h]
  constructor
  · exact Nat.ge_two_pow_of_testBit hbit
  · exact lt_of_le_of_lt Nat.and_le_left Nat.lt_log2_self

theorem toNat_and_sub_one (hmask : mask ≠ 0) :
    (mask &&& (mask - 1)).toNat = mask.toNat &&& (mask.toNat - 1) := by
  have hpos : 1 ≤ mask :=
    UInt64.le_iff_toNat_le.mpr (Nat.pos_of_ne_zero fun h => hmask (UInt64.toNat_inj.mp h))
  rw [UInt64.toNat_and, UInt64.toNat_sub_of_le _ _ hpos]
  rfl

/-- The loop keeps the highest bit of the mask and no other. -/
theorem toNat_clearLsb {mask : UInt64} (hmask : mask ≠ 0) : (clearLsb mask).toNat = 2 ^ mask.toNat.log2 := by
  have hn : mask.toNat ≠ 0 := fun h => hmask (UInt64.toNat_inj.mp h)
  rw [clearLsb]
  split
  · rename_i h
    have h' : mask.toNat &&& (mask.toNat - 1) ≠ 0 := by
      rw [← toNat_and_sub_one hmask]
      exact fun h₀ => h (UInt64.toNat_inj.mp h₀)
    rw [toNat_clearLsb h, toNat_and_sub_one hmask, log2_and_sub_one hn h']
  · rename_i h
    rw [not_not] at h
    have hpow : mask.toNat &&& (mask.toNat - 1) = 0 := by
      rw [← toNat_and_sub_one hmask, h]
      rfl
    obtain ⟨k, hk⟩ := (Nat.and_sub_one_eq_zero_iff_isPowerOfTwo hn).mp hpow
    rw [hk, Nat.log2_two_pow]
termination_by mask.toNat
decreasing_by exact toNat_clearLsb_lt ‹_›

theorem meets_iff : meets tag mask = true ↔ ∃ i, tag.toNat.testBit i ∧ mask.toNat.testBit i := by
  have hne : meets tag mask = true ↔ tag.toNat &&& mask.toNat ≠ 0 := by
    rw [meets, bne_iff_ne, ← UInt64.toNat_and, ne_eq, ne_eq, ← UInt64.toNat_inj]
    rfl
  rw [hne]
  constructor
  · intro h
    obtain ⟨i, hi⟩ := Nat.exists_testBit_of_ne_zero h
    rw [Nat.testBit_and, Bool.and_eq_true] at hi
    exact ⟨i, hi⟩
  · rintro ⟨i, ht, hm⟩ h
    have hi : (tag.toNat &&& mask.toNat).testBit i = true := by
      rw [Nat.testBit_and, ht, hm, Bool.and_self]
    rw [h, Nat.zero_testBit] at hi
    cases hi

/-- A tag from the highest bit of the mask up to the mask has that bit. -/
theorem meets_of_between (hmask : mask ≠ 0) (h : 2 ^ mask.toNat.log2 ≤ tag.toNat) (hle : tag ≤ mask) :
    meets tag mask = true := by
  have hn : mask.toNat ≠ 0 := fun h => hmask (UInt64.toNat_inj.mp h)
  have htag : tag.toNat ≠ 0 := by
    have := Nat.two_pow_pos mask.toNat.log2
    omega
  have hlog : tag.toNat.log2 = mask.toNat.log2 := by
    rw [Nat.log2_eq_iff htag]
    exact ⟨h, lt_of_le_of_lt (UInt64.le_iff_toNat_le.mp hle) Nat.lt_log2_self⟩
  rw [meets_iff]
  refine ⟨mask.toNat.log2, ?_, Nat.testBit_log2 hn⟩
  rw [← hlog]
  exact Nat.testBit_log2 htag

/-- No tag meets an empty mask. -/
theorem not_meets_zero : meets tag 0 = false := by
  simp [meets]

/-! ## The loop -/

theorem isWaiterFrom_cons (hmask : mask ≠ 0) {c : κ} {l : List (UInt64 × κ)}
    (h : 2 ^ mask.toNat.log2 ≤ tag.toNat) : isWaiterFrom mask ((tag, c) :: l) = meets tag mask := by
  rw [isWaiterFrom]
  split
  · rename_i hm
    exact hm.symm
  · rename_i hm
    have hlt : mask < tag := by
      rw [← UInt64.not_le]
      exact fun hle => hm (meets_of_between hmask h hle)
    rw [if_pos hlt]
    exact (Bool.eq_false_iff.mpr hm).symm

/-- A waiter that was found meets the mask. -/
theorem exists_of_isWaiterFrom {l : List (UInt64 × κ)} (h : isWaiterFrom mask l = true) :
    ∃ p ∈ l, meets p.1 mask := by
  induction l with
  | nil => cases h
  | cons p l ih =>
    rw [isWaiterFrom] at h
    by_cases hm : meets p.1 mask
    · exact ⟨p, List.mem_cons_self, hm⟩
    · rw [if_neg hm] at h
      split at h
      · cases h
      · obtain ⟨q, hq, hqm⟩ := ih h
        exact ⟨q, List.mem_cons_of_mem p hq, hqm⟩

theorem sorted_addWaiter {c : κ} (h : w.waiting.Pairwise fun p q => p.1 ≤ q.1) :
    (w.addWaiter tag c).waiting.Pairwise fun p q => p.1 ≤ q.1 := by
  have hw : (w.addWaiter tag c).waiting =
      w.waiting.takeWhile (·.1 ≤ tag) ++ (tag, c) :: w.waiting.dropWhile (·.1 ≤ tag) := by
    rw [addWaiter]
    split <;> rfl
  have htail : ∀ p ∈ w.waiting.dropWhile (·.1 ≤ tag), tag < p.1 := by
    intro p hp
    rw [Ordered.dropWhile_eq_filter h, List.mem_filter] at hp
    · simpa using hp.2
    · intro a b hab hb
      rw [decide_eq_true_eq] at hb ⊢
      exact UInt64.le_trans hab hb
  have hhead : ∀ p ∈ w.waiting.takeWhile (·.1 ≤ tag), p.1 ≤ tag := fun p hp => by
    simpa using List.mem_takeWhile_imp hp
  rw [hw, List.pairwise_append, List.pairwise_cons]
  refine ⟨h.sublist (List.takeWhile_sublist _), ⟨fun p hp => UInt64.le_of_lt (htail p hp), ?_⟩, ?_⟩
  · exact h.sublist (List.dropWhile_sublist _)
  · intro p hp q hq
    rcases List.mem_cons.mp hq with rfl | hq
    · exact hhead p hp
    · exact UInt64.le_trans (hhead p hp) (UInt64.le_of_lt (htail q hq))

/-- The answer is about the smallest tag from the highest bit of the mask on. -/
theorem isWaiterFor_iff (hw : w.waiting.Pairwise fun p q => p.1 ≤ q.1) (hmask : mask ≠ 0) :
    w.isWaiterFor mask = true ↔ ∃ p ∈ w.waiting, meets p.1 mask ∧ 2 ^ mask.toNat.log2 ≤ p.1.toNat ∧
      ∀ q ∈ w.waiting, 2 ^ mask.toNat.log2 ≤ q.1.toNat → p.1 ≤ q.1 := by
  have hge : ∀ t : UInt64, ¬t < clearLsb mask ↔ 2 ^ mask.toNat.log2 ≤ t.toNat := by
    intro t
    rw [UInt64.not_lt, UInt64.le_iff_toNat_le, toNat_clearLsb hmask]
  have hdrop : w.waiting.dropWhile (·.1 < clearLsb mask) =
      w.waiting.filter fun p => !decide (p.1 < clearLsb mask) := by
    apply Ordered.dropWhile_eq_filter hw
    intro a b hab hb
    rw [decide_eq_true_eq] at hb ⊢
    exact UInt64.lt_of_le_of_lt hab hb
  have hmem : ∀ p, p ∈ w.waiting.dropWhile (·.1 < clearLsb mask) ↔
      p ∈ w.waiting ∧ 2 ^ mask.toNat.log2 ≤ p.1.toNat := by
    intro p
    rw [hdrop, List.mem_filter, ← hge]
    simp
  have hsorted := hw.sublist (List.dropWhile_sublist (fun p : UInt64 × κ => decide (p.1 < clearLsb mask)))
  have hstart : w.isWaiterFor mask = isWaiterFrom mask (w.waiting.dropWhile (·.1 < clearLsb mask)) := rfl
  rw [hstart]
  cases hl : w.waiting.dropWhile (·.1 < clearLsb mask) with
  | nil =>
    constructor
    · intro h
      cases h
    · rintro ⟨p, hp, -, hbit, -⟩
      have := (hmem p).mpr ⟨hp, hbit⟩
      rw [hl] at this
      cases this
  | cons p l =>
    have hp := (hmem p).mp (by rw [hl]; exact List.mem_cons_self)
    have hmin : ∀ q ∈ w.waiting, 2 ^ mask.toNat.log2 ≤ q.1.toNat → p.1 ≤ q.1 := by
      intro q hq hbit
      have hql := (hmem q).mpr ⟨hq, hbit⟩
      rw [hl] at hql hsorted
      rcases List.mem_cons.mp hql with rfl | hql
      · exact UInt64.le_refl _
      · exact (List.pairwise_cons.mp hsorted).1 q hql
    rw [isWaiterFrom_cons hmask hp.2]
    constructor
    · intro h
      exact ⟨p, hp.1, h, hp.2, hmin⟩
    · rintro ⟨q, hq, hm, hbit, hqmin⟩
      have heq : q.1 = p.1 := UInt64.le_antisymm (hqmin p hp.1 hp.2) (hmin q hq hbit)
      rwa [← heq]

/-! ## Against `take_waiting` -/

/-- The waiters after some calls of `add_waiter`. -/
def addWaiters (ws : List (UInt64 × κ)) : Waiters ν κ :=
  ws.foldl (fun w p => w.addWaiter p.1 p.2) empty

/-- `take_waiting` returns, and hands out at least one context. -/
def HandsOut (w : Waiters ν κ) (mask : UInt64) : Prop :=
  ∃ w', w.takeTagged mask = .ok w' ∧ w.taken.length < w'.taken.length

/-- What callers of `is_waiter_for` take it for. -/
def Foresees (w : Waiters ν κ) (mask : UInt64) : Prop :=
  w.isWaiterFor mask = true ↔ w.HandsOut mask

theorem addWaiters_ok [LinearOrder ν] (ws : List (UInt64 × κ)) : (addWaiters ws : Waiters ν κ).Pinned ∧
    (addWaiters ws : Waiters ν κ).waiting.Pairwise (fun p q => p.1 ≤ q.1) ∧
    (addWaiters ws : Waiters ν κ).waiting.Perm ws := by
  induction ws using List.reverseRecOn with
  | nil => exact ⟨pinned_empty, List.Pairwise.nil, List.Perm.refl _⟩
  | append_singleton ws p ih =>
    obtain ⟨hpin, hsort, hperm⟩ := ih
    have hadd : (addWaiters (ws ++ [p]) : Waiters ν κ) = (addWaiters ws).addWaiter p.1 p.2 := by
      rw [addWaiters, List.foldl_append]
      rfl
    rw [hadd]
    refine ⟨addWaiter_pinned hpin, sorted_addWaiter hsort, ?_⟩
    exact addWaiter_perm.trans ((hperm.cons p).trans (List.perm_append_singleton p ws).symm)

theorem handsOut_iff [LinearOrder ν] (h : w.Pinned) : w.HandsOut mask ↔ ∃ p ∈ w.waiting, meets p.1 mask := by
  obtain ⟨w', hw', -, -, -, htaken⟩ := takeTagged_eq h mask
  have hlen : w'.taken.length = w.taken.length + (w.waiting.filter fun p => meets p.1 mask).length := by
    rw [htaken, List.length_append, List.length_map]
  have hout : w.HandsOut mask ↔ w.taken.length < w'.taken.length := by
    constructor
    · rintro ⟨w₁, hw₁, hlt⟩
      rw [hw', Except.ok.injEq] at hw₁
      rwa [hw₁]
    · exact fun hlt => ⟨w', hw', hlt⟩
  rw [hout, hlen, Nat.lt_add_right_iff_pos, List.length_filter_pos_iff]

/-- `is_waiter_for` agrees with `take_waiting` iff no tag meets the mask, or the
smallest one from the highest bit of the mask on does. -/
theorem foresees_iff [LinearOrder ν] (ws : List (UInt64 × κ)) (mask : UInt64) :
    (addWaiters ws : Waiters ν κ).Foresees mask ↔ (∀ p ∈ ws, ¬meets p.1 mask) ∨
      ∃ p ∈ ws, meets p.1 mask ∧ 2 ^ mask.toNat.log2 ≤ p.1.toNat ∧
        ∀ q ∈ ws, 2 ^ mask.toNat.log2 ≤ q.1.toNat → p.1 ≤ q.1 := by
  obtain ⟨hpin, hsort, hperm⟩ := addWaiters_ok (ν := ν) ws
  rw [Foresees, handsOut_iff hpin]
  by_cases hmask : mask = 0
  · subst hmask
    have hnone : ∀ p : UInt64 × κ, ¬meets p.1 0 := fun p => Bool.eq_false_iff.mp not_meets_zero
    constructor
    · exact fun _ => .inl fun p _ => hnone p
    · refine fun _ => ⟨fun h => ?_, fun ⟨p, _, hm⟩ => absurd hm (hnone p)⟩
      obtain ⟨p, -, hm⟩ := exists_of_isWaiterFrom h
      exact absurd hm (hnone p)
  simp only [isWaiterFor_iff hsort hmask, hperm.mem_iff]
  constructor
  · intro h
    by_cases hex : ∃ p ∈ ws, meets p.1 mask
    · exact .inr (h.mpr hex)
    · exact .inl fun p hp hm => hex ⟨p, hp, hm⟩
  · rintro (hnone | hfirst)
    · constructor
      · rintro ⟨p, hp, hm, -⟩
        exact ⟨p, hp, hm⟩
      · rintro ⟨p, hp, hm⟩
        exact absurd hm (hnone p hp)
    · constructor
      · rintro ⟨p, hp, hm, -⟩
        exact ⟨p, hp, hm⟩
      · exact fun _ => hfirst

/-- A waiter for the lower of two bits is not seen. -/
theorem not_foresees : ¬(addWaiters [(1, ())] : Waiters ℕ Unit).Foresees 3 := by
  rw [foresees_iff]
  rintro (hnone | ⟨p, hp, -, hbit, -⟩)
  · exact hnone (1, ()) List.mem_cons_self rfl
  · obtain rfl := List.mem_singleton.mp hp
    exact absurd hbit (by decide)

end CephMds.Waiting.Waiters
