import Mathlib.Data.Nat.Bitwise
import Mathlib.Tactic.Common

/-!
# Words by their leading bits

`Leading w` stands for the `w`-bit words that begin with certain bits. It has
`2 ^ n` children with `n` bits more; each word of it is in exactly one of them
(`contains_child_iff`), whose number can be read off its value (`index_child`).
A `Cover` of all words has one member for each word; where a member was replaced
by its children, the word's member is the child (`Cover.pick_eq_child`).
-/

namespace CephMds

namespace LeadingBits

/-- The first `b` of `w` bits. -/
def mask (w b : ℕ) : ℕ := ((2 ^ w - 1) <<< (w - b)) &&& (2 ^ w - 1)

theorem testBit_mask (w b j : ℕ) : (mask w b).testBit j = (decide (w - b ≤ j) && decide (j < w)) := by
  rw [mask, Nat.testBit_and, Nat.testBit_shiftLeft, Nat.testBit_two_pow_sub_one, Nat.testBit_two_pow_sub_one]
  by_cases h : w - b ≤ j
  · by_cases h' : j < w
    · have hlt : j - (w - b) < w := by omega
      simp [h, h', hlt]
    · simp [h']
  · simp [h]

end LeadingBits

open LeadingBits

/-- The words whose first `bits` of `w` bits are those of `value`. -/
@[ext] structure Leading (w : ℕ) where
  value : ℕ
  bits : ℕ
  bits_le : bits ≤ w
  masked : value &&& mask w bits = value
  deriving DecidableEq

namespace Leading

variable {w n i j v : ℕ} {f g : Leading w}

def mask (f : Leading w) : ℕ := LeadingBits.mask w f.bits

/-- How far the bits are from the end of the word. -/
def maskShift (f : Leading w) : ℕ := w - f.bits

def contains (f : Leading w) (v : ℕ) : Bool := v &&& f.mask == f.value

/-- All words. -/
def root (w : ℕ) : Leading w where
  value := 0
  bits := 0
  bits_le := Nat.zero_le w
  masked := Nat.zero_and _

/-- The words with the first `b` bits of `v`. -/
def make (b v : ℕ) (h : b ≤ w) : Leading w where
  value := v &&& LeadingBits.mask w b
  bits := b
  bits_le := h
  masked := by rw [Nat.and_assoc, Nat.and_self]

/-- The `i`-th of the children with `n` bits more. -/
def child (f : Leading w) (n : ℕ) (h : f.bits + n ≤ w) (i : ℕ) : Leading w :=
  make (f.bits + n) (f.value ||| i <<< (w - (f.bits + n))) h

/-- All words of `g` are words of `f`. -/
def covers (f g : Leading w) : Bool := decide (f.bits ≤ g.bits) && f.contains g.value

/-- The number of `g` among the children of `f` at its depth. -/
def index (f g : Leading w) : ℕ := (g.value &&& (g.mask ^^^ f.mask)) >>> g.maskShift

/-- The number of the child that a word belongs to. -/
def childOf (f : Leading w) (n v : ℕ) : ℕ := (v >>> (w - (f.bits + n))) % 2 ^ n

theorem childOf_lt (f : Leading w) (n v : ℕ) : f.childOf n v < 2 ^ n := Nat.mod_lt _ (Nat.two_pow_pos n)

/-- Where the bits of the value are. -/
theorem testBit_value (f : Leading w) (j : ℕ) (h : f.value.testBit j = true) : w - f.bits ≤ j ∧ j < w := by
  rw [← f.masked, Nat.testBit_and, testBit_mask] at h
  simpa using (Bool.and_eq_true_iff.mp h).2

theorem contains_iff : f.contains v = true ↔
    ∀ j, w - f.bits ≤ j → j < w → v.testBit j = f.value.testBit j := by
  rw [contains, beq_iff_eq]
  constructor
  · intro h j hlow hhigh
    rw [← h, Nat.testBit_and, mask, testBit_mask, decide_eq_true hlow, decide_eq_true hhigh, Bool.and_self,
      Bool.and_true]
  · intro h
    refine Nat.eq_of_testBit_eq fun j => ?_
    rw [Nat.testBit_and, mask, testBit_mask]
    by_cases hj : w - f.bits ≤ j ∧ j < w
    · rw [decide_eq_true hj.1, decide_eq_true hj.2, Bool.and_self, Bool.and_true]
      exact h j hj.1 hj.2
    · have hf : f.value.testBit j = false := by
        rw [Bool.eq_false_iff]
        exact fun hb => hj (f.testBit_value j hb)
      rw [hf]
      simp only [Bool.and_eq_false_iff, decide_eq_false_iff_not]
      exact .inr (not_and_or.mp hj)

theorem testBit_childOf :
    (f.childOf n v).testBit j = (decide (j < n) && v.testBit (w - (f.bits + n) + j)) := by
  rw [childOf, Nat.testBit_mod_two_pow, Nat.testBit_shiftRight]

/-- The bits of a child: those of the number behind the old ones. -/
theorem testBit_child (h : f.bits + n ≤ w) (hi : i < 2 ^ n) : (f.child n h i).value.testBit j =
    (f.value.testBit j || (decide (w - (f.bits + n) ≤ j) && i.testBit (j - (w - (f.bits + n))))) := by
  show ((f.value ||| i <<< (w - (f.bits + n))) &&& LeadingBits.mask w (f.bits + n)).testBit j = _
  rw [Nat.testBit_and, testBit_mask, Nat.testBit_or, Nat.testBit_shiftLeft]
  by_cases hf : f.value.testBit j = true
  · obtain ⟨hlow, hhigh⟩ := f.testBit_value j hf
    rw [hf, Bool.true_or, Bool.true_and, decide_eq_true hhigh, decide_eq_true (by omega)]
    rfl
  · rw [Bool.not_eq_true] at hf
    rw [hf, Bool.false_or]
    by_cases hlow : w - (f.bits + n) ≤ j
    · by_cases hhigh : j < w
      · simp [hlow, hhigh]
      · -- The number has no bits there.
        have hlarge : i < 2 ^ (j - (w - (f.bits + n))) :=
          hi.trans_le (Nat.pow_le_pow_right Nat.two_pos (by omega))
        rw [Nat.testBit_lt_two_pow hlarge]
        simp
    · simp [hlow]

theorem index_child (h : f.bits + n ≤ w) (hi : i < 2 ^ n) : f.index (f.child n h i) = i := by
  refine Nat.eq_of_testBit_eq fun j => ?_
  have hshift : (f.child n h i).maskShift = w - (f.bits + n) := rfl
  rw [index, Nat.testBit_shiftRight, Nat.testBit_and, Nat.testBit_xor, testBit_child h hi, mask, mask, testBit_mask,
    testBit_mask, hshift]
  have hbits : (f.child n h i).bits = f.bits + n := rfl
  rw [hbits]
  by_cases hj : j < n
  · -- Between the depth of `f` and that of the child.
    have hf : f.value.testBit (w - (f.bits + n) + j) = false := by
      rw [Bool.eq_false_iff]
      intro hb
      have := f.testBit_value _ hb
      omega
    rw [hf]
    have h₁ : ¬ w - f.bits ≤ w - (f.bits + n) + j := by omega
    have h₂ : w - (f.bits + n) + j < w := by omega
    simp [h₁, h₂]
  · have hlarge : i < 2 ^ j := hi.trans_le (Nat.pow_le_pow_right Nat.two_pos (by omega))
    rw [Nat.testBit_lt_two_pow hlarge]
    have h₁ : w - f.bits ≤ w - (f.bits + n) + j := by omega
    simp [h₁]

/-- A word of `f` is in one child. -/
theorem contains_child_iff (h : f.bits + n ≤ w) (hi : i < 2 ^ n) :
    (f.child n h i).contains v = true ↔ f.contains v = true ∧ f.childOf n v = i := by
  have hbits : (f.child n h i).bits = f.bits + n := rfl
  rw [contains_iff, contains_iff, hbits]
  constructor
  · intro hc
    refine ⟨fun j hlow hhigh => ?_, Nat.eq_of_testBit_eq fun j => ?_⟩
    · rw [hc j (by omega) hhigh, testBit_child h hi]
      have hlarge : i < 2 ^ (j - (w - (f.bits + n))) := hi.trans_le (Nat.pow_le_pow_right Nat.two_pos (by omega))
      rw [Nat.testBit_lt_two_pow hlarge]
      simp
    · rw [testBit_childOf]
      by_cases hj : j < n
      · have hf : f.value.testBit (w - (f.bits + n) + j) = false := by
          rw [Bool.eq_false_iff]
          intro hb
          have := f.testBit_value _ hb
          omega
        rw [hc _ (by omega) (by omega), testBit_child h hi, hf]
        simp [hj]
      · have hlarge : i < 2 ^ j := hi.trans_le (Nat.pow_le_pow_right Nat.two_pos (by omega))
        rw [Nat.testBit_lt_two_pow hlarge]
        simp [hj]
  · rintro ⟨hc, rfl⟩ j hlow hhigh
    rw [testBit_child h (f.childOf_lt n v), testBit_childOf]
    by_cases hj : w - f.bits ≤ j
    · have hn : ¬ j - (w - (f.bits + n)) < n := by omega
      simp [hc j hj hhigh, hn]
    · have hf : f.value.testBit j = false := by
        rw [Bool.eq_false_iff]
        intro hb
        exact hj (f.testBit_value _ hb).1
      have hn : j - (w - (f.bits + n)) < n := by omega
      have he : w - (f.bits + n) + (j - (w - (f.bits + n))) = j := by omega
      simp [hf, hlow, hn, he]

theorem contains_of_covers (h : f.covers g = true) (hv : g.contains v = true) : f.contains v = true := by
  rw [covers, Bool.and_eq_true, decide_eq_true_eq] at h
  have hg := contains_iff.mp hv
  have hf := contains_iff.mp h.2
  rw [contains_iff]
  intro j hlow hhigh
  rw [hg j (by omega) hhigh, hf j hlow hhigh]

theorem contains_value (f : Leading w) : f.contains f.value = true := beq_iff_eq.mpr f.masked

theorem covers_self (f : Leading w) : f.covers f = true := by
  rw [covers, f.contains_value, decide_eq_true (le_refl f.bits)]
  rfl

theorem contains_root (w v : ℕ) : (root w).contains v = true := by
  rw [contains_iff]
  intro j hlow hhigh
  have : (root w).bits = 0 := rfl
  omega

theorem contains_make {b : ℕ} (h : b ≤ w) : (make b v h).contains v = true := beq_self_eq_true _

end Leading

/-- One of `member` for each word. -/
structure Cover (w : ℕ) where
  member : Leading w → Prop
  pick : ℕ → Leading w
  member_pick (v : ℕ) : member (pick v)
  contains_pick (v : ℕ) : (pick v).contains v = true
  unique {f g : Leading w} {v : ℕ} : member f → member g → f.contains v = true → g.contains v = true → f = g

namespace Cover

variable {w n v : ℕ} {f g : Leading w}

/-- Two members have no word in common. -/
theorem disjoint (c : Cover w) (hf : c.member f) (hg : c.member g) (hne : f ≠ g) (hv : f.contains v = true) :
    g.contains v = false := by
  rw [Bool.eq_false_iff]
  exact fun h => hne (c.unique hf hg hv h)

/-- All children of `f` with `n` bits more are members. -/
def SplitAt (c : Cover w) (f : Leading w) (n : ℕ) (h : f.bits + n ≤ w) : Prop :=
  ∀ i < 2 ^ n, c.member (f.child n h i)

theorem pick_eq_child {c : Cover w} {h : f.bits + n ≤ w} (hc : c.SplitAt f n h) (hv : f.contains v = true) :
    c.pick v = f.child n h (f.childOf n v) :=
  c.unique (c.member_pick v) (hc _ (f.childOf_lt n v)) (c.contains_pick v)
    ((Leading.contains_child_iff h (f.childOf_lt n v)).mpr ⟨hv, rfl⟩)

/-- The cover by all with `b` bits. -/
def uniform (w b : ℕ) (h : b ≤ w) : Cover w where
  member f := f.bits = b
  pick v := .make b v h
  member_pick _ := rfl
  contains_pick _ := Leading.contains_make h
  unique {f g v} hf hg hfv hgv := by
    have hvalue : f.value = g.value := by
      rw [← beq_iff_eq.mp hfv, ← beq_iff_eq.mp hgv, Leading.mask, Leading.mask, hf, hg]
    exact Leading.ext hvalue (hf.trans hg.symm)

end Cover

end CephMds
