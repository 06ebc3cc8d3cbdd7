import Mathlib

/-!
# Striping

The bytes of a file are dealt out in units to the objects of a set, and set
after set. `object` is the object of a byte; the objects of a set are those of
one period of bytes (`object_div`), and the first byte of a period is in the
first object of its set (`object_mul_period`).
-/

namespace CephMds

/-- `unit` bytes at a time go to one of `count` objects of `size` bytes. -/
structure Striping where
  unit : ℕ
  count : ℕ
  size : ℕ
  unit_pos : 0 < unit
  count_pos : 0 < count
  size_pos : 0 < size
  unit_dvd_size : unit ∣ size

namespace Striping

variable (l : Striping) {x y : ℕ}

def period : ℕ := l.size * l.count

/-- The object of a byte. -/
def object (x : ℕ) : ℕ :=
  let b := x / l.unit
  let s := b / l.count
  s / (l.size / l.unit) * l.count + b % l.count

theorem period_pos : 0 < l.period := Nat.mul_pos l.size_pos l.count_pos

/-- The set of the object of a byte. -/
theorem object_div (x : ℕ) : l.object x / l.count = x / l.period := by
  have hmod : x / l.unit % l.count / l.count = 0 := Nat.div_eq_of_lt (Nat.mod_lt _ l.count_pos)
  have hperiod : l.unit * (l.count * (l.size / l.unit)) = l.period := by
    rw [Nat.mul_left_comm, Nat.mul_div_cancel' l.unit_dvd_size, period, Nat.mul_comm]
  rw [object, Nat.mul_comm, Nat.mul_add_div l.count_pos, hmod, Nat.add_zero, Nat.div_div_eq_div_mul,
    Nat.div_div_eq_div_mul, hperiod]

/-- The bytes before a period end are in the objects before it. -/
theorem object_lt_iff {k : ℕ} : l.object x < k * l.count ↔ x < k * l.period := by
  rw [← Nat.div_lt_iff_lt_mul l.count_pos, object_div, Nat.div_lt_iff_lt_mul l.period_pos]

/-- A period begins with the first object of its set. -/
theorem object_mul_period (q : ℕ) : l.object (q * l.period) = q * l.count := by
  have hmod : q * l.period / l.unit % l.count = 0 := by
    obtain ⟨c, hc⟩ := l.unit_dvd_size
    have heq : q * l.period = l.unit * (q * c * l.count) := by
      rw [period, hc]
      ring
    rw [heq, Nat.mul_div_cancel_left _ l.unit_pos, Nat.mul_mod_left]
  have hdiv := l.object_div (q * l.period)
  rw [Nat.mul_div_cancel _ l.period_pos] at hdiv
  have hobj : l.object (q * l.period) % l.count = 0 := by
    rw [object, hmod, Nat.add_zero, Nat.mul_mod_left]
  have := Nat.div_add_mod (l.object (q * l.period)) l.count
  rw [hdiv, hobj] at this
  linarith

theorem object_of_lt_unit (h : x < l.unit) : l.object x = 0 := by
  rw [object, Nat.div_eq_of_lt h]
  simp

/-- The second unit is in the second object. -/
theorem object_unit (h : 1 < l.count) : l.object l.unit = 1 := by
  rw [object, Nat.div_self l.unit_pos]
  show 1 / l.count / _ * _ + 1 % l.count = 1
  rw [Nat.div_eq_of_lt h, Nat.mod_eq_of_lt h, Nat.zero_div, Nat.zero_mul]

/-- With one object in a set there is an object for each period. -/
theorem object_of_count_eq_one (h : l.count = 1) (x : ℕ) : l.object x = x / l.period := by
  have := l.object_div x
  rwa [h, Nat.div_one] at this

theorem unit_le_period : l.unit ≤ l.period :=
  (Nat.le_of_dvd l.size_pos l.unit_dvd_size).trans (Nat.le_mul_of_pos_right _ l.count_pos)

end Striping

end CephMds
