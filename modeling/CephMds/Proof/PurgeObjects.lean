import CephMds.Model.PurgeObjects

/-!
# What a purge leaves behind

The number of objects is computed as the number of periods, which is less
wherever the file has a second stripe unit and the layout more than one object
in a set; and the rounding up to a period can wrap around. So `purge_stray` and
`truncate_stray` reach all objects of a file in these cases only
(`reached_iff`).
-/

namespace CephMds.PurgeObjects

variable {f : File} {x : ℕ}

/-! ## Numbers of 64 bits -/

theorem period_toNat (f : File) : f.layout.period.toNat = f.striping.period := by
  have hsize : f.layout.flObjectSize.toNat < 2 ^ 32 := f.layout.flObjectSize.toNat_lt
  have hcount : f.layout.flStripeCount.toNat < 2 ^ 32 := f.layout.flStripeCount.toNat_lt
  rw [Layout.period, UInt64.toNat_mul, UInt32.toNat_toUInt64, UInt32.toNat_toUInt64]
  have hmul : f.layout.flObjectSize.toNat * f.layout.flStripeCount.toNat < 2 ^ 32 * 2 ^ 32 :=
    Nat.mul_lt_mul'' hsize hcount
  exact Nat.mod_eq_of_lt (hmul.trans_eq (Nat.pow_add 2 32 32).symm)

theorem period_ne_zero (f : File) : f.layout.period ≠ 0 := by
  intro h
  have hpos := f.striping.period_pos
  rw [← period_toNat, h] at hpos
  exact absurd hpos (lt_irrefl 0)

theorem pos_iff (a : UInt64) : a ≠ 0 ↔ 0 < a.toNat := by
  rw [Nat.pos_iff_ne_zero, ne_eq, ne_eq, ← UInt64.toNat_inj]
  rfl

/-- Where the sum does not wrap around, it is rounded up. -/
theorem num_of_le {a p : UInt64} (ha : a ≠ 0) (h : a.toNat + p.toNat ≤ 2 ^ 64) :
    ((a + p - 1) / p).toNat = (a.toNat + p.toNat - 1) / p.toNat := by
  have hpos := (pos_iff a).mp ha
  rw [UInt64.toNat_div, UInt64.toNat_sub, UInt64.toNat_add]
  show (2 ^ 64 - 1 + (a.toNat + p.toNat) % 2 ^ 64) % 2 ^ 64 / p.toNat = _
  congr 1
  omega

/-- Where it does, there is nothing left of it. -/
theorem num_of_lt {a p : UInt64} (h : 2 ^ 64 < a.toNat + p.toNat) : ((a + p - 1) / p).toNat = 0 := by
  have ha := a.toNat_lt
  rw [UInt64.toNat_div, UInt64.toNat_sub, UInt64.toNat_add]
  show (2 ^ 64 - 1 + (a.toNat + p.toNat) % 2 ^ 64) % 2 ^ 64 / p.toNat = 0
  apply Nat.div_eq_of_lt
  omega

theorem num_pred {a p : UInt64} (ha : p < a) : ((a - 1) / p).toNat = (a.toNat - 1) / p.toNat := by
  have hlt := UInt64.lt_iff_toNat_lt.mp ha
  have := a.toNat_lt
  rw [UInt64.toNat_div, UInt64.toNat_sub]
  show (2 ^ 64 - 1 + a.toNat) % 2 ^ 64 / p.toNat = _
  congr 1
  omega

/-! ## purge_stray -/

/-- The objects from the first one on, as many as computed. -/
theorem reached_purgeStray (f : File) : f.Reached (purgeStray f) ↔
    ∀ x < f.upTo.toNat, f.striping.object x < ((f.upTo + f.layout.period - 1) / f.layout.period).toNat := by
  refine forall₂_congr fun x hx => ?_
  have hto : f.upTo ≠ 0 := (pos_iff _).mpr (by omega)
  have hreq : purgeStray f = [.purgeRange 0 ((f.upTo + f.layout.period - 1) / f.layout.period)] := by
    rw [purgeStray]
    dsimp only
    rw [if_pos (⟨hto, period_ne_zero f⟩ : f.upTo ≠ 0 ∧ f.layout.period ≠ 0)]
    rfl
  rw [hreq]
  simp [Request.objects]

/-- The last period has an object that is not counted, if there is more than one in a set. -/
theorem exists_object_ge {st : Striping} {n : ℕ} (hcount : 1 < st.count) (hto : st.unit < n) :
    ∃ x < n, (n + st.period - 1) / st.period ≤ st.object x := by
  have hpos := st.period_pos
  by_cases hle : n ≤ st.period
  · refine ⟨st.unit, hto, ?_⟩
    rw [st.object_unit hcount]
    exact Nat.le_of_lt_succ ((Nat.div_lt_iff_lt_mul hpos).mpr (by omega))
  · have hq : 1 ≤ (n - 1) / st.period := (Nat.one_le_div_iff hpos).mpr (by omega)
    refine ⟨(n - 1) / st.period * st.period, ?_, ?_⟩
    · have := Nat.div_mul_le_self (n - 1) st.period
      omega
    · have hnum : (n + st.period - 1) / st.period = (n - 1) / st.period + 1 := by
        rw [← Nat.add_div_right _ hpos]
        congr 1
        omega
      rw [hnum, st.object_mul_period]
      calc (n - 1) / st.period + 1 ≤ (n - 1) / st.period * 2 := by omega
        _ ≤ (n - 1) / st.period * st.count := Nat.mul_le_mul_left _ hcount

theorem purgeStray_iff (f : File) : f.Reached (purgeStray f) ↔
    (f.striping.count = 1 ∨ f.upTo.toNat ≤ f.striping.unit) ∧ f.upTo.toNat + f.striping.period ≤ 2 ^ 64 := by
  have hpos := f.striping.period_pos
  have hcpos := f.striping.count_pos
  have hunit := f.striping.unit_le_period
  have hlt : f.layout.period.toNat < 2 ^ 64 := f.layout.period.toNat_lt
  rw [reached_purgeStray]
  rcases Nat.eq_zero_or_pos f.upTo.toNat with hzero | hto
  · rw [hzero]
    rw [period_toNat] at hlt
    simp only [Nat.not_lt_zero, IsEmpty.forall_iff, implies_true, true_iff]
    exact ⟨.inr (Nat.zero_le _), by omega⟩
  · constructor
    · intro h
      have hfits : f.upTo.toNat + f.striping.period ≤ 2 ^ 64 := by
        by_contra hno
        have := h 0 hto
        rw [num_of_lt (by rw [period_toNat]; omega)] at this
        omega
      refine ⟨?_, hfits⟩
      by_contra hno
      rw [not_or, not_le] at hno
      obtain ⟨x, hx, hge⟩ := exists_object_ge (by omega) hno.2
      have := h x hx
      rw [num_of_le ((pos_iff _).mpr hto) (by rw [period_toNat]; omega), period_toNat] at this
      omega
    · rintro ⟨hcase, hfits⟩ x hx
      rw [num_of_le ((pos_iff _).mpr hto) (by rw [period_toNat]; omega), period_toNat]
      rcases hcase with hone | hle
      · rw [f.striping.object_of_count_eq_one hone]
        calc x / f.striping.period ≤ (f.upTo.toNat - 1) / f.striping.period := Nat.div_le_div_right (by omega)
          _ < (f.upTo.toNat - 1 + f.striping.period) / f.striping.period := by
            rw [Nat.add_div_right _ hpos]
            exact Nat.lt_succ_self _
          _ = (f.upTo.toNat + f.striping.period - 1) / f.striping.period := by
            congr 1
            omega
      · rw [f.striping.object_of_lt_unit (by omega)]
        exact Nat.div_pos (by omega) hpos

/-! ## truncate_stray -/

/-- The first set is zeroed. -/
theorem mem_zero {st : Striping} {p : UInt64} (hp : p.toNat = st.period) (o : ℕ) (ho : ∃ x, st.object x = o) :
    o ∈ Request.objects st (.zero 0 p) ↔ o < st.count := by
  obtain ⟨x, rfl⟩ := ho
  have hiff := st.object_lt_iff (x := x) (k := 1)
  rw [Nat.one_mul, Nat.one_mul] at hiff
  constructor
  · rintro ⟨y, -, hy, he⟩
    have hiff' := st.object_lt_iff (x := y) (k := 1)
    rw [Nat.one_mul, Nat.one_mul] at hiff'
    rw [← he, hiff', ← hp]
    simpa using hy
  · intro h
    exact ⟨x, Nat.zero_le _, by rw [hp]; simpa using hiff.mp h, rfl⟩

theorem reached_truncateStray (f : File) : f.Reached (truncateStray f) ↔
    ∀ x < f.upTo.toNat, f.striping.object x < f.striping.count ∨
      f.striping.period < f.upTo.toNat ∧ f.striping.object x ≤ (f.upTo.toNat - 1) / f.striping.period := by
  refine forall₂_congr fun x hx => ?_
  have hto : f.upTo > 0 := UInt64.lt_iff_toNat_lt.mpr (show 0 < f.upTo.toNat by omega)
  have hzero := mem_zero (period_toNat f) (f.striping.object x) ⟨x, rfl⟩
  have hcpos := f.striping.count_pos
  rw [truncateStray]
  dsimp only
  rw [if_pos (⟨period_ne_zero f, hto⟩ : f.layout.period ≠ 0 ∧ f.upTo > 0)]
  by_cases hgt : f.upTo > f.layout.period
  · have hlt := UInt64.lt_iff_toNat_lt.mp hgt
    rw [period_toNat] at hlt
    rw [if_pos ⟨period_ne_zero f, hgt⟩]
    simp only [List.singleton_append, List.exists_mem_cons_iff, List.not_mem_nil, false_and, exists_false, or_false, hzero]
    show (1 ≤ f.striping.object x ∧ f.striping.object x < 1 + _) ∨ _ ↔ _
    rw [num_pred hgt, period_toNat]
    omega
  · have hle : f.upTo.toNat ≤ f.striping.period := by
      rw [← period_toNat, ← not_lt, ← UInt64.lt_iff_toNat_lt]
      exact hgt
    rw [if_neg (fun h => hgt h.2)]
    simp only [List.nil_append, List.exists_mem_cons_iff, List.not_mem_nil, false_and, exists_false, or_false, hzero]
    omega

theorem truncateStray_iff (f : File) : f.Reached (truncateStray f) ↔
    f.striping.count = 1 ∨ f.upTo.toNat ≤ f.striping.period := by
  have hpos := f.striping.period_pos
  have hcpos := f.striping.count_pos
  rw [reached_truncateStray]
  constructor
  · intro h
    by_contra hno
    rw [not_or, not_le] at hno
    -- The first object of the last set.
    have hq : 1 ≤ (f.upTo.toNat - 1) / f.striping.period := (Nat.one_le_div_iff hpos).mpr (by omega)
    have hmul := Nat.div_mul_le_self (f.upTo.toNat - 1) f.striping.period
    have hx := h ((f.upTo.toNat - 1) / f.striping.period * f.striping.period) (by omega)
    rw [f.striping.object_mul_period] at hx
    have hge : (f.upTo.toNat - 1) / f.striping.period * 2 ≤ (f.upTo.toNat - 1) / f.striping.period * f.striping.count :=
      Nat.mul_le_mul_left _ (by omega)
    have hge' : 1 * f.striping.count ≤ (f.upTo.toNat - 1) / f.striping.period * f.striping.count :=
      Nat.mul_le_mul_right _ hq
    omega
  · rintro (hone | hle) x hx
    · by_cases hgt : f.striping.period < f.upTo.toNat
      · right
        refine ⟨hgt, ?_⟩
        rw [f.striping.object_of_count_eq_one hone]
        exact Nat.div_le_div_right (by omega)
      · left
        rw [← Nat.one_mul f.striping.count, f.striping.object_lt_iff]
        omega
    · left
      rw [← Nat.one_mul f.striping.count, f.striping.object_lt_iff]
      omega

/-! ## Together -/

/-- A purge reaches all objects of a file exactly if the layout has one object in a set, or the
file at most one stripe unit, and the size rounded up fits into 64 bits; `truncate_stray` alone
exactly if the layout has one object in a set, or the file at most one period. -/
theorem reached_iff (f : File) :
    (f.Reached (purgeStray f) ∧ f.Reached (truncateStray f) ↔
      (f.layout.flStripeCount = 1 ∨ f.upTo.toNat ≤ f.layout.flStripeUnit.toNat) ∧
        f.upTo.toNat + f.layout.flObjectSize.toNat * f.layout.flStripeCount.toNat ≤ 2 ^ 64) ∧
    (f.Reached (truncateStray f) ↔ f.layout.flStripeCount = 1 ∨
      f.upTo.toNat ≤ f.layout.flObjectSize.toNat * f.layout.flStripeCount.toNat) := by
  have hone : f.striping.count = 1 ↔ f.layout.flStripeCount = 1 := UInt32.toNat_inj (b := 1)
  rw [purgeStray_iff, truncateStray_iff, hone]
  refine ⟨⟨fun h => h.1, fun h => ⟨h, ?_⟩⟩, Iff.rfl⟩
  exact h.1.imp_right fun hle => hle.trans f.striping.unit_le_period

/-- Two objects in a set, of one stripe unit each, and a file of both. -/
def twoObjects : File where
  layout := ⟨65536, 2, 65536⟩
  striped := ⟨by decide, by decide, by decide, by decide⟩
  size := 131072
  maxSizeEver := 0
  clientRanges := []

/-- The second object of the file is left. -/
theorem twoObjects_not_reached : ¬(twoObjects.Reached (purgeStray twoObjects) ∧ twoObjects.Reached (truncateStray twoObjects)) := by
  intro h
  obtain ⟨r, hr, ho⟩ := h.1 65536 (by decide)
  have hreq : purgeStray twoObjects = [.purgeRange 0 1] := by decide
  rw [hreq, List.mem_singleton] at hr
  rw [hr] at ho
  exact absurd ho.2 (by decide)

end CephMds.PurgeObjects
