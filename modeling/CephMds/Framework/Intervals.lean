import Std.Data.ExtTreeMap
import Mathlib.Tactic.Common
import Mathlib.Algebra.Order.Group.Nat

/-!
# Maps from intervals to values

A map of the standard library from the last point of an interval to its first
point and a value. When the intervals are disjoint (`Disjoint`), the first key
that is not below a point is that of the interval around it, if there is one,
so that the map is a partial function of the points (`valueAt`). An interval can
be put where no other is, or replaced (`Disjoint.insert`), and cut in two
(`Disjoint.splitAt`).
-/

namespace CephMds.Intervals

/-- An interval that ends at its key. -/
structure Piece (β : Type) where
  first : ℕ
  value : β
  deriving DecidableEq

abbrev Pieces (β : Type) := Std.ExtTreeMap ℕ (Piece β)

variable {β : Type} {m : Pieces β} {p q : Piece β} {a b k s x y : ℕ} {v : β}

/-- `lower_bound`. -/
def lowerBound (m : Pieces β) (k : ℕ) : Option (ℕ × Piece β) := m.toList.find? fun p => decide (k ≤ p.1)

/-- The value of the interval around `s`. -/
def valueAt (m : Pieces β) (s : ℕ) : Option β :=
  (lowerBound m s).bind fun p => if p.2.first ≤ s then some p.2.value else none

/-- The interval that ends at `k` is cut after `s`. -/
def splitAt (m : Pieces β) (k s : ℕ) : Pieces β :=
  match m[k]? with
  | none => m
  | some p => (m.insert s p).insert k { p with first := s + 1 }

structure Disjoint (m : Pieces β) : Prop where
  nonempty {k : ℕ} {p : Piece β} : m[k]? = some p → p.first ≤ k
  apart {k k' : ℕ} {p p' : Piece β} : m[k]? = some p → m[k']? = some p' → k < k' → k < p'.first

theorem getElem?_insert : (m.insert k p)[x]? = if x = k then some p else m[x]? := by
  rw [Std.ExtTreeMap.getElem?_insert]
  exact if_congr (Nat.compare_eq_eq.trans eq_comm) rfl rfl

theorem getElem?_splitAt (hk : m[k]? = some p) :
    (splitAt m k s)[x]? = if x = k then some { p with first := s + 1 } else if x = s then some p else m[x]? := by
  unfold splitAt
  rw [hk]
  dsimp only
  rw [getElem?_insert, getElem?_insert]

theorem mem_iff : k ∈ m ↔ ∃ p, m[k]? = some p := by
  rw [← Std.ExtTreeMap.isSome_getElem?_iff_mem, Option.isSome_iff_exists]

theorem mem_insert : k ∈ m.insert x p ↔ k = x ∨ k ∈ m := by
  rw [mem_iff, mem_iff, getElem?_insert]
  split <;> simp [*]

/-! ## The lower bound -/

theorem lowerBound_eq_some :
    lowerBound m k = some (x, p) ↔ m[x]? = some p ∧ k ≤ x ∧ ∀ y q, m[y]? = some q → k ≤ y → x ≤ y := by
  have hsorted := Std.ExtTreeMap.ordered_keys_toList (t := m)
  unfold lowerBound
  constructor
  · intro h
    obtain ⟨hle, l, r, hl, hbefore⟩ := List.find?_eq_some_iff_append.mp h
    have hmem : ∀ y q, m[y]? = some q ↔ (y, q) ∈ l ++ (x, p) :: r := fun y q => by
      rw [← hl, Std.ExtTreeMap.mem_toList_iff_getElem?_eq_some]
    refine ⟨(hmem x p).mpr (by simp), of_decide_eq_true hle, fun y q hy hky => ?_⟩
    rw [hl, List.pairwise_append, List.pairwise_cons] at hsorted
    rcases List.mem_append.mp ((hmem y q).mp hy) with hy | hy
    · have := hbefore _ hy
      simp only [Bool.not_eq_true', decide_eq_false_iff_not] at this
      exact absurd hky this
    · rcases List.mem_cons.mp hy with hy | hy
      · rw [(Prod.mk.inj hy).1]
      · exact (Nat.compare_eq_lt.mp (hsorted.2.1.1 _ hy)).le
  · rintro ⟨hx, hkx, hleast⟩
    have hmem := Std.ExtTreeMap.mem_toList_iff_getElem?_eq_some.mpr hx
    cases hf : m.toList.find? fun p => decide (k ≤ p.1) with
    | none =>
      rw [List.find?_eq_none] at hf
      exact absurd (decide_eq_true hkx) (hf _ hmem)
    | some z =>
      obtain ⟨hle, l, r, hl, hbefore⟩ := List.find?_eq_some_iff_append.mp hf
      have hz : m[z.1]? = some z.2 := by
        rw [← Std.ExtTreeMap.mem_toList_iff_getElem?_eq_some, hl]
        simp
      have hxz := hleast z.1 z.2 hz (of_decide_eq_true hle)
      rw [hl, List.pairwise_append, List.pairwise_cons] at hsorted
      rw [hl] at hmem
      rcases List.mem_append.mp hmem with hx | hx
      · have := hbefore _ hx
        simp only [Bool.not_eq_true', decide_eq_false_iff_not] at this
        exact absurd hkx this
      · rcases List.mem_cons.mp hx with hx | hx
        · rw [hx]
        · exact absurd (Nat.compare_eq_lt.mp (hsorted.2.1.1 _ hx)) (by simpa using hxz)

theorem lowerBound_eq_none : lowerBound m k = none ↔ ∀ y q, m[y]? = some q → y < k := by
  unfold lowerBound
  rw [List.find?_eq_none]
  simp only [decide_eq_true_eq, not_le, Prod.forall, Std.ExtTreeMap.mem_toList_iff_getElem?_eq_some]

/-! ## The values -/

theorem Disjoint.valueAt_eq_some (h : Disjoint m) :
    valueAt m s = some v ↔ ∃ k p, m[k]? = some p ∧ p.first ≤ s ∧ s ≤ k ∧ p.value = v := by
  unfold valueAt
  rw [Option.bind_eq_some_iff]
  constructor
  · rintro ⟨⟨k, p⟩, hl, hv⟩
    obtain ⟨hk, hsk, -⟩ := lowerBound_eq_some.mp hl
    split at hv
    · exact ⟨k, p, hk, ‹_›, hsk, Option.some.inj hv⟩
    · cases hv
  · rintro ⟨k, p, hk, hf, hs, rfl⟩
    refine ⟨(k, p), lowerBound_eq_some.mpr ⟨hk, hs, fun y q hy hsy => ?_⟩, if_pos hf⟩
    by_contra hlt
    have := h.apart hy hk (by omega)
    omega

theorem Disjoint.valueAt_eq_none (h : Disjoint m) :
    valueAt m s = none ↔ ∀ k p, m[k]? = some p → p.first ≤ s → k < s := by
  constructor
  · intro hn k p hk hf
    by_contra hlt
    have := h.valueAt_eq_some.mpr ⟨k, p, hk, hf, by omega, rfl⟩
    rw [hn] at this
    cases this
  · intro hall
    refine Option.eq_none_iff_forall_ne_some.mpr fun v hv => ?_
    obtain ⟨k, p, hk, hf, hs, -⟩ := h.valueAt_eq_some.mp hv
    have := hall k p hk hf
    omega

theorem Disjoint.eq_of_common {k' : ℕ} (h : Disjoint m) (hk : m[k]? = some p) (hk' : m[k']? = some q)
    (hp : p.first ≤ s) (hs : s ≤ k) (hq : q.first ≤ s) (hs' : s ≤ k') : k = k' := by
  by_contra hne
  rcases Nat.lt_or_gt_of_ne hne with hlt | hlt
  · have := h.apart hk hk' hlt
    omega
  · have := h.apart hk' hk hlt
    omega

/-- Two maps that are the same around `x` have the same value there. -/
theorem Disjoint.valueAt_congr {m' : Pieces β} (h : Disjoint m) (h' : Disjoint m')
    (hm : ∀ k p, k ≥ x → p.first ≤ x → (m'[k]? = some p ↔ m[k]? = some p)) : valueAt m' x = valueAt m x := by
  refine Option.ext fun v => ?_
  rw [h.valueAt_eq_some, h'.valueAt_eq_some]
  constructor
  · rintro ⟨k, p, hk, hf, hs, hv⟩
    exact ⟨k, p, (hm k p hs hf).mp hk, hf, hs, hv⟩
  · rintro ⟨k, p, hk, hf, hs, hv⟩
    exact ⟨k, p, (hm k p hs hf).mpr hk, hf, hs, hv⟩

/-! ## An interval that is put or replaced -/

theorem disjoint_empty : Disjoint (∅ : Pieces β) := by
  constructor
  · intro k p hk
    rw [Std.ExtTreeMap.getElem?_empty] at hk
    cases hk
  · intro k k' p p' hk
    rw [Std.ExtTreeMap.getElem?_empty] at hk
    cases hk

theorem Disjoint.insert (h : Disjoint m) (hab : a ≤ b)
    (ho : ∀ k p, m[k]? = some p → k ≠ b → k < a ∨ b < p.first) : Disjoint (m.insert b ⟨a, v⟩) := by
  constructor
  · intro k p hk
    rw [getElem?_insert] at hk
    split at hk
    · cases hk
      show a ≤ k
      omega
    · exact h.nonempty hk
  · intro k k' p p' hk hk' hlt
    rw [getElem?_insert] at hk hk'
    split at hk <;> split at hk'
    · omega
    · cases hk
      have := ho k' p' hk' ‹_›
      omega
    · cases hk'
      have := ho k p hk ‹_›
      have := h.nonempty hk
      show k < a
      omega
    · exact h.apart hk hk' hlt

theorem Disjoint.valueAt_insert (h : Disjoint m) (hab : a ≤ b)
    (ho : ∀ k p, m[k]? = some p → k ≠ b → k < a ∨ b < p.first) (hb : ∀ p, m[b]? = some p → a ≤ p.first) :
    valueAt (m.insert b ⟨a, v⟩) x = if a ≤ x ∧ x ≤ b then some v else valueAt m x := by
  have h' : Disjoint (m.insert b ⟨a, v⟩) := h.insert hab ho
  split
  · rename_i hx
    refine h'.valueAt_eq_some.mpr ⟨b, ⟨a, v⟩, ?_, hx.1, hx.2, rfl⟩
    rw [getElem?_insert, if_pos rfl]
  · rename_i hx
    refine h.valueAt_congr h' fun k p hk hp => ?_
    rw [getElem?_insert]
    split
    · subst ‹k = b›
      constructor
      · rintro ⟨⟩
        exact absurd ⟨hp, hk⟩ hx
      · intro hm
        have := hb p hm
        exact absurd ⟨by omega, hk⟩ hx
    · rfl

/-! ## An interval that is cut -/

theorem Disjoint.splitAt (h : Disjoint m) (hk : m[k]? = some p) (hf : p.first ≤ s) (hs : s < k) :
    Disjoint (splitAt m k s) := by
  have hother : ∀ y q, m[y]? = some q → y ≠ k → y < p.first ∨ k < q.first := by
    intro y q hy hne
    rcases Nat.lt_or_gt_of_ne hne with hlt | hlt
    · exact .inl (h.apart hy hk hlt)
    · exact .inr (h.apart hk hy hlt)
  constructor
  · intro y q hy
    rw [getElem?_splitAt hk] at hy
    split at hy
    · cases hy
      show s + 1 ≤ y
      omega
    · split at hy
      · cases hy
        omega
      · exact h.nonempty hy
  · intro y z q r hy hz hlt
    rw [getElem?_splitAt hk] at hy hz
    split at hy
    · subst ‹y = k›
      cases hy
      split at hz
      · omega
      · split at hz
        · omega
        · exact h.apart hk hz hlt
    · split at hz
      · cases hz
        show y < s + 1
        split at hy
        · omega
        · have := hother y q hy ‹_›
          have := h.nonempty hy
          omega
      · split at hy <;> split at hz
        · omega
        · cases hy
          have := hother z r hz ‹_›
          have := h.nonempty hz
          omega
        · cases hz
          have := hother y q hy ‹_›
          have := h.nonempty hy
          omega
        · exact h.apart hy hz hlt

theorem Disjoint.valueAt_splitAt (h : Disjoint m) (hk : m[k]? = some p) (hf : p.first ≤ s) (hs : s < k) :
    valueAt (Intervals.splitAt m k s) x = valueAt m x := by
  have h' := h.splitAt hk hf hs
  refine Option.ext fun v => ?_
  rw [h.valueAt_eq_some, h'.valueAt_eq_some]
  constructor
  · rintro ⟨y, q, hy, hq, hx, rfl⟩
    rw [getElem?_splitAt hk] at hy
    split at hy
    · cases hy
      have : s + 1 ≤ x := hq
      exact ⟨k, p, hk, by omega, by omega, rfl⟩
    · split at hy
      · cases hy
        exact ⟨k, p, hk, hq, by omega, rfl⟩
      · exact ⟨y, q, hy, hq, hx, rfl⟩
  · rintro ⟨y, q, hy, hq, hx, rfl⟩
    by_cases hyk : y = k
    · subst hyk
      obtain rfl : p = q := Option.some.inj (hk.symm.trans hy)
      by_cases hxs : x ≤ s
      · refine ⟨s, p, ?_, hq, hxs, rfl⟩
        rw [getElem?_splitAt hk, if_neg (by omega), if_pos rfl]
      · refine ⟨y, { p with first := s + 1 }, ?_, ?_, hx, rfl⟩
        · rw [getElem?_splitAt hk, if_pos rfl]
        · show s + 1 ≤ x
          omega
    · refine ⟨y, q, ?_, hq, hx, rfl⟩
      rw [getElem?_splitAt hk, if_neg hyk, if_neg ?_]
      · exact hy
      · rintro rfl
        exact hyk (h.eq_of_common hy hk (h.nonempty hy) le_rfl hf hs.le)

theorem splitAt_mem (hx : x ∈ m) : x ∈ splitAt m k s := by
  unfold splitAt
  split
  · exact hx
  · rw [mem_insert, mem_insert]
    exact .inr (.inr hx)

theorem splitAt_of_lt (hk : k < x) (hs : s < x) : (splitAt m k s)[x]? = m[x]? := by
  unfold splitAt
  split
  · rfl
  · rw [getElem?_insert, if_neg hk.ne', getElem?_insert, if_neg hs.ne']

/-- What a cut of an interval does to the map: the values stay, and so do the
keys but for the new one. -/
structure Recut (m m' : Pieces β) (k : ℕ) : Prop where
  disjoint : Disjoint m'
  valueAt (x : ℕ) : valueAt m' x = Intervals.valueAt m x
  mem (x : ℕ) : x ∈ m' ↔ x = k ∨ x ∈ m

theorem recut_splitAt (h : Disjoint m) (hk : m[k]? = some p)
    (hf : p.first ≤ s) (hs : s < k) : Recut m (splitAt m k s) s := by
  refine ⟨h.splitAt hk hf hs, fun x => h.valueAt_splitAt hk hf hs, fun x => ?_⟩
  rw [mem_iff, mem_iff, getElem?_splitAt hk]
  split
  · subst ‹x = k›
    exact ⟨fun _ => .inr ⟨p, hk⟩, fun _ => ⟨_, rfl⟩⟩
  · split
    · exact ⟨fun _ => .inl ‹_›, fun _ => ⟨_, rfl⟩⟩
    · exact ⟨.inr, fun hx => hx.resolve_left ‹_›⟩

end CephMds.Intervals
