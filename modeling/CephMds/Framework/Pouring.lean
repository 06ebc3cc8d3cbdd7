import Mathlib

/-!
# Amounts that are poured into rooms

Amounts are poured into rooms, both in the order of a list, and what is at most
`ε` of an amount or of a room is given up (`fill`, `fillAll`). `Matchable` says
when a walk that goes along both lists at once, and breaks off where it comes to
an amount or a room below `ε`, leaves nothing that would fit: what lies behind
such a place (`Hidden`) must not be needed. `taken` is the other way to pour: one
amount is distributed over named rooms, each of which keeps what is left of it.
-/

namespace CephMds.Pouring

variable {α : Type*} [LinearOrder α] {ε x y : α} {xs ys : List α}

/-! ## What is hidden -/

/-- What comes before the first that is too little. -/
def front (ε : α) (xs : List α) : List α := xs.takeWhile (ε ≤ ·)

/-- Something more than `ε` comes after one that is too little. -/
def Hidden (ε : α) (xs : List α) : Prop := ∃ x ∈ xs.dropWhile (ε ≤ ·), ε < x

theorem front_of_le (h : ε ≤ x) : front ε (x :: xs) = x :: front ε xs :=
  List.takeWhile_cons_of_pos (decide_eq_true h)

theorem front_of_lt (h : x < ε) : front ε (x :: xs) = [] :=
  List.takeWhile_cons_of_neg (by simpa using h)

theorem hidden_of_le (h : ε ≤ x) : Hidden ε (x :: xs) ↔ Hidden ε xs := by
  unfold Hidden
  rw [List.dropWhile_cons, if_pos (decide_eq_true h)]

theorem hidden_of_lt (h : x < ε) : Hidden ε (x :: xs) ↔ ∃ z ∈ x :: xs, ε < z := by
  unfold Hidden
  rw [List.dropWhile_cons, if_neg (by simpa using h)]

theorem not_hidden_nil : ¬Hidden ε ([] : List α) := by
  rintro ⟨x, hx, -⟩
  cases hx

/-- More than `ε` somewhere: in front, or hidden. -/
theorem exists_lt_iff : (∃ x ∈ xs, ε < x) ↔ Hidden ε xs ∨ ∃ x ∈ front ε xs, ε < x := by
  have happ : xs = front ε xs ++ xs.dropWhile (ε ≤ ·) := List.takeWhile_append_dropWhile.symm
  constructor
  · rintro ⟨x, hx, hlt⟩
    rw [happ] at hx
    rcases List.mem_append.mp hx with hx | hx
    · exact .inr ⟨x, hx, hlt⟩
    · exact .inl ⟨x, hx, hlt⟩
  · rintro (⟨x, hx, hlt⟩ | ⟨x, hx, hlt⟩)
    · exact ⟨x, happ ▸ List.mem_append_right _ hx, hlt⟩
    · exact ⟨x, happ ▸ List.mem_append_left _ hx, hlt⟩

/-! ## Pouring along the lists -/

section Fill

variable [AddCommGroup α]

/-- The rooms that are left when `x` has been poured into them. -/
def fill (ε : α) : α → List α → List α
  | _, [] => []
  | x, y :: ys => if ε < x - y then fill ε (x - y) ys else if ε < y - x then (y - x) :: ys else ys

/-- The rooms that are left when `xs` have been poured into them, one after the other. -/
def fillAll (ε : α) (xs ys : List α) : List α := xs.foldl (fun ys x => fill ε x ys) ys

/-- The amounts use up the rooms. -/
def Covers (ε : α) (xs ys : List α) : Prop := ∀ y ∈ fillAll ε xs ys, y ≤ ε

/-- Where something is hidden on one side, the other side is used up before it is needed. -/
structure Matchable (ε : α) (xs ys : List α) : Prop where
  not_both : ¬(Hidden ε xs ∧ Hidden ε ys)
  amounts : Hidden ε xs → Covers ε (front ε xs) (front ε ys)
  rooms : Hidden ε ys → Covers ε (front ε ys) (front ε xs)

theorem fillAll_cons : fillAll ε (x :: xs) ys = fillAll ε xs (fill ε x ys) := rfl

theorem fillAll_empty : fillAll ε xs [] = [] := by
  induction xs with
  | nil => rfl
  | cons x xs ih => rw [fillAll_cons, fill, ih]

theorem covers_empty : Covers ε xs [] := by
  intro y hy
  rw [fillAll_empty] at hy
  cases hy

/-- The amount is more than the first room. -/
theorem fillAll_of_lt (h : ε < x - y) : fillAll ε (x :: xs) (y :: ys) = fillAll ε ((x - y) :: xs) ys := by
  rw [fillAll_cons, fill, if_pos h, fillAll_cons]

theorem fillAll_of_close (hx : x - y ≤ ε) (hy : y - x ≤ ε) : fillAll ε (x :: xs) (y :: ys) = fillAll ε xs ys := by
  rw [fillAll_cons, fill, if_neg (not_lt.mpr hx), if_neg (not_lt.mpr hy)]

/-- A walk along both lists comes to a place where too little is left on one side. -/
theorem matchable_of_lt (h : x < ε ∨ y < ε) :
    Matchable ε (x :: xs) (y :: ys) ↔ ¬((∃ z ∈ x :: xs, ε < z) ∧ ∃ z ∈ y :: ys, ε < z) := by
  rcases h with h | h
  · rw [show (∃ z ∈ y :: ys, ε < z) ↔ _ from exists_lt_iff, ← hidden_of_lt h]
    have hcov : Covers ε (front ε (x :: xs)) (front ε (y :: ys)) ↔ ¬∃ z ∈ front ε (y :: ys), ε < z := by
      rw [front_of_lt h]
      simp [Covers, fillAll]
    constructor
    · rintro hm ⟨hx, hy | hy⟩
      · exact hm.not_both ⟨hx, hy⟩
      · exact hcov.mp (hm.amounts hx) hy
    · intro hno
      refine ⟨fun hb => hno ⟨hb.1, .inl hb.2⟩, fun hx => hcov.mpr fun hy => hno ⟨hx, .inr hy⟩, fun _ => ?_⟩
      rw [front_of_lt h]
      exact covers_empty
  · rw [show (∃ z ∈ x :: xs, ε < z) ↔ _ from exists_lt_iff, ← hidden_of_lt h]
    have hcov : Covers ε (front ε (y :: ys)) (front ε (x :: xs)) ↔ ¬∃ z ∈ front ε (x :: xs), ε < z := by
      rw [front_of_lt h]
      simp [Covers, fillAll]
    constructor
    · rintro hm ⟨hx | hx, hy⟩
      · exact hm.not_both ⟨hx, hy⟩
      · exact hcov.mp (hm.rooms hy) hx
    · intro hno
      refine ⟨fun hb => hno ⟨.inl hb.1, hb.2⟩, fun _ => ?_, fun hy => hcov.mpr fun hx => hno ⟨.inr hx, hy⟩⟩
      rw [front_of_lt h]
      exact covers_empty

/-- What the walk gives up is not hidden. -/
theorem Matchable.congr {xs' ys' : List α} (hx : Hidden ε xs ↔ Hidden ε xs') (hy : Hidden ε ys ↔ Hidden ε ys')
    (hxy : fillAll ε (front ε xs) (front ε ys) = fillAll ε (front ε xs') (front ε ys'))
    (hyx : fillAll ε (front ε ys) (front ε xs) = fillAll ε (front ε ys') (front ε xs')) :
    Matchable ε xs ys ↔ Matchable ε xs' ys' := by
  have hc : Covers ε (front ε xs) (front ε ys) ↔ Covers ε (front ε xs') (front ε ys') := by
    unfold Covers
    rw [hxy]
  have hc' : Covers ε (front ε ys) (front ε xs) ↔ Covers ε (front ε ys') (front ε xs') := by
    unfold Covers
    rw [hyx]
  constructor
  · rintro ⟨h₀, h₁, h₂⟩
    exact ⟨by rwa [← hx, ← hy], by rwa [← hx, ← hc], by rwa [← hy, ← hc']⟩
  · rintro ⟨h₀, h₁, h₂⟩
    exact ⟨by rwa [hx, hy], by rwa [hx, hc], by rwa [hy, hc']⟩

theorem matchable_step_close (hx : ε ≤ x) (hy : ε ≤ y) (h : x - y ≤ ε) (h' : y - x ≤ ε) :
    Matchable ε (x :: xs) (y :: ys) ↔ Matchable ε xs ys := by
  refine Matchable.congr (hidden_of_le hx) (hidden_of_le hy) ?_ ?_
  · rw [front_of_le hx, front_of_le hy, fillAll_of_close h h']
  · rw [front_of_le hx, front_of_le hy, fillAll_of_close h' h]

variable [IsOrderedAddMonoid α]

/-- The amount is less than the first room. -/
theorem fillAll_of_gt (hε : 0 ≤ ε) (h : ε < y - x) :
    fillAll ε (x :: xs) (y :: ys) = fillAll ε xs ((y - x) :: ys) := by
  have hle : x - y ≤ 0 := sub_nonpos.mpr (sub_nonneg.mp (hε.trans h.le))
  rw [fillAll_cons, fill, if_neg (not_lt.mpr (hle.trans hε)), if_pos h]

theorem matchable_step_lt (hε : 0 ≤ ε) (hx : ε ≤ x) (hy : ε ≤ y) (h : ε < x - y) :
    Matchable ε (x :: xs) (y :: ys) ↔ Matchable ε ((x - y) :: xs) ys := by
  refine Matchable.congr ((hidden_of_le hx).trans (hidden_of_le h.le).symm) (hidden_of_le hy) ?_ ?_
  · rw [front_of_le hx, front_of_le hy, front_of_le h.le, fillAll_of_lt h]
  · rw [front_of_le hx, front_of_le hy, front_of_le h.le, fillAll_of_gt hε h]

theorem matchable_step_gt (hε : 0 ≤ ε) (hx : ε ≤ x) (hy : ε ≤ y) (h : ε < y - x) :
    Matchable ε (x :: xs) (y :: ys) ↔ Matchable ε xs ((y - x) :: ys) := by
  refine Matchable.congr (hidden_of_le hx) ((hidden_of_le hy).trans (hidden_of_le h.le).symm) ?_ ?_
  · rw [front_of_le hx, front_of_le hy, front_of_le h.le, fillAll_of_gt hε h]
  · rw [front_of_le hx, front_of_le hy, front_of_le h.le, fillAll_of_lt h]

end Fill

theorem matchable_nil [AddCommGroup α] (h : xs = [] ∨ ys = []) : Matchable ε xs ys := by
  rcases h with rfl | rfl
  · refine ⟨fun hb => not_hidden_nil hb.1, fun hx => absurd hx not_hidden_nil, fun _ => covers_empty⟩
  · refine ⟨fun hb => not_hidden_nil hb.2, fun _ => covers_empty, fun hy => absurd hy not_hidden_nil⟩

/-! ## Pouring into named rooms -/

section Taken

variable [AddCommGroup α] {ι : Type*} {room : ι → α} {rooms : List ι} {i j : ι}

/-- What a room counts for: one with at most `ε` left is passed over. -/
def usable (ε : α) (room : ι → α) (i : ι) : α := if ε < room i then room i else 0

theorem usable_nonneg (hε : 0 ≤ ε) (i : ι) : 0 ≤ usable ε room i := by
  unfold usable
  split
  · exact hε.trans (le_of_lt ‹_›)
  · exact le_rfl

variable [DecidableEq ι]

/-- What the rooms before `i` take. -/
def ahead (ε : α) (room : ι → α) (rooms : List ι) (i : ι) : α :=
  ∑ j ∈ (rooms.takeWhile (· ≠ i)).toFinset, usable ε room j

/-- What the room `i` takes of `x`: what is left of it behind the rooms before `i`, unless that is too little. -/
def taken (ε : α) (room : ι → α) (x : α) (rooms : List ι) (i : ι) : α :=
  if i ∈ rooms ∧ ε < room i ∧ ε < x - ahead ε room rooms i then min (x - ahead ε room rooms i) (room i) else 0

theorem taken_of_le (h : room i ≤ ε) : taken ε room x rooms i = 0 := if_neg fun hc => absurd hc.2.1 (not_lt.mpr h)

theorem taken_cons_self (h : ε < room i) (hx : ε < x) : taken ε room x (i :: rooms) i = min x (room i) := by
  have hahead : ahead ε room (i :: rooms) i = 0 := by simp [ahead]
  rw [taken, hahead, sub_zero, if_pos ⟨List.mem_cons_self, h, hx⟩]

theorem ahead_cons (h : j ≠ i) : ahead ε room (j :: rooms) i =
    usable ε room j + ∑ k ∈ (rooms.takeWhile (· ≠ i)).toFinset.erase j, usable ε room k := by
  rw [ahead, List.takeWhile_cons, if_pos (decide_eq_true h), List.toFinset_cons,
    ← Finset.add_sum_erase _ _ (Finset.mem_insert_self j _), Finset.erase_insert_eq_erase]

/-- A room with too little left is passed over. -/
theorem taken_cons_of_le (h : room j ≤ ε) : taken ε room x (j :: rooms) i = taken ε room x rooms i := by
  by_cases hji : i = j
  · rw [taken_of_le (hji ▸ h), taken_of_le (hji ▸ h)]
  · have hzero : usable ε room j = 0 := if_neg (not_lt.mpr h)
    have hahead : ahead ε room (j :: rooms) i = ahead ε room rooms i := by
      rw [ahead_cons (Ne.symm hji), hzero, zero_add, ahead]
      refine Finset.sum_subset (Finset.erase_subset _ _) fun k hk hno => ?_
      by_contra hne
      refine hno (Finset.mem_erase.mpr ⟨fun hkj => hne ?_, hk⟩)
      rw [hkj, hzero]
    simp only [taken, hahead, List.mem_cons, hji, false_or]

/-- The rooms after the first take of what is left as if the first were full. -/
theorem taken_cons_of_ne (hε : 0 ≤ ε) (h : ε < room j) (hne : i ≠ j) :
    taken ε room x (j :: rooms) i = taken ε (Function.update room j 0) (x - room j) rooms i := by
  have husable : ∀ k, k ≠ j → usable ε (Function.update room j 0) k = usable ε room k := by
    intro k hk
    rw [usable, usable, Function.update_of_ne hk]
  have hzero : usable ε (Function.update room j 0) j = 0 := by
    rw [usable, Function.update_self, if_neg (not_lt.mpr hε)]
  have hahead : ahead ε room (j :: rooms) i = room j + ahead ε (Function.update room j 0) rooms i := by
    rw [ahead_cons hne.symm, usable, if_pos h, ahead, ← Finset.sum_erase _ hzero]
    congr 1
    exact Finset.sum_congr rfl fun k hk => (husable k (Finset.ne_of_mem_erase hk)).symm
  simp only [taken, hahead, List.mem_cons, hne, false_or, Function.update_of_ne hne, sub_sub]

/-- Where the first room leaves too little, the others take nothing. -/
theorem taken_cons_of_done [IsOrderedAddMonoid α] (hε : 0 ≤ ε) (h : ε < room j) (hx : x - room j ≤ ε) (hne : i ≠ j) :
    taken ε room x (j :: rooms) i = 0 := by
  refine if_neg fun hc => absurd hc.2.2 (not_lt.mpr (le_trans ?_ hx))
  rw [ahead_cons hne.symm, usable, if_pos h]
  exact sub_le_sub_left (le_add_of_nonneg_right (Finset.sum_nonneg fun k _ => usable_nonneg hε k)) x

end Taken

end CephMds.Pouring
