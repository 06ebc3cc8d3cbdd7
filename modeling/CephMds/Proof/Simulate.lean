import CephMds.Model.Simulate

/-!
# The policy is conflict free

The search for a target is the first hit in the circular order of the ranks
(`seek_eq`), so it ends. `Planned k` says of the map that the first `k` ranks
have chosen, without conflicts; each rank keeps it (`Planned.assign`). A transfer
keeps the total; as a rank sends at most half of its load, no load becomes
negative, in any number of iterations. Each of them moves half of the load of a
rank with a target to it (`iteration_spec`).
-/

namespace CephMds.Simulate

open Checked

variable {n i k t fuel : ℕ} {mdss : Loads} {myMap : MyMap}

/-! ## The search -/

/-- The ranks after `t`, around, up to `i`. -/
def after (n i t : ℕ) : List ℕ :=
  if t < i then List.range' (t + 1) (i - 1 - t) else List.range' (t + 1) (n - t) ++ List.range' 1 (i - 1)

theorem after_of_next_eq (ht : t ≤ n) (hin : i ≤ n) (h : next n t = i) : after n i t = [] := by
  rw [next] at h
  rw [after]
  split at h
  · have h0 : i - 1 = 0 := by omega
    have hn : n - t = 0 := by omega
    rw [if_neg (by omega), h0, hn]
    rfl
  · have h0 : i - 1 - t = 0 := by omega
    rw [if_pos (by omega), h0]
    rfl

theorem after_of_next_ne (hi : 1 ≤ i) (hin : i ≤ n) (ht : t ≤ n) (h : next n t ≠ i) :
    after n i t = next n t :: after n i (next n t) := by
  rw [next] at h
  rw [after, after, next]
  split at h
  · -- From `n` to 1.
    rename_i hlast
    have hn : n - t = 0 := by omega
    rw [if_pos hlast, if_neg (by omega), if_pos (by omega), hn]
    show List.range' 1 (i - 1) = 1 :: List.range' 2 (i - 1 - 1)
    obtain ⟨j, hj⟩ : ∃ j, i - 1 = j + 1 := ⟨i - 2, by omega⟩
    rw [hj]
    rfl
  · rename_i hlast
    rw [if_neg hlast]
    by_cases hlow : t < i
    · obtain ⟨j, hj⟩ : ∃ j, i - 1 - t = j + 1 := ⟨i - 2 - t, by omega⟩
      have hj' : i - 1 - (t + 1) = j := by omega
      rw [if_pos hlow, if_pos (by omega), hj, hj']
      rfl
    · obtain ⟨j, hj⟩ : ∃ j, n - t = j + 1 := ⟨n - t - 1, by omega⟩
      have hj' : n - (t + 1) = j := by omega
      rw [if_neg hlow, if_neg (by omega), hj, hj']
      rfl

theorem next_le (hn : 1 ≤ n) : next n t ≤ n := by
  rw [next]
  split <;> omega

/-- The search ends with the first rank that is idle and free. -/
theorem seek_eq (hi : 1 ≤ i) (hin : i ≤ n) (ht : t ≤ n) (hfuel : (after n i t).length < fuel) :
    seek n mdss myMap i fuel t = .ok ((after n i t).find? fun t => mdss t < 1 ∧ go n myMap i t) := by
  induction fuel generalizing t with
  | zero => omega
  | succ fuel ih =>
    rw [seek]
    by_cases hend : next n t = i
    · rw [if_pos hend, after_of_next_eq ht hin hend]
      rfl
    · rw [if_neg hend]
      rw [after_of_next_ne hi hin ht hend] at hfuel ⊢
      by_cases hhit : mdss (next n t) < 1 ∧ go n myMap i (next n t)
      · rw [if_pos hhit, List.find?_cons_of_pos (by simpa using hhit)]
        rfl
      · rw [if_neg hhit, List.find?_cons_of_neg (by simpa using hhit)]
        exact ih (next_le (by omega)) (by simpa using hfuel)

theorem length_after (hi : 1 ≤ i) (hin : i ≤ n) : (after n i i).length = n - 1 := by
  rw [after, if_neg (by omega), List.length_append, List.length_range', List.length_range']
  omega

/-- All other ranks are looked at. -/
theorem mem_after (hi : 1 ≤ i) (hin : i ≤ n) : t ∈ after n i i ↔ 1 ≤ t ∧ t ≤ n ∧ t ≠ i := by
  rw [after, if_neg (by omega), List.mem_append, List.mem_range'_1, List.mem_range'_1]
  omega

theorem plan_eq (hi : 1 ≤ i) (hin : i ≤ n) (hfuel : n ≤ fuel) : plan fuel n mdss myMap i =
    .ok (assign mdss myMap i ((after n i i).find? fun t => mdss t < 1 ∧ go n myMap i t)) := by
  rw [plan, seek_eq hi hin hin (by rw [length_after hi hin]; omega)]
  rfl

/-! ## The plan -/

/-- The first `k` ranks have chosen. -/
structure Planned (n : ℕ) (mdss : Loads) (k : ℕ) (myMap : MyMap) : Prop where
  /-- At most one target. -/
  single (i : ℕ) : myMap i = [] ∨ ∃ t, myMap i = [(t, mdss i / 2)]
  rank {i : ℕ} : myMap i ≠ [] → 1 ≤ i ∧ i ≤ k
  target {i : ℕ} {p : ℕ × ℚ} : p ∈ myMap i → 1 ≤ p.1 ∧ p.1 ≤ n ∧ p.1 ≠ i ∧ mdss p.1 < 1 ∧ p.2 = mdss i / 2
  distinct {i j : ℕ} {p q : ℕ × ℚ} : p ∈ myMap i → q ∈ myMap j → p.1 = q.1 → i = j
  /-- Without a target, all others that are idle have been taken. -/
  taken {i t : ℕ} : 1 ≤ i → i ≤ k → myMap i = [] → 1 ≤ t → t ≤ n → t ≠ i → mdss t < 1 →
    ∃ j < i, ∃ p ∈ myMap j, p.1 = t

theorem planned_empty (n : ℕ) (mdss : Loads) : Planned n mdss 0 fun _ => [] where
  single _ := .inl rfl
  rank h := absurd rfl h
  target h := absurd h List.not_mem_nil
  distinct h := absurd h List.not_mem_nil
  taken h h' := by omega

theorem go_iff (h : Planned n mdss k myMap) (hkn : k < n) :
    go n myMap (k + 1) t = true ↔ ∀ j, ∀ p ∈ myMap j, p.1 ≠ t := by
  rw [go, Bool.not_eq_true', Bool.eq_false_iff]
  simp only [ne_eq, List.any_eq_true, Bool.and_eq_true, beq_iff_eq, decide_eq_true_eq]
  constructor
  · rintro hno j p hp rfl
    obtain ⟨h1, hk⟩ := h.rank (List.ne_nil_of_mem hp)
    exact hno ⟨j, List.mem_range'_1.mpr (by omega), p, hp, rfl, by omega⟩
  · rintro hno ⟨j, -, p, hp, ht, -⟩
    exact hno j p hp ht

theorem Planned.nil (h : Planned n mdss k myMap) : myMap (k + 1) = [] := by
  by_contra hne
  have := h.rank hne
  omega

/-- The next rank chooses. -/
theorem Planned.assign (h : Planned n mdss k myMap) (hkn : k < n) : Planned n mdss (k + 1)
    (assign mdss myMap (k + 1) ((after n (k + 1) (k + 1)).find? fun t => mdss t < 1 ∧ go n myMap (k + 1) t)) := by
  have hlow : 1 ≤ k + 1 := by omega
  cases hfind : (after n (k + 1) (k + 1)).find? fun t => mdss t < 1 ∧ go n myMap (k + 1) t with
  | none =>
    refine ⟨h.single, fun hne => ?_, h.target, h.distinct, fun {i t} hi hk hnil h1 hn hne hidle => ?_⟩
    · have := h.rank hne
      omega
    · rcases Nat.lt_or_ge i (k + 1) with hlt | hge
      · exact h.taken hi (by omega) hnil h1 hn hne hidle
      · -- The rank that has just looked in vain.
        have hik : i = k + 1 := by omega
        subst hik
        have hno := List.find?_eq_none.mp hfind t ((mem_after hlow hkn).mpr ⟨h1, hn, hne⟩)
        rw [decide_eq_true_eq, go_iff h hkn] at hno
        simp only [hidle, true_and, not_forall, ne_eq, not_not] at hno
        obtain ⟨j, p, hp, ht⟩ := hno
        have := h.rank (List.ne_nil_of_mem hp)
        exact ⟨j, by omega, p, hp, ht⟩
  | some t =>
    have hmem := (mem_after hlow hkn).mp (List.mem_of_find?_eq_some hfind)
    have hhit := List.find?_some hfind
    rw [decide_eq_true_eq, go_iff h hkn] at hhit
    have hself : Simulate.assign mdss myMap (k + 1) (some t) (k + 1) = [(t, mdss (k + 1) / 2)] := by
      rw [Simulate.assign, Function.update_self, h.nil]
    have hother : ∀ {j}, j ≠ k + 1 → Simulate.assign mdss myMap (k + 1) (some t) j = myMap j :=
      fun hj => Function.update_of_ne hj _ _
    refine ⟨fun i => ?_, fun {i} hne => ?_, fun {i p} hp => ?_, fun {i j p q} hp hq hpq => ?_,
      fun {i t'} hi hk hnil h1 hn hne hidle => ?_⟩
    · by_cases hi : i = k + 1
      · exact .inr ⟨t, hi ▸ hself⟩
      · rw [hother hi]
        exact h.single i
    · by_cases hi : i = k + 1
      · omega
      · rw [hother hi] at hne
        have := h.rank hne
        omega
    · by_cases hi : i = k + 1
      · rw [hi, hself, List.mem_singleton] at hp
        rw [hp, hi]
        exact ⟨hmem.1, hmem.2.1, hmem.2.2, hhit.1, rfl⟩
      · rw [hother hi] at hp
        exact h.target hp
    · by_cases hi : i = k + 1 <;> by_cases hj : j = k + 1
      · rw [hi, hj]
      · rw [hi, hself, List.mem_singleton] at hp
        rw [hother hj] at hq
        rw [hp] at hpq
        exact absurd hpq.symm (hhit.2 j q hq)
      · rw [hj, hself, List.mem_singleton] at hq
        rw [hother hi] at hp
        rw [hq] at hpq
        exact absurd hpq (hhit.2 i p hp)
      · rw [hother hi] at hp
        rw [hother hj] at hq
        exact h.distinct hp hq hpq
    · have hik : i ≠ k + 1 := by
        rintro rfl
        rw [hself] at hnil
        exact List.cons_ne_nil _ _ hnil
      rw [hother hik] at hnil
      obtain ⟨j, hj, p, hp, ht⟩ := h.taken hi (by omega) hnil h1 hn hne hidle
      refine ⟨j, hj, p, ?_, ht⟩
      rw [hother (by omega)]
      exact hp

theorem foldlM_plan (hk : k ≤ n) :
    ∃ myMap, (∀ fuel, n ≤ fuel → (List.range' 1 k).foldlM (plan fuel n mdss) (fun _ => []) = .ok myMap) ∧
      Planned n mdss k myMap := by
  induction k with
  | zero => exact ⟨_, fun _ _ => rfl, planned_empty n mdss⟩
  | succ k ih =>
    obtain ⟨myMap, hrun, hplan⟩ := ih (by omega)
    refine ⟨_, fun fuel hfuel => ?_, hplan.assign hk⟩
    rw [List.range'_concat, List.foldlM_append, hrun fuel hfuel]
    show [1 + 1 * k].foldlM (plan fuel n mdss) myMap = _
    rw [Nat.one_mul, Nat.add_comm 1 k, List.foldlM_cons, plan_eq (by omega) hk hfuel]
    rfl

theorem planAll_spec (n : ℕ) (mdss : Loads) :
    ∃ myMap, (∀ fuel, n ≤ fuel → planAll fuel n mdss = .ok myMap) ∧ Planned n mdss n myMap :=
  foldlM_plan le_rfl

/-! ## The targets of a rank -/

/-- `targets`, from the entry of a rank. -/
def targetsOf (myMap : MyMap) (l : ℕ) : ℕ → ℚ :=
  (myMap l).foldl (fun targets p => Function.update targets p.1 p.2) fun _ => 0

/-- A loop that does something for one element only. -/
theorem foldl_only {α β : Type*} [DecidableEq α] {f : β → α → β} {l : List α} {a : α} (hl : l.Nodup) (ha : a ∈ l)
    (b : β) :
    l.foldl (fun b j => if j = a then f b j else b) b = f b a := by
  have hskip : ∀ (l : List α) (b : β), a ∉ l → l.foldl (fun b j => if j = a then f b j else b) b = b := by
    intro l
    induction l with
    | nil => exact fun _ _ => rfl
    | cons j l ih =>
      intro b hnot
      rw [List.mem_cons, not_or] at hnot
      rw [List.foldl_cons, if_neg (Ne.symm hnot.1)]
      exact ih b hnot.2
  obtain ⟨l₁, l₂, rfl⟩ := List.append_of_mem ha
  have hnot := List.nodup_middle.mp hl
  rw [List.nodup_cons, List.mem_append, not_or] at hnot
  rw [List.foldl_append, hskip l₁ b hnot.1.1, List.foldl_cons, if_pos rfl, hskip l₂ _ hnot.1.2]

theorem where'_eq (hmap : planAll fuel n mdss = .ok myMap) (hi : 1 ≤ i) (hin : i ≤ n) :
    where' fuel n mdss i = .ok (targetsOf myMap i) := by
  have honly := foldl_only (f := fun (targets : ℕ → ℚ) j =>
      (myMap j).foldl (fun targets p => Function.update targets p.1 p.2) targets) (l := List.range' 1 n) (a := i)
    List.nodup_range' (List.mem_range'_1.mpr (by omega)) fun _ => 0
  rw [where', hmap]
  exact congrArg Except.ok honly

/-- What is sent: half of the load, to the target. -/
theorem Planned.targetsOf_pos (h : Planned n mdss k myMap) (hpos : 0 < targetsOf myMap i t) :
    ∃ p ∈ myMap i, p.1 = t ∧ targetsOf myMap i t = mdss i / 2 := by
  rcases h.single i with hnil | ⟨t', hone⟩
  · rw [targetsOf, hnil] at hpos
    exact absurd hpos (lt_irrefl _)
  · rw [targetsOf, hone] at hpos ⊢
    by_cases ht : t = t'
    · subst ht
      refine ⟨_, List.mem_singleton_self _, rfl, ?_⟩
      rw [List.foldl_cons, List.foldl_nil, Function.update_self]
    · rw [List.foldl_cons, List.foldl_nil, Function.update_of_ne ht] at hpos
      exact absurd hpos (lt_irrefl _)

theorem Planned.targetsOf_target (h : Planned n mdss k myMap) {p : ℕ × ℚ} (hp : p ∈ myMap i) :
    targetsOf myMap i p.1 = mdss i / 2 := by
  rcases h.single i with hnil | ⟨t', hone⟩
  · rw [hnil] at hp
    exact absurd hp List.not_mem_nil
  · rw [hone, List.mem_singleton] at hp
    rw [targetsOf, hone, hp, List.foldl_cons, List.foldl_nil, Function.update_self]

/-! ## Transfers -/

theorem nodup_pairs (n : ℕ) : (pairs n).Nodup := (List.nodup_range' (s := 1) (n := n)).product List.nodup_range'

theorem mem_pairs {l : ℕ} : (l, t) ∈ pairs n ↔ 1 ≤ l ∧ l ≤ n ∧ 1 ≤ t ∧ t ≤ n := by
  rw [pairs, List.mem_product, List.mem_range'_1, List.mem_range'_1]
  omega

/-- What is sent from one rank to another. -/
def sent (m : ℕ → ℕ → ℚ) (p : ℕ × ℕ) : ℚ := max 0 (m p.1 p.2)

theorem transfer_apply {m : ℕ → ℕ → ℚ} {p : ℕ × ℕ} (h : 0 < m p.1 p.2 → p.1 ≠ p.2) (mdss : Loads) (k : ℕ) :
    transfer m mdss p k = mdss k + (if p.2 = k then sent m p else 0) - (if p.1 = k then sent m p else 0) := by
  rw [transfer, sent]
  by_cases hpos : 0 < m p.1 p.2
  · have hne := h hpos
    rw [if_pos hpos, max_eq_right hpos.le]
    by_cases h1 : p.1 = k
    · subst h1
      rw [Function.update_self, Function.update_of_ne hne, if_pos rfl, if_neg (Ne.symm hne), add_zero]
    · rw [Function.update_of_ne (Ne.symm h1), if_neg h1, sub_zero]
      by_cases h2 : p.2 = k
      · subst h2
        rw [Function.update_self, if_pos rfl]
      · rw [Function.update_of_ne (Ne.symm h2), if_neg h2, add_zero]
  · rw [if_neg hpos, max_eq_left (not_lt.mp hpos)]
    simp

/-- All transfers, in any order. -/
theorem foldl_transfer_apply {m : ℕ → ℕ → ℚ} {order : List (ℕ × ℕ)} (h : ∀ p ∈ order, 0 < m p.1 p.2 → p.1 ≠ p.2)
    (mdss : Loads) (k : ℕ) : order.foldl (transfer m) mdss k =
      mdss k + (order.map fun p => if p.2 = k then sent m p else 0).sum -
        (order.map fun p => if p.1 = k then sent m p else 0).sum := by
  induction order generalizing mdss with
  | nil => simp
  | cons p order ih =>
    rw [List.foldl_cons, ih fun q hq => h q (List.mem_cons_of_mem p hq), transfer_apply (h p List.mem_cons_self)]
    simp only [List.map_cons, List.sum_cons]
    ring

theorem sent_nonneg (m : ℕ → ℕ → ℚ) (p : ℕ × ℕ) : 0 ≤ sent m p := le_max_left _ _

/-- The transfers that a state stands for: from ranks to others, of half a load, one from each rank. -/
structure Fair (n : ℕ) (s : State) : Prop where
  rank {l t : ℕ} : 0 < s.loadTransferMap l t → 1 ≤ l ∧ l ≤ n ∧ 1 ≤ t ∧ t ≤ n ∧ t ≠ l
  half {l t : ℕ} : 0 < s.loadTransferMap l t → s.loadTransferMap l t = s.mdss l / 2
  single {l t t' : ℕ} : 0 < s.loadTransferMap l t → 0 < s.loadTransferMap l t' → t = t'

section Fair

variable {s s' : State} {order : List (ℕ × ℕ)}

/-- A rank sends at most half of its load. -/
theorem Fair.sum_sent_le (h : Fair n s) (ho : order.Nodup) (hk : 0 ≤ s.mdss k) :
    (order.map fun p => if p.1 = k then sent s.loadTransferMap p else 0).sum ≤ s.mdss k / 2 := by
  rw [← List.sum_toFinset _ ho]
  by_cases hex : ∃ t, 0 < s.loadTransferMap k t
  · obtain ⟨t, ht⟩ := hex
    have hzero : ∀ p : ℕ × ℕ, p ≠ (k, t) → (if p.1 = k then sent s.loadTransferMap p else 0) = 0 := by
      rintro ⟨l, t'⟩ hne
      split
      · rename_i hl
        obtain rfl : l = k := hl
        apply max_eq_left
        by_contra hlt
        rw [h.single ht (not_le.mp hlt)] at hne
        exact hne rfl
      · rfl
    by_cases hmem : (k, t) ∈ order.toFinset
    · rw [Finset.sum_eq_single_of_mem (k, t) hmem fun p _ => hzero p, if_pos rfl, sent, max_eq_right ht.le, h.half ht]
    · have hnone : ∀ p ∈ order.toFinset, (if p.1 = k then sent s.loadTransferMap p else 0) = 0 :=
        fun p hp => hzero p fun heq => hmem (heq ▸ hp)
      rw [Finset.sum_eq_zero hnone]
      linarith
  · have hzero : ∀ p ∈ order.toFinset, (if p.1 = k then sent s.loadTransferMap p else 0) = 0 := by
      rintro ⟨l, t⟩ -
      split
      · rename_i hl
        obtain rfl : l = k := hl
        exact max_eq_left (not_lt.mp fun hlt => hex ⟨t, hlt⟩)
      · rfl
    rw [Finset.sum_eq_zero hzero]
    linarith

theorem Fair.half_le (h : Fair n s) (ho : order.Nodup) (hk : 0 ≤ s.mdss k) :
    s.mdss k / 2 ≤ order.foldl (transfer s.loadTransferMap) s.mdss k := by
  rw [foldl_transfer_apply fun p _ hp => Ne.symm (h.rank hp).2.2.2.2]
  have hout := h.sum_sent_le ho hk
  have hin : 0 ≤ (order.map fun p => if p.2 = k then sent s.loadTransferMap p else 0).sum := by
    apply List.sum_nonneg
    intro x hx
    obtain ⟨p, -, rfl⟩ := List.mem_map.mp hx
    split
    · exact sent_nonneg _ p
    · exact le_rfl
  linarith

/-- The transfers keep the total. -/
theorem Fair.sum_transfer (h : Fair n s) (order : List (ℕ × ℕ)) (mdss : Loads) :
    ∑ k ∈ Finset.Icc 1 n, order.foldl (transfer s.loadTransferMap) mdss k = ∑ k ∈ Finset.Icc 1 n, mdss k := by
  induction order generalizing mdss with
  | nil => rfl
  | cons p order ih =>
    rw [List.foldl_cons, ih]
    have happly := transfer_apply (p := p) (fun hp => Ne.symm (h.rank hp).2.2.2.2) mdss
    simp only [happly, Finset.sum_sub_distrib, Finset.sum_add_distrib, Finset.sum_ite_eq, Finset.mem_Icc]
    by_cases hpos : 0 < s.loadTransferMap p.1 p.2
    · obtain ⟨h1, h2, h3, h4, -⟩ := h.rank hpos
      rw [if_pos ⟨h3, h4⟩, if_pos ⟨h1, h2⟩]
      ring
    · rw [sent, max_eq_left (not_lt.mp hpos)]
      simp

/-! ## The loop -/

/-- A rank that has anything to send has a load, and so decides anew. -/
structure Live (n : ℕ) (s : State) : Prop where
  nonneg {k : ℕ} : 1 ≤ k → k ≤ n → 0 ≤ s.mdss k
  sender {l t : ℕ} : 0 < s.loadTransferMap l t → 1 ≤ l ∧ l ≤ n ∧ 0 < s.mdss l

/-- What the first `k` ranks have decided. -/
def decided (k : ℕ) (s : State) (myMap : MyMap) (l : ℕ) : ℕ → ℚ :=
  if 1 ≤ l ∧ l ≤ k ∧ 0 < s.mdss l then targetsOf myMap l else s.loadTransferMap l

theorem foldlM_decideRank (hmap : planAll fuel n s.mdss = .ok myMap) (hk : k ≤ n) :
    (List.range' 1 k).foldlM (decideRank fuel n) s = .ok { s with loadTransferMap := decided k s myMap } := by
  induction k with
  | zero =>
    have hnone : ∀ l, ¬(1 ≤ l ∧ l ≤ 0 ∧ 0 < s.mdss l) := fun l => by omega
    have hsame : decided 0 s myMap = s.loadTransferMap := funext fun l => if_neg (hnone l)
    rw [hsame]
    rfl
  | succ k ih =>
    rw [List.range'_concat, List.foldlM_append, ih (by omega)]
    show [1 + 1 * k].foldlM (decideRank fuel n) _ = _
    rw [Nat.one_mul, Nat.add_comm 1 k, List.foldlM_cons, decideRank]
    by_cases hwhen : when s.mdss (k + 1) = true
    · have hpos : 0 < s.mdss (k + 1) := of_decide_eq_true hwhen
      rw [if_pos hwhen, where'_eq hmap (by omega) hk]
      refine congrArg Except.ok (congrArg (State.mk s.mdss) (funext fun l => ?_))
      by_cases hl : l = k + 1
      · rw [hl, Function.update_self, decided, if_pos ⟨by omega, le_rfl, hpos⟩]
      · rw [Function.update_of_ne hl]
        refine if_congr ?_ rfl rfl
        constructor
        · rintro ⟨h1, h2, h3⟩
          exact ⟨h1, by omega, h3⟩
        · rintro ⟨h1, h2, h3⟩
          exact ⟨h1, by omega, h3⟩
    · have hpos : ¬0 < s.mdss (k + 1) := fun h => hwhen (decide_eq_true h)
      rw [if_neg hwhen]
      refine congrArg Except.ok (congrArg (State.mk s.mdss) (funext fun l => if_congr ?_ rfl rfl))
      constructor
      · rintro ⟨h1, h2, h3⟩
        exact ⟨h1, by omega, h3⟩
      · rintro ⟨h1, h2, h3⟩
        have : l ≠ k + 1 := fun hl => hpos (hl ▸ h3)
        exact ⟨h1, by omega, h3⟩

/-- Only a rank with a load has anything to send. -/
theorem Live.decided_pos (h : Live n s) {l : ℕ} (hpos : 0 < decided n s myMap l t) :
    (1 ≤ l ∧ l ≤ n ∧ 0 < s.mdss l) ∧ decided n s myMap l t = targetsOf myMap l t := by
  rw [decided] at hpos ⊢
  split at hpos
  · rename_i hl
    exact ⟨hl, by rw [if_pos hl]⟩
  · rename_i hl
    exact absurd (h.sender hpos) hl

/-- What all ranks decide is fair. -/
theorem Live.fair (h : Live n s) (hplan : Planned n s.mdss n myMap) :
    Fair n { s with loadTransferMap := decided n s myMap } := by
  have hfresh : ∀ {l t}, 0 < decided n s myMap l t → 0 < targetsOf myMap l t := by
    intro l t hpos
    rw [← (h.decided_pos hpos).2]
    exact hpos
  refine ⟨fun {l t} hpos => ?_, fun {l t} hpos => ?_, fun {l t t'} hpos hpos' => ?_⟩
  · obtain ⟨⟨h1, h2, -⟩, -⟩ := h.decided_pos hpos
    obtain ⟨p, hp, rfl, -⟩ := hplan.targetsOf_pos (hfresh hpos)
    have := hplan.target hp
    exact ⟨h1, h2, this.1, this.2.1, this.2.2.1⟩
  · obtain ⟨p, hp, -, hhalf⟩ := hplan.targetsOf_pos (hfresh hpos)
    exact (h.decided_pos hpos).2.trans hhalf
  · obtain ⟨p, hp, rfl, -⟩ := hplan.targetsOf_pos (hfresh hpos)
    obtain ⟨q, hq, rfl, -⟩ := hplan.targetsOf_pos (hfresh hpos')
    rcases hplan.single l with hnil | ⟨t, hone⟩
    · rw [hnil] at hp
      exact absurd hp List.not_mem_nil
    · rw [hone, List.mem_singleton] at hp hq
      rw [hp, hq]

/-- A rank sends half of its load to its target, and nothing to the others. -/
theorem Live.sent_eq (h : Live n s) (hplan : Planned n s.mdss n myMap) {l : ℕ} (h1 : 1 ≤ l) (hn : l ≤ n) :
    sent (decided n s myMap) (l, t) = if ∃ p ∈ myMap l, p.1 = t then s.mdss l / 2 else 0 := by
  have hload := h.nonneg h1 hn
  by_cases hpos : 0 < decided n s myMap l t
  · have heq := (h.decided_pos hpos).2
    have hpos' := hpos
    rw [heq] at hpos'
    obtain ⟨p, hp, hpt, hhalf⟩ := hplan.targetsOf_pos hpos'
    rw [if_pos ⟨p, hp, hpt⟩, sent, max_eq_right hpos.le, heq, hhalf]
  · rw [sent, max_eq_left (not_lt.mp hpos)]
    split
    · rename_i hex
      obtain ⟨p, hp, rfl⟩ := hex
      -- half of a load that is sent is not positive, so there is none
      rcases hload.lt_or_eq with hl | hl
      · rw [decided, if_pos ⟨h1, hn, hl⟩, hplan.targetsOf_target hp] at hpos
        linarith
      · rw [← hl, zero_div]
    · rfl

/-- The loads after the transfers of a plan: a rank with a target gives away half of its load, and the target has it. -/
structure Moved (n : ℕ) (myMap : MyMap) (mdss mdss' : Loads) : Prop where
  target {l : ℕ} {p : ℕ × ℚ} : p ∈ myMap l →
    mdss' p.1 = mdss p.1 + mdss l / 2 - if myMap p.1 = [] then 0 else mdss p.1 / 2
  other {k : ℕ} : 1 ≤ k → k ≤ n → (∀ l, ∀ p ∈ myMap l, p.1 ≠ k) →
    mdss' k = mdss k - if myMap k = [] then 0 else mdss k / 2

section Moved

variable (h : Live n s) (hplan : Planned n s.mdss n myMap) (ho : order.Perm (pairs n))
include h hplan ho

theorem Live.sum_out (h1 : 1 ≤ k) (hn : k ≤ n) :
    (order.map fun p => if p.1 = k then sent (decided n s myMap) p else 0).sum =
      if myMap k = [] then 0 else s.mdss k / 2 := by
  rw [← List.sum_toFinset _ (ho.nodup_iff.mpr (nodup_pairs n))]
  rcases hplan.single k with hnil | ⟨t, hone⟩
  · rw [if_pos hnil]
    apply Finset.sum_eq_zero
    rintro ⟨l, t⟩ -
    split
    · rename_i hl
      obtain rfl : l = k := hl
      rw [h.sent_eq hplan h1 hn, if_neg (by simp [hnil])]
    · rfl
  · have htarget := hplan.target (by rw [hone]; exact List.mem_singleton_self _)
    rw [if_neg (by simp [hone]), Finset.sum_eq_single_of_mem (k, t), if_pos rfl, h.sent_eq hplan h1 hn,
      if_pos ⟨_, by rw [hone]; exact List.mem_singleton_self _, rfl⟩]
    · rw [List.mem_toFinset, ho.mem_iff]
      exact mem_pairs.mpr ⟨h1, hn, htarget.1, htarget.2.1⟩
    · rintro ⟨l, t'⟩ - hne
      split
      · rename_i hl
        obtain rfl : l = k := hl
        rw [h.sent_eq hplan h1 hn, if_neg]
        rintro ⟨p, hp, rfl⟩
        rw [hone, List.mem_singleton] at hp
        exact hne (by rw [hp])
      · rfl

theorem Live.sum_in {l : ℕ} {p : ℕ × ℚ} (hp : p ∈ myMap l) :
    (order.map fun q => if q.2 = p.1 then sent (decided n s myMap) q else 0).sum = s.mdss l / 2 := by
  have hl := hplan.rank (List.ne_nil_of_mem hp)
  have htarget := hplan.target hp
  rw [← List.sum_toFinset _ (ho.nodup_iff.mpr (nodup_pairs n)), Finset.sum_eq_single_of_mem (l, p.1), if_pos rfl,
    h.sent_eq hplan hl.1 hl.2, if_pos ⟨p, hp, rfl⟩]
  · rw [List.mem_toFinset, ho.mem_iff]
    exact mem_pairs.mpr ⟨hl.1, hl.2, htarget.1, htarget.2.1⟩
  · rintro ⟨l', t⟩ hmem hne
    rw [List.mem_toFinset, ho.mem_iff] at hmem
    split
    · rename_i ht
      obtain rfl : t = p.1 := ht
      rw [h.sent_eq hplan (mem_pairs.mp hmem).1 (mem_pairs.mp hmem).2.1, if_neg]
      rintro ⟨q, hq, heq⟩
      exact hne (by rw [hplan.distinct hq hp heq])
    · rfl

theorem Live.sum_in_none (hnone : ∀ l, ∀ p ∈ myMap l, p.1 ≠ k) :
    (order.map fun q => if q.2 = k then sent (decided n s myMap) q else 0).sum = 0 := by
  apply List.sum_eq_zero
  intro x hx
  obtain ⟨⟨l, t⟩, hmem, rfl⟩ := List.mem_map.mp hx
  rw [ho.mem_iff] at hmem
  dsimp only
  split
  · rename_i ht
    obtain rfl : t = k := ht
    rw [h.sent_eq hplan (mem_pairs.mp hmem).1 (mem_pairs.mp hmem).2.1, if_neg]
    rintro ⟨p, hp, heq⟩
    exact hnone l p hp heq
  · rfl

theorem Live.moved : Moved n myMap s.mdss (order.foldl (transfer (decided n s myMap)) s.mdss) := by
  have hne : ∀ p ∈ order, 0 < decided n s myMap p.1 p.2 → p.1 ≠ p.2 :=
    fun p _ hpos => Ne.symm ((h.fair hplan).rank hpos).2.2.2.2
  refine ⟨fun {l p} hp => ?_, fun {k} h1 hn hnone => ?_⟩
  · have htarget := hplan.target hp
    rw [foldl_transfer_apply hne, h.sum_in hplan ho hp, h.sum_out hplan ho htarget.1 htarget.2.1]
  · rw [foldl_transfer_apply hne, h.sum_in_none hplan ho hnone, h.sum_out hplan ho h1 hn, add_zero]

end Moved

/-- One iteration ends, moves what is planned, keeps the total, and leaves no load negative. -/
theorem iteration_spec (hfuel : n ≤ fuel) (h : Live n s) (ho : order.Perm (pairs n)) :
    ∃ s' myMap, iteration fuel n s order = .ok s' ∧ Live n s' ∧
      Planned n s.mdss n myMap ∧ Moved n myMap s.mdss s'.mdss ∧
      ∑ k ∈ Finset.Icc 1 n, s'.mdss k = ∑ k ∈ Finset.Icc 1 n, s.mdss k := by
  obtain ⟨myMap, hmap, hplan⟩ := planAll_spec n s.mdss
  have hfair := h.fair hplan
  have hnodup := ho.nodup_iff.mpr (nodup_pairs n)
  refine ⟨⟨order.foldl (transfer (decided n s myMap)) s.mdss, decided n s myMap⟩, myMap, ?_,
    ⟨fun {k} h1 hn => ?_, fun {l t} hpos => ?_⟩, hplan, h.moved hplan ho, hfair.sum_transfer order s.mdss⟩
  · rw [iteration, foldlM_decideRank (hmap fuel hfuel) le_rfl]
    rfl
  · have hk := h.nonneg h1 hn
    have := hfair.half_le hnodup hk
    dsimp only at this ⊢
    linarith
  · obtain ⟨h1, h2, -⟩ := hfair.rank hpos
    have hhalf := hfair.half hpos
    have hle := hfair.half_le hnodup (h.nonneg h1 h2)
    dsimp only at hpos hhalf hle ⊢
    refine ⟨h1, h2, ?_⟩
    rw [hhalf] at hpos
    exact lt_of_lt_of_le hpos hle

theorem foldlM_iteration (hfuel : n ≤ fuel) (h : Live n s) {orders : List (List (ℕ × ℕ))}
    (ho : ∀ order ∈ orders, order.Perm (pairs n)) : ∃ s', orders.foldlM (iteration fuel n) s = .ok s' ∧ Live n s' ∧
      ∑ k ∈ Finset.Icc 1 n, s'.mdss k = ∑ k ∈ Finset.Icc 1 n, s.mdss k := by
  induction orders generalizing s with
  | nil => exact ⟨s, rfl, h, rfl⟩
  | cons order orders ih =>
    obtain ⟨s₁, -, h₁, hlive, -, -, hsum⟩ := iteration_spec hfuel h (ho order List.mem_cons_self)
    obtain ⟨s', h', hlive', hsum'⟩ := ih hlive fun o h => ho o (List.mem_cons_of_mem _ h)
    refine ⟨s', ?_, hlive', hsum'.trans hsum⟩
    rw [List.foldlM_cons, h₁]
    exact h'

end Fair

/-- With enough iterations every rank finds the same plan, which has no conflict, and takes its own
part of it; any number of iterations of the loop keeps the total and leaves no load negative. -/
theorem where_conflict_free (n : ℕ) (mdss : Loads) (hpos : ∀ k, 1 ≤ k → k ≤ n → 0 ≤ mdss k) :
    (∃ myMap, (∀ fuel, n ≤ fuel → planAll fuel n mdss = .ok myMap) ∧ Planned n mdss n myMap ∧
      ∀ fuel whoami, n ≤ fuel → 1 ≤ whoami → whoami ≤ n → ∃ targets, where' fuel n mdss whoami = .ok targets ∧
        (∀ p ∈ myMap whoami, targets p.1 = mdss whoami / 2) ∧
          ∀ t, (∀ p ∈ myMap whoami, p.1 ≠ t) → ¬0 < targets t) ∧
    ∀ fuel orders, n ≤ fuel → (∀ order ∈ orders, order.Perm (pairs n)) →
      ∃ s, simulate fuel n mdss orders = .ok s ∧ (∀ k, 1 ≤ k → k ≤ n → 0 ≤ s.mdss k) ∧
        ∑ k ∈ Finset.Icc 1 n, s.mdss k = ∑ k ∈ Finset.Icc 1 n, mdss k := by
  constructor
  · obtain ⟨myMap, hmap, hplan⟩ := planAll_spec n mdss
    refine ⟨myMap, hmap, hplan, fun fuel whoami hfuel h1 hn => ⟨_, where'_eq (hmap fuel hfuel) h1 hn, ?_, ?_⟩⟩
    · exact fun p hp => hplan.targetsOf_target hp
    · intro t hno ht
      obtain ⟨p, hp, he, -⟩ := hplan.targetsOf_pos ht
      exact hno p hp he
  · intro fuel orders hfuel ho
    have hlive : Live n ⟨mdss, fun _ _ => 0⟩ := ⟨fun {k} => hpos k, fun h => absurd h (lt_irrefl _)⟩
    obtain ⟨s, hs, hlive', hsum⟩ := foldlM_iteration hfuel hlive ho
    exact ⟨s, hs, fun k => hlive'.nonneg, hsum⟩

/-- As the simulator starts, with all the load on the first rank. -/
theorem where_conflict_free_three : ∃ s, simulate 3 3 (fun k => if k = 1 then 100 else 0) [pairs 3, pairs 3] = .ok s ∧
    (∀ k, 1 ≤ k → k ≤ 3 → 0 ≤ s.mdss k) ∧ ∑ k ∈ Finset.Icc 1 3, s.mdss k = 100 := by
  obtain ⟨s, hs, hpos, hsum⟩ := (where_conflict_free 3 (fun k => if k = 1 then 100 else 0) fun k _ _ => by
    split <;> norm_num).2 3 [pairs 3, pairs 3] le_rfl (by simp)
  exact ⟨s, hs, hpos, hsum.trans (by decide +kernel)⟩

end CephMds.Simulate
