import CephMds.Model.Overload

/-!
# When the epochs say how long a rank has been overloaded

`prep_rebalance` subtracts the epoch in which the rank was underloaded last from
that of the round. `steady_iff` says in which runs the rank therefore waits after
a round in which it was underloaded, and does not wait after two others: those
in which no epoch in between is missing, and rank 0 has not started again below
that epoch. In a run of consecutive epochs it is always so (`keeps_consecutive`).
-/

namespace CephMds.Rebalance

variable {g : Gate} {s s' : Rounds} {a : RoundAction} {as : List RoundAction} {loads : Loads}

/-- A round goes on only if the one before was not underloaded, and does so if the two before were overloaded as well. -/
def Steady : List Round → Prop
  | [] => True
  | r :: rs =>
    (r.goesOn = true → ∀ p ∈ rs.head?, p.under = false) ∧
    (r.under = false → ∀ p q t, rs = p :: q :: t → p.under = false → q.under = false → r.goesOn = true) ∧
    Steady rs

/-- The epoch of a round that finds the rank overloaded is the next one after a round that found it underloaded, and after
two that did not it is not one of the two epochs from the last such round on. -/
def Keeps (g : Gate) (s : Rounds) : RoundAction → Prop
  | .evaluate loads => loads.under g.minRebalance g.whoami = false →
    (∀ p ∈ s.done.head?, p.under = true → s.rank0 + 1 ≤ s.epochs.lastEpochUnder + 1) ∧
    ∀ p q t, s.done = p :: q :: t → p.under = false → q.under = false →
      s.epochs.lastEpochUnder = 0 ∨ s.epochs.lastEpochUnder + 2 ≤ s.rank0 + 1
  | .skip => True
  | .restart => True

/-- `last_epoch_under` is that of the latest round that was underloaded. -/
structure Dated (s : Rounds) : Prop where
  rank0 : 0 ≤ s.rank0
  epoch : ∀ r ∈ s.done, 1 ≤ r.epoch
  under : s.epochs.lastEpochUnder = ((s.done.find? Round.under).map Round.epoch).getD 0

theorem dated_initial : Dated .initial := ⟨le_rfl, fun _ h => absurd h List.not_mem_nil, rfl⟩

/-- What a round leaves. -/
def evaluated (under : Bool) (s : Rounds) : Rounds :=
  if under then
    ⟨s.rank0 + 1, ⟨s.rank0 + 1, s.rank0 + 1, s.epochs.lastEpochOver⟩, ⟨s.rank0 + 1, true, false⟩ :: s.done⟩
  else
    ⟨s.rank0 + 1, ⟨s.rank0 + 1, s.epochs.lastEpochUnder, s.rank0 + 1⟩,
      ⟨s.rank0 + 1, false, s.epochs.lastEpochUnder = 0 ∨ s.epochs.lastEpochUnder + 2 ≤ s.rank0 + 1⟩ :: s.done⟩

theorem step_evaluate (g : Gate) (s : Rounds) (loads : Loads) :
    Rounds.step g s (.evaluate loads) = some (evaluated (loads.under g.minRebalance g.whoami) s) := by
  cases h : loads.under g.minRebalance g.whoami with
  | true => simp only [Rounds.step, Epochs.overLongEnough, evaluated, h, if_true]
  | false =>
    have hgoes : (!(decide (s.epochs.lastEpochUnder ≠ 0) && decide (s.rank0 + 1 - s.epochs.lastEpochUnder < 2))) =
        decide (s.epochs.lastEpochUnder = 0 ∨ s.epochs.lastEpochUnder + 2 ≤ s.rank0 + 1) := by
      rw [Bool.eq_iff_iff]
      simp only [Bool.not_eq_true', Bool.and_eq_false_iff, decide_eq_false_iff_not, decide_eq_true_eq]
      omega
    simp only [Rounds.step, Epochs.overLongEnough, evaluated, h, Bool.false_eq_true, if_false, hgoes]

theorem Dated.evaluated (h : Dated s) (under : Bool) : Dated (evaluated under s) := by
  obtain ⟨h₀, hepoch, hunder⟩ := h
  cases under with
  | true =>
    refine ⟨?_, fun r hr => ?_, rfl⟩
    · show 0 ≤ s.rank0 + 1
      omega
    · rcases List.mem_cons.mp hr with rfl | hr
      · show 1 ≤ s.rank0 + 1
        omega
      · exact hepoch r hr
  | false =>
    refine ⟨?_, fun r hr => ?_, ?_⟩
    · show 0 ≤ s.rank0 + 1
      omega
    · rcases List.mem_cons.mp hr with rfl | hr
      · show 1 ≤ s.rank0 + 1
        omega
      · exact hepoch r hr
    · exact hunder

theorem dated_step (h : Dated s) (hs : Rounds.step g s a = some s') : Dated s' := by
  cases a with
  | evaluate loads =>
    rw [step_evaluate] at hs
    obtain rfl := Option.some.inj hs
    exact h.evaluated _
  | skip =>
    obtain rfl := Option.some.inj hs
    refine ⟨?_, h.epoch, h.under⟩
    have := h.rank0
    show 0 ≤ s.rank0 + 1
    omega
  | restart =>
    obtain rfl := Option.some.inj hs
    exact ⟨le_rfl, h.epoch, h.under⟩

/-- A round after which the runs are still steady. -/
theorem steady_evaluated (h : Dated s) : Steady (evaluated (loads.under g.minRebalance g.whoami) s).done ↔
    Steady s.done ∧ Keeps g s (.evaluate loads) := by
  rw [Keeps]
  cases hunder : loads.under g.minRebalance g.whoami with
  | true =>
    show (_ ∧ _ ∧ Steady s.done) ↔ _
    simp
  | false =>
    -- After an underloaded round `last_epoch_under` is its epoch, which is not 0.
    have hhead : ∀ p ∈ s.done.head?, p.under = true → s.epochs.lastEpochUnder ≠ 0 := by
      intro p hp hpu
      obtain ⟨rs, hrs⟩ := List.head?_eq_some_iff.mp hp
      have hone := h.epoch p (hrs ▸ List.mem_cons_self)
      rw [h.under, hrs, List.find?_cons_of_pos hpu]
      show p.epoch ≠ 0
      omega
    have hfirst : (decide (s.epochs.lastEpochUnder = 0 ∨ s.epochs.lastEpochUnder + 2 ≤ s.rank0 + 1) = true →
          ∀ p ∈ s.done.head?, p.under = false) ↔
        ∀ p ∈ s.done.head?, p.under = true → s.rank0 + 1 ≤ s.epochs.lastEpochUnder + 1 := by
      rw [decide_eq_true_eq]
      constructor
      · intro hall p hp hpu
        by_contra hlate
        have := hall (.inr (by omega)) p hp
        rw [hpu] at this
        cases this
      · intro hall hgoes p hp
        by_contra hpu
        have hpu' := eq_true_of_ne_false hpu
        have := hall p hp hpu'
        have := hhead p hp hpu'
        omega
    show ((decide (s.epochs.lastEpochUnder = 0 ∨ s.epochs.lastEpochUnder + 2 ≤ s.rank0 + 1) = true →
        ∀ p ∈ s.done.head?, p.under = false) ∧ (false = false → ∀ p q t, s.done = p :: q :: t → p.under = false →
          q.under = false → decide (s.epochs.lastEpochUnder = 0 ∨ s.epochs.lastEpochUnder + 2 ≤ s.rank0 + 1) = true) ∧
        Steady s.done) ↔ _
    rw [hfirst]
    simp only [decide_eq_true_eq, forall_const]
    tauto

/-- The runs in which the epochs say how long the rank has been overloaded. -/
theorem steady_run (g : Gate) (as : List RoundAction) (h : Dated s) :
    ∃ s', run (Rounds.step g) s as = some s' ∧
      (Steady s'.done ↔ Steady s.done ∧ Meets (Rounds.step g) (Keeps g) s as) := by
  induction as generalizing s with
  | nil => exact ⟨s, rfl, by simp [Meets]⟩
  | cons a as ih =>
    have hstep : ∃ t, Rounds.step g s a = some t ∧ (Steady t.done ↔ Steady s.done ∧ Keeps g s a) := by
      cases a with
      | evaluate loads => exact ⟨_, step_evaluate g s loads, steady_evaluated h⟩
      | skip => exact ⟨_, rfl, (and_iff_left trivial).symm⟩
      | restart => exact ⟨_, rfl, (and_iff_left trivial).symm⟩
    obtain ⟨t, ht, hsteady⟩ := hstep
    obtain ⟨s', hs', hrun⟩ := ih (dated_step h ht)
    refine ⟨s', run_cons.mpr ⟨t, ht, hs'⟩, ?_⟩
    rw [hrun, hsteady, meets_cons_of_some ht, and_assoc]

/-- A rank waits and goes on as it should exactly in the runs whose rounds all keep to the epochs. -/
theorem steady_iff (g : Gate) (as : List RoundAction) : ∃ s, run (Rounds.step g) .initial as = some s ∧
    (Steady s.done ↔ Meets (Rounds.step g) (Keeps g) .initial as) := by
  obtain ⟨s, hs, hsteady⟩ := steady_run g as dated_initial
  exact ⟨s, hs, hsteady.trans (and_iff_right trivial)⟩

/-! ## Consecutive epochs -/

/-- The epochs of the rounds are those of rank 0 so far. -/
def Consecutive (s : Rounds) : Prop := ∀ (i : ℕ) r, s.done[i]? = some r → r.epoch = s.rank0 - i

theorem Consecutive.keeps (h : Consecutive s) (hd : Dated s) (loads : Loads) : Keeps g s (.evaluate loads) := by
  intro _
  refine ⟨fun p hp hpu => ?_, fun p q t hpq hp hq => ?_⟩
  · obtain ⟨rs, hrs⟩ := List.head?_eq_some_iff.mp hp
    have hlast := h 0 p (by rw [hrs]; rfl)
    rw [hd.under, hrs, List.find?_cons_of_pos hpu]
    show s.rank0 + 1 ≤ p.epoch + 1
    omega
  · rw [hd.under, hpq, List.find?_cons_of_neg (by simp [hp]), List.find?_cons_of_neg (by simp [hq])]
    cases hfind : t.find? Round.under with
    | none => exact .inl rfl
    | some r =>
      -- The round is at least the third from the latest.
      obtain ⟨i, hi⟩ := List.mem_iff_getElem?.mp (List.mem_of_find?_eq_some hfind)
      have hepoch := h (i + 2) r (by rw [hpq]; exact hi)
      refine .inr ?_
      show r.epoch + 2 ≤ s.rank0 + 1
      omega

theorem Consecutive.evaluated (h : Consecutive s) (under : Bool) : Consecutive (evaluated under s) := by
  have hcons : ∀ r : Round, r.epoch = s.rank0 + 1 → ∀ (i : ℕ) r', (r :: s.done)[i]? = some r' →
      r'.epoch = s.rank0 + 1 - i := by
    intro r hr i r' hi
    cases i with
    | zero =>
      obtain rfl := Option.some.inj hi
      rw [hr]
      omega
    | succ i =>
      have := h i r' hi
      omega
  cases under with
  | true => exact hcons ⟨_, true, false⟩ rfl
  | false => exact hcons ⟨_, false, _⟩ rfl

/-- In a run without a restart and without a round that is skipped a rank waits and goes on as it should. -/
theorem keeps_consecutive (g : Gate) (rounds : List Loads) :
    Meets (Rounds.step g) (Keeps g) .initial (rounds.map .evaluate) := by
  have hmeets : ∀ s : Rounds, Consecutive s → Dated s → Meets (Rounds.step g) (Keeps g) s (rounds.map .evaluate) := by
    induction rounds with
    | nil => exact fun _ _ _ => trivial
    | cons loads rounds ih =>
      intro s hs hd
      refine (meets_cons_of_some (step_evaluate g s loads)).mpr ⟨hs.keeps hd loads, ?_⟩
      exact ih _ (hs.evaluated _) (hd.evaluated _)
  exact hmeets .initial (fun i r hr => by cases hr) dated_initial

/-! ## A restart of rank 0, and a round that is skipped -/

/-- Of two ranks, rank 1 has all of the load or none of it. -/
def whole (who : ℤ) : Loads := ⟨2, fun i => if i = who then 10 else 0⟩

/-- The rank is underloaded in epoch 5 of rank 0, which restarts: the rank is overloaded in the three rounds after that,
and does not go on in the third. When the round after an underloaded one is skipped, the next one goes on. -/
theorem not_steady :
    (run (Rounds.step ⟨1 / 10, 1⟩) .initial [.skip, .skip, .skip, .skip, .evaluate (whole 0), .restart,
      .evaluate (whole 1), .evaluate (whole 1), .evaluate (whole 1)]).map Rounds.done =
        some [⟨3, false, false⟩, ⟨2, false, false⟩, ⟨1, false, false⟩, ⟨5, true, false⟩] ∧
    (run (Rounds.step ⟨1 / 10, 1⟩) .initial [.evaluate (whole 0), .skip, .evaluate (whole 1)]).map Rounds.done =
        some [⟨3, false, true⟩, ⟨1, true, false⟩] ∧
    ¬Steady [⟨3, false, false⟩, ⟨2, false, false⟩, ⟨1, false, false⟩, ⟨5, true, false⟩] ∧
    ¬Steady [⟨3, false, true⟩, ⟨1, true, false⟩] := by
  refine ⟨by decide +kernel, by decide +kernel, fun h => ?_, fun h => ?_⟩
  · exact absurd (h.2.1 rfl _ _ _ rfl rfl rfl) Bool.false_ne_true
  · exact absurd (h.1 rfl _ rfl).symm Bool.false_ne_true

end CephMds.Rebalance
