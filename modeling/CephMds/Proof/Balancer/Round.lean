import CephMds.Proof.Balancer.Epoch

/-!
# One balancing round

A rank other than 0 that handles the heartbeats of one epoch, one of every
other rank, in some order (`decisions`). The heartbeat of rank 0 clears what
came before it, so the rank decides once and on all loads if and only if that
heartbeat comes first (`decisions_eq_iff`).
-/

namespace CephMds.Balancer

variable {n : ℕ} [NeZero n] {Λ M : Type}

/-- The decisions that `whoami` takes while it handles the heartbeats `m` of
the ranks in `order`. -/
def decisions (whoami : Fin n) (now : Measured Λ M) (m : Fin n → MHeartbeat Λ M) :
    Balancer n Λ M → List (Fin n) → List (Decision n Λ)
  | _, [] => []
  | b, who :: order =>
    let b := (b.handleHeartbeat whoami now who (m who)).1
    if b.balances then ⟨whoami, b.beatEpoch, b.mdsLoad⟩ :: decisions whoami now m b order
    else decisions whoami now m b order

/-- The decision of epoch `e` on the own load and the loads of all others. -/
def complete (whoami : Fin n) (e : ℕ) (now : Measured Λ M) (m : Fin n → MHeartbeat Λ M) : Decision n Λ :=
  ⟨whoami, e, fun w => some (if w = whoami then now.load else (m w).load)⟩

variable {whoami w : Fin n} {now : Measured Λ M} {m : Fin n → MHeartbeat Λ M} {b : Balancer n Λ M}
  {order : List (Fin n)}

omit [NeZero n] in
theorem balances_of_none (h : b.mdsLoad w = none) : ¬ b.balances = true := by
  rw [balances_iff]
  intro hall
  have := hall w
  rw [h] at this
  cases this

/-- A heartbeat that only adds a load. -/
theorem decisions_cons (h : w ≠ 0) : decisions whoami now m b (w :: order) =
    if (b.insertLoad w (m w)).balances then
      ⟨whoami, b.beatEpoch, (b.insertLoad w (m w)).mdsLoad⟩ ::
        decisions whoami now m (b.insertLoad w (m w)) order
    else decisions whoami now m (b.insertLoad w (m w)) order := by
  rw [decisions, handleHeartbeat_of_ne h]
  rfl

/-- Without a load of `w` there is no decision. -/
theorem decisions_of_missing (h : 0 ∉ order) (hw : w ∉ order) (hb : b.mdsLoad w = none) :
    decisions whoami now m b order = [] := by
  induction order generalizing b with
  | nil => rfl
  | cons who order ih =>
    rw [List.mem_cons, not_or] at h hw
    have hb' : (b.insertLoad who (m who)).mdsLoad w = none := by
      rw [insertLoad_mdsLoad, Function.update_of_ne hw.1, hb]
    rw [decisions_cons (Ne.symm h.1), if_neg (balances_of_none hb'), ih h.2 hw.2 hb']

/-- What is missing arrives: one decision, on the loads there are and those
that arrive. -/
theorem decisions_of_rest (h : 0 ∉ order) (hne : order ≠ []) (hnd : order.Nodup)
    (hb : ∀ w, b.mdsLoad w = none ↔ w ∈ order) :
    decisions whoami now m b order =
      [⟨whoami, b.beatEpoch, fun w => if w ∈ order then some (m w).load else b.mdsLoad w⟩] := by
  induction order generalizing b with
  | nil => exact absurd rfl hne
  | cons who order ih =>
    rw [List.mem_cons, not_or] at h
    obtain ⟨hwho, hnd⟩ := List.nodup_cons.mp hnd
    have hb' : ∀ w, (b.insertLoad who (m who)).mdsLoad w = none ↔ w ∈ order := by
      intro w
      rw [insertLoad_mdsLoad]
      by_cases hw : w = who
      · simp [hw, hwho]
      · rw [Function.update_of_ne hw, hb, List.mem_cons, or_iff_right hw]
    rw [decisions_cons (Ne.symm h.1)]
    cases order with
    | nil =>
      rw [if_pos]
      · simp only [decisions, insertLoad_mdsLoad, List.mem_singleton]
        congr 2
        funext w
        by_cases hw : w = who <;> simp [hw]
      · rw [balances_iff]
        intro w
        rw [← Option.ne_none_iff_isSome, ne_eq, hb']
        exact List.not_mem_nil
    | cons w' order =>
      rw [if_neg (balances_of_none ((hb' w').mpr List.mem_cons_self)),
        ih h.2 (List.cons_ne_nil _ _) hnd hb']
      simp only [insertLoad_beatEpoch, insertLoad_mdsLoad]
      congr 2
      funext w
      by_cases hw : w = who <;> simp [hw, hwho]

/-- The state after the heartbeat of rank 0. -/
theorem handleHeartbeat_zero_mdsLoad (now : Measured Λ M) (hr : whoami ≠ 0) :
    (b.handleHeartbeat whoami now 0 (m 0)).1.mdsLoad w =
      if w = 0 then some (m 0).load else if w = whoami then some now.load else none := by
  rw [handleHeartbeat_zero, insertLoad_mdsLoad, sendHeartbeat_mdsLoad]
  by_cases h0 : w = 0
  · simp [h0]
  · by_cases hw : w = whoami <;> simp [hw, h0, hr]

theorem handleHeartbeat_zero_beatEpoch (hr : whoami ≠ 0) :
    (b.handleHeartbeat whoami now 0 (m 0)).1.beatEpoch = (m 0).beat := by
  rw [handleHeartbeat_zero, insertLoad_beatEpoch, sendHeartbeat_beatEpoch hr]

/-- If rank 0 comes first, there is one decision, on all loads. -/
theorem decisions_of_head (hr : whoami ≠ 0) (hnd : (0 :: order).Nodup)
    (hall : ∀ w, w ∈ (0 :: order) ↔ w ≠ whoami) :
    decisions whoami now m b (0 :: order) = [complete whoami (m 0).beat now m] := by
  obtain ⟨h0, hnd⟩ := List.nodup_cons.mp hnd
  have hload := fun w => handleHeartbeat_zero_mdsLoad (b := b) (w := w) (m := m) now hr
  have hmiss : ∀ w, (b.handleHeartbeat whoami now 0 (m 0)).1.mdsLoad w = none ↔ w ∈ order := by
    intro w
    have hw := hall w
    rw [List.mem_cons] at hw
    rw [hload]
    by_cases h : w = 0
    · simp [h, h0]
    · rw [or_iff_right h] at hw
      rw [if_neg h, hw]
      by_cases h' : w = whoami <;> simp [h']
  have hcomplete : ∀ w, (if w ∈ order then some (m w).load else
      (b.handleHeartbeat whoami now 0 (m 0)).1.mdsLoad w) =
      some (if w = whoami then now.load else (m w).load) := by
    intro w
    by_cases hw : w ∈ order
    · rw [if_pos hw, if_neg ((hall w).mp (List.mem_cons_of_mem _ hw))]
    · rw [if_neg hw, hload]
      by_cases h : w = 0
      · simp [h, Ne.symm hr]
      · have h' : w = whoami := by
          by_contra h'
          have := (hall w).mpr h'
          rw [List.mem_cons, or_iff_right h] at this
          exact hw this
        rw [if_neg h, if_pos h', if_pos h']
  rw [decisions]
  cases order with
  | nil =>
    rw [if_pos]
    · rw [complete, decisions, handleHeartbeat_zero_beatEpoch hr]
      congr 2
      funext w
      rw [← hcomplete w, if_neg List.not_mem_nil]
    · rw [balances_iff]
      intro w
      rw [← Option.ne_none_iff_isSome, ne_eq, hmiss]
      exact List.not_mem_nil
  | cons w' order =>
    rw [if_neg (balances_of_none ((hmiss w').mpr List.mem_cons_self)),
      decisions_of_rest h0 (List.cons_ne_nil _ _) hnd hmiss, complete, handleHeartbeat_zero_beatEpoch hr]
    congr 2
    funext w
    exact hcomplete w

/-- If the heartbeat of `w` has come already, it is lost with that of rank 0:
no decision is taken in the new epoch. -/
theorem beatEpoch_of_late (hr : whoami ≠ 0) (hnd : order.Nodup) (hw : w ≠ 0) (hwr : w ≠ whoami)
    (hwo : w ∉ order) {d : Decision n Λ} (hd : d ∈ decisions whoami now m b order) :
    d.beatEpoch = b.beatEpoch := by
  induction order generalizing b with
  | nil => cases hd
  | cons who order ih =>
    obtain ⟨hwho, hnd⟩ := List.nodup_cons.mp hnd
    rw [List.mem_cons, not_or] at hwo
    by_cases h0 : who = 0
    · subst h0
      have hnone : (b.handleHeartbeat whoami now 0 (m 0)).1.mdsLoad w = none := by
        rw [handleHeartbeat_zero_mdsLoad now hr, if_neg hw, if_neg hwr]
      rw [decisions, if_neg (balances_of_none hnone), decisions_of_missing hwho hwo.2 hnone] at hd
      cases hd
    · rw [decisions_cons h0] at hd
      split at hd
      · rcases List.mem_cons.mp hd with rfl | hd
        · rfl
        · exact ih (b := b.insertLoad who (m who)) hnd hwo.2 hd
      · exact ih (b := b.insertLoad who (m who)) hnd hwo.2 hd

/-- A rank that is in another epoch gets the heartbeats of all other ranks for
epoch `e`. It decides exactly once, in that epoch and on all its loads, if and
only if the heartbeat of rank 0 comes first. -/
theorem decisions_eq_iff {e : ℕ} (hr : whoami ≠ 0) (hm : ∀ w, (m w).beat = e) (hb : b.beatEpoch ≠ e)
    (hnd : order.Nodup) (hall : ∀ w, w ∈ order ↔ w ≠ whoami) :
    decisions whoami now m b order = [complete whoami e now m] ↔ order.head? = some 0 := by
  constructor
  · intro h
    have he : complete whoami e now m ∈ decisions whoami now m b order := by
      rw [h]
      exact List.mem_cons_self
    cases order with
    | nil => cases he
    | cons w order =>
      obtain ⟨hwo, hnd⟩ := List.nodup_cons.mp hnd
      by_contra hw
      have hw : w ≠ 0 := fun e => hw (by rw [e]; rfl)
      have hwr := (hall w).mp List.mem_cons_self
      rw [decisions_cons hw] at he
      split at he
      · rcases List.mem_cons.mp he with he | he
        · exact hb (congrArg Decision.beatEpoch he).symm
        · exact hb (beatEpoch_of_late hr hnd hw hwr hwo he).symm
      · exact hb (beatEpoch_of_late hr hnd hw hwr hwo he).symm
  · intro h
    cases order with
    | nil => cases h
    | cons w order =>
      obtain rfl := Option.some.inj h
      rw [decisions_of_head hr hnd hall, hm]

/-- The heartbeats of epoch 1 at three ranks. -/
def beats (w : Fin 3) : MHeartbeat ℕ ℕ := ⟨w, 1, 0⟩

/-- A rank that has seen no epoch. -/
def fresh : Balancer 3 ℕ ℕ := ⟨0, fun _ => none, fun _ => none⟩

theorem decisions_eq_iff_fresh : decisions 1 ⟨7, 0⟩ beats fresh [0, 2] = [complete 1 1 ⟨7, 0⟩ beats] ∧
    decisions 1 ⟨7, 0⟩ beats fresh [2, 0] ≠ [complete 1 1 ⟨7, 0⟩ beats] := by
  have hb : ∀ w, (beats w).beat = 1 := fun _ => rfl
  have hr : (1 : Fin 3) ≠ 0 := by decide
  have he : fresh.beatEpoch ≠ 1 := by decide
  have h₀ : [(0 : Fin 3), 2].Nodup ∧ ∀ w, w ∈ [(0 : Fin 3), 2] ↔ w ≠ 1 := by decide
  have h₂ : [(2 : Fin 3), 0].Nodup ∧ ∀ w, w ∈ [(2 : Fin 3), 0] ↔ w ≠ 1 := by decide
  refine ⟨(decisions_eq_iff hr hb he h₀.1 h₀.2).mpr rfl, ?_⟩
  rw [ne_eq, decisions_eq_iff hr hb he h₂.1 h₂.2]
  decide

theorem decisions_ne_complete : ¬ ∀ (n : ℕ) (_ : NeZero n) (whoami : Fin n) (now : Measured ℕ ℕ)
    (m : Fin n → MHeartbeat ℕ ℕ) (b : Balancer n ℕ ℕ) (e : ℕ) (order : List (Fin n)), whoami ≠ 0 →
    (∀ w, (m w).beat = e) → b.beatEpoch ≠ e → order.Nodup → (∀ w, w ∈ order ↔ w ≠ whoami) →
    decisions whoami now m b order = [complete whoami e now m] := by
  intro h
  have := h 3 inferInstance 1 ⟨7, 0⟩ beats fresh 1 [2, 0] (by decide) (fun _ => rfl) (by decide)
    (by decide) (by decide)
  cases this

end CephMds.Balancer
