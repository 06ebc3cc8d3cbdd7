import CephMds.Model.Beacon
import Mathlib

/-!
# The acknowledgements

The beacons that are not acknowledged are those with a number above the highest
acknowledged one (`Exact`), whatever order the acknowledgements come in. The
assertion compares the stamps of the two, and so holds where each beacon is sent
at a later reading than the one before (`Later`); otherwise there are
acknowledgements for which it fails (`not_later_fails`).
-/

namespace CephMds.Beacons

open Checked

variable {conf : Conf} {s s' : System} {b : Beacon} {a : Action × ℕ} {as : List (Action × ℕ)} {seq now : ℕ}

/-- The clock does not go back, and a beacon is sent at a later reading than the last one. -/
def Later (s : System) (a : Action × ℕ) : Prop :=
  s.clock ≤ a.2 ∧ (a.1 = .send true → s.sent s.beacon.lastSeq < a.2)

instance decidableLater (s : System) (a : Action × ℕ) : Decidable (Later s a) :=
  inferInstanceAs (Decidable (s.clock ≤ a.2 ∧ (a.1 = .send true → s.sent s.beacon.lastSeq < a.2)))

/-- The stamp of the last acknowledgement is that of the highest acknowledged
beacon, and the map has the beacons after it. -/
structure Exact (s : System) : Prop where
  acked_le : s.acked ≤ s.beacon.lastSeq
  none_acked : s.sent 0 = 0
  lastAckedStamp : s.beacon.lastAckedStamp = s.sent s.acked
  seqStamp : s.beacon.seqStamp =
    (List.range' (s.acked + 1) (s.beacon.lastSeq - s.acked)).map fun k => (k, s.sent k)

/-- And beacons are sent at later and later readings. -/
structure Inv (s : System) : Prop extends Exact s where
  sent_lt {i j : ℕ} : i < j → j ≤ s.beacon.lastSeq → s.sent i < s.sent j
  sent_le {i : ℕ} : i ≤ s.beacon.lastSeq → s.sent i ≤ s.clock

theorem inv_initial : Inv .initial where
  acked_le := le_rfl
  none_acked := rfl
  lastAckedStamp := rfl
  seqStamp := rfl
  sent_lt h h' := absurd (h.trans_le h') (Nat.not_lt_zero _)
  sent_le _ := le_rfl

/-! ## The map -/

theorem insert_last {m : List (ℕ × ℕ)} {k v : ℕ} (h : ∀ p ∈ m, p.1 < k) : insert m k v = m ++ [(k, v)] := by
  have h₁ : m.filter (fun p => p.1 < k) = m := List.filter_eq_self.mpr fun p hp => decide_eq_true (h p hp)
  have h₂ : m.filter (fun p => k < p.1) = [] :=
    List.filter_eq_nil_iff.mpr fun p hp hk => absurd (of_decide_eq_true hk) (h p hp).asymm
  rw [insert, h₁, h₂]

theorem mem_seqStamp (h : Exact s) {p : ℕ × ℕ} :
    p ∈ s.beacon.seqStamp ↔ s.acked < p.1 ∧ p.1 ≤ s.beacon.lastSeq ∧ p.2 = s.sent p.1 := by
  have hle := h.acked_le
  rw [h.seqStamp, List.mem_map]
  constructor
  · rintro ⟨k, hk, rfl⟩
    rw [List.mem_range'_1] at hk
    exact ⟨by omega, by omega, rfl⟩
  · rintro ⟨h₁, h₂, h₃⟩
    exact ⟨p.1, List.mem_range'_1.mpr ⟨by omega, by omega⟩, by rw [← h₃]⟩

theorem find_seqStamp (h : Exact s) (h₁ : s.acked < seq) (h₂ : seq ≤ s.beacon.lastSeq) :
    s.beacon.seqStamp.find? (fun p => p.1 = seq) = some (seq, s.sent seq) := by
  cases hf : s.beacon.seqStamp.find? (fun p => p.1 = seq) with
  | none =>
    have := List.find?_eq_none.mp hf (seq, s.sent seq) ((mem_seqStamp h).mpr ⟨h₁, h₂, rfl⟩)
    simp at this
  | some p =>
    have hp : p.1 = seq := by simpa using List.find?_some hf
    obtain ⟨-, -, hs⟩ := (mem_seqStamp h).mp (List.mem_of_find?_eq_some hf)
    rw [← hp, ← hs]

theorem find_seqStamp_none (h : Exact s) (hs : seq ≤ s.acked ∨ s.beacon.lastSeq < seq) :
    s.beacon.seqStamp.find? (fun p => p.1 = seq) = none := by
  rw [List.find?_eq_none]
  intro p hp
  obtain ⟨h₁, h₂, -⟩ := (mem_seqStamp h).mp hp
  simp only [decide_eq_true_eq]
  omega

/-- The loop removes what is acknowledged. -/
theorem dropWhile_seqStamp (h : Exact s) (h₁ : s.acked ≤ seq) (h₂ : seq ≤ s.beacon.lastSeq) :
    s.beacon.seqStamp.dropWhile (fun p => p.1 ≤ seq) =
      (List.range' (seq + 1) (s.beacon.lastSeq - seq)).map fun k => (k, s.sent k) := by
  have hsplit : List.range' (s.acked + 1) (s.beacon.lastSeq - s.acked) =
      List.range' (s.acked + 1) (seq - s.acked) ++ List.range' (seq + 1) (s.beacon.lastSeq - seq) := by
    have hn : s.beacon.lastSeq - s.acked = (seq - s.acked) + (s.beacon.lastSeq - seq) := by omega
    have hm : seq + 1 = s.acked + 1 + (seq - s.acked) := by omega
    rw [hn, ← List.range'_append_1, ← hm]
  rw [h.seqStamp, hsplit, List.map_append, List.dropWhile_append_of_pos]
  · rw [List.dropWhile_eq_self_iff]
    intro hne
    simp
  · intro p hp
    obtain ⟨k, hk, rfl⟩ := List.mem_map.mp hp
    rw [List.mem_range'_1] at hk
    exact decide_eq_true (by omega)

/-! ## The steps -/

/-- An acknowledgement of a beacon that is outstanding. -/
theorem ack_outstanding (conf : Conf) (now : ℕ) (h : Exact s) (h₁ : s.acked < seq) (h₂ : seq ≤ s.beacon.lastSeq)
    (hlt : s.sent s.acked < s.sent seq) : ∃ b, s.beacon.handleMdsBeacon conf seq now = .ok b ∧
    b.lastSeq = s.beacon.lastSeq ∧ b.lastAckedStamp = s.sent seq ∧
    b.seqStamp = (List.range' (seq + 1) (s.beacon.lastSeq - seq)).map fun k => (k, s.sent k) := by
  rw [Beacon.handleMdsBeacon, find_seqStamp h h₁ h₂]
  simp only [Beacon.acknowledge, h.lastAckedStamp, gt_iff_lt, hlt, decide_true, assert_true_bind]
  split
  · exact ⟨_, rfl, rfl, rfl, dropWhile_seqStamp h h₁.le h₂⟩
  · exact ⟨_, rfl, rfl, rfl, dropWhile_seqStamp h h₁.le h₂⟩

/-- Any other acknowledgement changes nothing. -/
theorem ack_other (h : Exact s) (hs : seq ≤ s.acked ∨ s.beacon.lastSeq < seq) :
    s.beacon.handleMdsBeacon conf seq now = .ok s.beacon := by
  rw [Beacon.handleMdsBeacon, find_seqStamp_none h hs]
  rfl

/-- A beacon is sent. -/
theorem Exact.send (h : Exact s) (now : ℕ) :
    Exact { s with
      beacon := s.beacon.send true now
      clock := now
      sent := Function.update s.sent (s.beacon.lastSeq + 1) now } := by
  have hle := h.acked_le
  have hold : ∀ {k}, k ≤ s.beacon.lastSeq → Function.update s.sent (s.beacon.lastSeq + 1) now k = s.sent k :=
    fun hk => Function.update_of_ne (by omega) ..
  have hmem : ∀ p ∈ s.beacon.seqStamp, p.1 < s.beacon.lastSeq + 1 := fun p hp =>
    Nat.lt_succ_of_le ((mem_seqStamp h).mp hp).2.1
  refine ⟨hle.trans (Nat.le_succ _), (hold (Nat.zero_le _)).trans h.none_acked,
    h.lastAckedStamp.trans (hold hle).symm, ?_⟩
  change insert s.beacon.seqStamp (s.beacon.lastSeq + 1) now = _
  have hn : s.beacon.lastSeq + 1 - s.acked = s.beacon.lastSeq - s.acked + 1 := by omega
  have hk : s.acked + 1 + (s.beacon.lastSeq - s.acked) = s.beacon.lastSeq + 1 := by omega
  change _ = (List.range' (s.acked + 1) (s.beacon.lastSeq + 1 - s.acked)).map fun k =>
    (k, Function.update s.sent (s.beacon.lastSeq + 1) now k)
  rw [insert_last hmem, h.seqStamp, hn, List.range'_1_concat, hk, List.map_append, List.map_singleton,
    Function.update_self]
  refine congrArg (· ++ _) (List.map_congr_left fun k hkm => ?_)
  rw [List.mem_range'_1] at hkm
  rw [hold (by omega)]

theorem Inv.send (h : Inv s) (hc : s.clock ≤ now) (hlt : s.sent s.beacon.lastSeq < now) :
    Inv { s with
      beacon := s.beacon.send true now
      clock := now
      sent := Function.update s.sent (s.beacon.lastSeq + 1) now } := by
  have hold : ∀ {k}, k ≤ s.beacon.lastSeq → Function.update s.sent (s.beacon.lastSeq + 1) now k = s.sent k :=
    fun hk => Function.update_of_ne (by omega) ..
  refine ⟨h.toExact.send now, fun {i j} hij hj => ?_, fun {i} hi => ?_⟩
  · change j ≤ s.beacon.lastSeq + 1 at hj
    change Function.update s.sent (s.beacon.lastSeq + 1) now i < Function.update s.sent (s.beacon.lastSeq + 1) now j
    rw [hold (by omega)]
    rcases Nat.lt_or_eq_of_le hj with hj | rfl
    · rw [hold (Nat.le_of_lt_succ hj)]
      exact h.sent_lt hij (Nat.le_of_lt_succ hj)
    · rw [Function.update_self]
      rcases Nat.lt_or_eq_of_le (Nat.le_of_lt_succ hij) with hi | rfl
      · exact (h.sent_lt hi le_rfl).trans hlt
      · exact hlt
  · change i ≤ s.beacon.lastSeq + 1 at hi
    change Function.update s.sent (s.beacon.lastSeq + 1) now i ≤ now
    rcases Nat.lt_or_eq_of_le hi with hi | rfl
    · rw [hold (Nat.le_of_lt_succ hi)]
      exact (h.sent_le (Nat.le_of_lt_succ hi)).trans hc
    · rw [Function.update_self]

/-- A step that keeps the bookkeeping, apart from the clock. -/
theorem Inv.same (h : Inv s) (hc : s.clock ≤ now) (h₁ : b.lastSeq = s.beacon.lastSeq)
    (h₂ : b.lastAckedStamp = s.beacon.lastAckedStamp) (h₃ : b.seqStamp = s.beacon.seqStamp) :
    Inv { s with beacon := b, clock := now } where
  acked_le := h₁ ▸ h.acked_le
  none_acked := h.none_acked
  lastAckedStamp := h₂.trans h.lastAckedStamp
  seqStamp := by
    change b.seqStamp = (List.range' (s.acked + 1) (b.lastSeq - s.acked)).map _
    rw [h₁, h₃, h.seqStamp]
  sent_lt hij hj := h.sent_lt hij (h₁ ▸ hj)
  sent_le hi := (h.sent_le (h₁ ▸ hi)).trans hc

theorem isLaggy_same (conf : Conf) (b : Beacon) (now : ℕ) : (b.isLaggy conf now).2.lastSeq = b.lastSeq ∧
    (b.isLaggy conf now).2.lastAckedStamp = b.lastAckedStamp ∧ (b.isLaggy conf now).2.seqStamp = b.seqStamp := by
  rw [Beacon.isLaggy]
  split
  · exact ⟨rfl, rfl, rfl⟩
  · simp only
    split
    · split <;> exact ⟨rfl, rfl, rfl⟩
    · exact ⟨rfl, rfl, rfl⟩

/-- The step of an acknowledgement that is not refused. -/
theorem Exact.ack (h : Exact s) (conf : Conf) (now : ℕ) (h₁ : s.acked < seq) (h₂ : seq ≤ s.beacon.lastSeq)
    (hlt : s.sent s.acked < s.sent seq) :
    ∃ b, step conf s (.ack seq, now) = some { s with beacon := b, clock := now, acked := seq } ∧
    b.lastSeq = s.beacon.lastSeq ∧ b.lastAckedStamp = s.sent seq ∧
    Exact { s with beacon := b, clock := now, acked := seq } := by
  obtain ⟨b, hb, hl, ha, hm⟩ := ack_outstanding conf now h h₁ h₂ hlt
  refine ⟨b, ?_, hl, ha, hl ▸ h₂, h.none_acked, ha, ?_⟩
  · rw [step, hb]
    simp only [Except.toOption, Option.map_some, if_pos h₂, max_eq_right h₁.le]
  · change b.seqStamp = (List.range' (seq + 1) (b.lastSeq - seq)).map _
    rw [hl, hm]

/-- The step of one that changes nothing. -/
theorem Exact.ack_other (h : Exact s) (hs : seq ≤ s.acked ∨ s.beacon.lastSeq < seq) :
    step conf s (.ack seq, now) = some { s with clock := now } := by
  have hacked : (if seq ≤ s.beacon.lastSeq then max s.acked seq else s.acked) = s.acked := by
    split
    · omega
    · rfl
  rw [step, Beacons.ack_other h hs]
  simp only [Except.toOption, Option.map_some, hacked]

/-- The step of one whose beacon was sent no later than the last that is acknowledged. -/
theorem Exact.ack_fails (h : Exact s) (h₁ : s.acked < seq) (h₂ : seq ≤ s.beacon.lastSeq)
    (hle : s.sent seq ≤ s.sent s.acked) : step conf s (.ack seq, now) = none := by
  rw [step, Beacon.handleMdsBeacon, find_seqStamp h h₁ h₂]
  simp only [Beacon.acknowledge, h.lastAckedStamp, gt_iff_lt, Nat.not_lt.mpr hle, decide_false]
  rfl

/-- An acknowledgement returns, and only raises the stamp. -/
theorem Inv.ack (h : Inv s) (hc : s.clock ≤ now) : ∃ s', step conf s (.ack seq, now) = some s' ∧ Inv s' ∧
    s.beacon.lastAckedStamp ≤ s'.beacon.lastAckedStamp := by
  by_cases hs : s.acked < seq ∧ seq ≤ s.beacon.lastSeq
  · have hlt := h.sent_lt hs.1 hs.2
    obtain ⟨b, hb, hl, ha, he⟩ := h.toExact.ack conf now hs.1 hs.2 hlt
    refine ⟨_, hb, ⟨he, fun hij hj => h.sent_lt hij (hl ▸ hj), fun hi => (h.sent_le (hl ▸ hi)).trans hc⟩, ?_⟩
    change s.beacon.lastAckedStamp ≤ b.lastAckedStamp
    rw [ha, h.lastAckedStamp]
    exact hlt.le
  · exact ⟨_, h.toExact.ack_other (by omega), h.same hc rfl rfl rfl, le_rfl⟩

/-- A step with `Later` returns, keeps the bookkeeping, and does not lower the stamp. -/
theorem inv_step (conf : Conf) (h : Inv s) (ha : Later s a) : ∃ s', step conf s a = some s' ∧ Inv s' ∧
    s.beacon.lastAckedStamp ≤ s'.beacon.lastAckedStamp := by
  obtain ⟨a, now⟩ := a
  obtain ⟨hc, hlt⟩ := ha
  cases a with
  | send isHealthy =>
    cases isHealthy with
    | false => exact ⟨_, rfl, h.same hc rfl rfl rfl, le_rfl⟩
    | true => exact ⟨_, rfl, h.send hc (hlt rfl), le_rfl⟩
  | ack seq => exact h.ack hc
  | isLaggy =>
    obtain ⟨h₁, h₂, h₃⟩ := isLaggy_same conf s.beacon now
    exact ⟨_, rfl, h.same hc h₁ h₂ h₃, h₂.ge⟩

/-! ## The runs -/

theorem inv_run (conf : Conf) (h : Inv s) (hok : Meets (step conf) Later s as) : ∃ s', run (step conf) s as = some s' ∧ Inv s' ∧
    s.beacon.lastAckedStamp ≤ s'.beacon.lastAckedStamp := by
  induction as generalizing s with
  | nil => exact ⟨s, rfl, h, le_rfl⟩
  | cons a as ih =>
    obtain ⟨t, ht, hI, hle⟩ := inv_step conf h hok.1
    obtain ⟨s', hs', hI', hle'⟩ := ih hI (hok.2 t ht)
    exact ⟨s', run_cons.mpr ⟨t, ht, hs'⟩, hI', hle.trans hle'⟩

/-- A beacon that is sent at the reading of the last one, or before it: the
assertion fails when first the last one is acknowledged, and then it. -/
theorem not_later_fails (h : Inv s) (hn : now ≤ s.sent s.beacon.lastSeq) : run (step conf) s
    [(.send true, now), (.ack s.beacon.lastSeq, now), (.ack (s.beacon.lastSeq + 1), now)] = none := by
  have he := h.toExact.send now
  have hle := h.acked_le
  set s₁ : System := { s with
    beacon := s.beacon.send true now
    clock := now
    sent := Function.update s.sent (s.beacon.lastSeq + 1) now } with hs₁
  have hnew : s₁.sent (s.beacon.lastSeq + 1) = now := Function.update_self ..
  have hold : ∀ {k}, k ≤ s.beacon.lastSeq → s₁.sent k = s.sent k := fun hk => Function.update_of_ne (by omega) ..
  change ((step conf s₁ (.ack s.beacon.lastSeq, now)).bind fun t =>
    (step conf t (.ack (s.beacon.lastSeq + 1), now)).bind some) = none
  rcases Nat.lt_or_eq_of_le hle with hlt | heq
  · obtain ⟨b, hb, hl, -, he₂⟩ := he.ack conf now hlt (Nat.le_succ _) (by
      rw [hold le_rfl, show s₁.acked = s.acked from rfl, hold hle]
      exact h.sent_lt hlt le_rfl)
    rw [hb, Option.bind_some, he₂.ack_fails (Nat.lt_succ_self _) (le_of_eq hl.symm), Option.bind_none]
    change s₁.sent (s.beacon.lastSeq + 1) ≤ s₁.sent s.beacon.lastSeq
    rw [hnew, hold le_rfl]
    exact hn
  · rw [he.ack_other (.inl heq.ge), Option.bind_some]
    have he₂ : Exact { s₁ with clock := now } := ⟨he.acked_le, he.none_acked, he.lastAckedStamp, he.seqStamp⟩
    rw [he₂.ack_fails (Nat.lt_succ_of_le hle) le_rfl, Option.bind_none]
    change s₁.sent (s.beacon.lastSeq + 1) ≤ s₁.sent s.acked
    rw [hnew, hold hle, heq]
    exact hn

/-- In a run in which every beacon is sent at a later reading than the one
before, whatever is acknowledged when, no assertion fails; the stamp of the
last acknowledgement is that of the highest acknowledged beacon and does not
decrease, the map has the beacons after it, and other acknowledgements change
nothing. Where a beacon is sent no later, acknowledgements can make the
assertion fail. -/
theorem acks_keep_order (conf : Conf) {as : List (Action × ℕ)} (hok : Meets (step conf) Later .initial as) : ∃ s,
    run (step conf) .initial as = some s ∧ Exact s ∧
    (∀ bs cs t, as = bs ++ cs → run (step conf) .initial bs = some t →
      t.beacon.lastAckedStamp ≤ s.beacon.lastAckedStamp) ∧
    (∀ seq now, seq ≤ s.acked ∨ s.beacon.lastSeq < seq → s.beacon.handleMdsBeacon conf seq now = .ok s.beacon) ∧
    ∀ now, now ≤ s.sent s.beacon.lastSeq → run (step conf) s
      [(.send true, now), (.ack s.beacon.lastSeq, now), (.ack (s.beacon.lastSeq + 1), now)] = none := by
  obtain ⟨s, hs, hI, -⟩ := inv_run conf inv_initial hok
  refine ⟨s, hs, hI.toExact, ?_, fun seq now h => ack_other hI.toExact h, fun now hn => not_later_fails hI hn⟩
  rintro bs cs t rfl ht
  obtain ⟨t', ht', hI', -⟩ := inv_run conf inv_initial hok.left
  cases ht.symm.trans ht'
  obtain ⟨s', hs', -, hle⟩ := inv_run conf hI' (hok.right ht)
  cases (run_append.mpr ⟨t, ht, hs'⟩).symm.trans hs
  exact hle

/-! ## Two beacons -/

/-- The acknowledgements of two beacons come in the other order, and one twice. -/
theorem acks_keep_order_two : ∃ s, run (step ⟨15, 4⟩) .initial
      [(.send true, 1), (.send true, 2), (.ack 2, 3), (.ack 1, 4), (.ack 2, 5)] = some s ∧ Exact s := by
  have hok : Meets (step ⟨15, 4⟩) Later .initial
      [(.send true, 1), (.send true, 2), (.ack 2, 3), (.ack 1, 4), (.ack 2, 5)] := by decide
  obtain ⟨s, hs, he, -⟩ := acks_keep_order ⟨15, 4⟩ hok
  exact ⟨s, hs, he⟩

/-- Two beacons are sent at one reading of the clock, and are acknowledged in order. -/
theorem not_acks_keep_order : ∃ s, run (step ⟨15, 4⟩) .initial [(.send true, 1), (.send true, 1), (.ack 1, 2)] = some s ∧
    s.beacon.handleMdsBeacon ⟨15, 4⟩ 2 2 = .error .assert :=
  ⟨_, rfl, rfl⟩

end CephMds.Beacons
