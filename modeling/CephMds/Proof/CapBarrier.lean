import CephMds.Model.CapBarrier
import Mathlib

/-!
# The epoch barrier of cap messages

The barrier is at least every demand that the client has seen, as long as no
cancellation sets it to a lower epoch (`step_honours`). What is sent then
honours the demands, but for releases that wait for `flush_cap_releases` with
the barrier of an earlier time.
-/

namespace CephMds.CapBarrier

open CapBarrier.Client

variable {enqueue : Enqueue} {c c' : Client} {a : Action} {as : List Action}

/-- What an event asks of the barriers sent later. -/
def Event.demand : Event → ℕ
  | .received b => b
  | .cancelled e => e
  | .sent _ => 0

/-- A message has at least what an earlier event asks for. -/
def Honours (later earlier : Event) : Prop :=
  ∀ b, later = .sent b → earlier.demand ≤ b

/-- A release joins the others without losing its barrier. -/
def Keeps (enqueue : Enqueue) : Prop :=
  ∀ release barrier, barrier ≤ enqueue release barrier

/-- Every release that is sent, but that of `mds`, has at least this barrier. -/
def Fresh (c : Client) (env : Env) (barrier : ℕ) (mds : Option ℤ) : Prop :=
  env.injectReleaseFailure = false → ∀ p ∈ c.mdsSessions, env.isClientreplayOrActiveOrStopping p.1 →
    some p.1 ≠ mds → ∀ b ∈ p.2, barrier ≤ b

/-- A cancellation is in an epoch not below the barrier, and a release is not sent after the barrier rose. -/
def Safe (c : Client) : Action → Prop
  | .handleOsdMap => c.osdmapFull = true → c.capEpochBarrier ≤ c.osdEpoch
  | .handleCaps m known env => known = false → (c.mdsSessions.lookup m.source).isSome →
    Fresh c env (max c.capEpochBarrier m.osdEpochBarrier) (if m.isImport then some m.source else none)
  | .flushCapReleases env => Fresh c env c.capEpochBarrier none
  | _ => True

instance decidableFresh (c : Client) (env : Env) (barrier : ℕ) (mds : Option ℤ) : Decidable (Fresh c env barrier mds) :=
  inferInstanceAs (Decidable (env.injectReleaseFailure = false → ∀ p ∈ c.mdsSessions,
    env.isClientreplayOrActiveOrStopping p.1 → some p.1 ≠ mds → ∀ b ∈ p.2, barrier ≤ b))

instance decidableSafe (c : Client) : ∀ a, Decidable (Safe c a)
  | .handleOsdMap => inferInstanceAs (Decidable (c.osdmapFull = true → c.capEpochBarrier ≤ c.osdEpoch))
  | .handleCaps m known env => inferInstanceAs (Decidable (known = false → (c.mdsSessions.lookup m.source).isSome →
      Fresh c env (max c.capEpochBarrier m.osdEpochBarrier) (if m.isImport then some m.source else none)))
  | .flushCapReleases env => inferInstanceAs (Decidable (Fresh c env c.capEpochBarrier none))
  | .osdMap _ _ | .sendCap | .flushSnaps | .removeCap _ | .openSession _ | .closeSession _ | .sendReconnect _ =>
    .isTrue trivial

/-- The barrier bounds the demands, and the messages honour those before them. -/
structure Inv (c : Client) : Prop where
  bound : ∀ e ∈ c.history, e.demand ≤ c.capEpochBarrier
  honours : c.history.Pairwise Honours

theorem inv_initial : Inv initial := ⟨fun _ h => (List.not_mem_nil h).elim, List.Pairwise.nil⟩

/-! ## What the functions do -/

/-- An event that the barrier bounds, with a message only at the barrier. -/
theorem Inv.record {e : Event} (h : Inv c) (hd : e.demand ≤ c.capEpochBarrier)
    (hs : ∀ b, e = .sent b → c.capEpochBarrier ≤ b) : Inv (c.record e) where
  bound e' he' := by
    rcases List.mem_cons.mp he' with rfl | he'
    · exact hd
    · exact h.bound e' he'
  honours := List.pairwise_cons.mpr ⟨fun e' he' b hb => (h.bound e' he').trans (hs b hb), h.honours⟩

theorem Inv.setCapEpochBarrier {e : ℕ} (h : Inv c) (he : c.capEpochBarrier ≤ e) : Inv (c.setCapEpochBarrier e) where
  bound e' he' := (h.bound e' he').trans he
  honours := h.honours

/-- The sessions do not matter. -/
theorem Inv.sessions (h : Inv c) (l : List (ℤ × Option ℕ)) : Inv { c with mdsSessions := l } :=
  ⟨h.bound, h.honours⟩

theorem Inv.handleOsdMap (h : Inv c) (hs : c.osdmapFull = true → c.capEpochBarrier ≤ c.osdEpoch) :
    Inv c.handleOsdMap := by
  rw [Client.handleOsdMap]
  split
  · rename_i hfull
    have hle := hs hfull
    refine ⟨fun e he => ?_, List.pairwise_cons.mpr ⟨?_, h.honours⟩⟩
    · rcases List.mem_cons.mp he with rfl | he
      · exact le_rfl
      · exact (h.bound e he).trans hle
    · intro e _ b hb
      cases hb
  · exact h

theorem takeBarrier_barrier (m : MClientCaps) :
    (c.takeBarrier m).capEpochBarrier = max c.capEpochBarrier m.osdEpochBarrier := by
  rw [takeBarrier]
  split
  · rename_i hlt
    exact (max_eq_right (Nat.le_of_lt hlt)).symm
  · rename_i hlt
    exact (max_eq_left (Nat.not_lt.mp hlt)).symm

theorem takeBarrier_sessions (m : MClientCaps) : (c.takeBarrier m).mdsSessions = c.mdsSessions := by
  rw [takeBarrier]
  split <;> rfl

theorem takeBarrier_history (m : MClientCaps) :
    (c.takeBarrier m).history = .received m.osdEpochBarrier :: c.history := by
  rw [takeBarrier]
  split <;> rfl

theorem Inv.takeBarrier (h : Inv c) (m : MClientCaps) : Inv (c.takeBarrier m) where
  bound e he := by
    rw [takeBarrier_barrier]
    rw [takeBarrier_history] at he
    rcases List.mem_cons.mp he with rfl | he
    · exact le_max_right _ _
    · exact (h.bound e he).trans (le_max_left _ _)
  honours := by
    rw [takeBarrier_history, List.pairwise_cons]
    refine ⟨fun e _ b hb => ?_, h.honours⟩
    cases hb

theorem Inv.flushCapReleases {env : Env} (h : Inv c) (hf : Fresh c env c.capEpochBarrier none) :
    Inv (c.flushCapReleases env) := by
  -- Each message is the release of a session, whose barrier is not below the client's.
  have hsent : ∀ e ∈ (c.mdsSessions.filterMap (sentRelease env)).reverse, ∃ b, e = .sent b ∧ c.capEpochBarrier ≤ b := by
    intro e he
    obtain ⟨p, hp, hsome⟩ := List.mem_filterMap.mp (List.mem_reverse.mp he)
    rw [sentRelease] at hsome
    split at hsome
    · rename_i hready
      rw [Bool.and_eq_true, Bool.not_eq_true'] at hready
      obtain ⟨b, hb, rfl⟩ := Option.map_eq_some_iff.mp hsome
      exact ⟨b, rfl, hf hready.2 p hp hready.1 (by simp) b hb⟩
    · cases hsome
  refine ⟨fun e he => ?_, List.pairwise_append.mpr ⟨?_, h.honours, ?_⟩⟩
  · rcases List.mem_append.mp he with he | he
    · obtain ⟨b, rfl, -⟩ := hsent e he
      exact Nat.zero_le _
    · exact h.bound e he
  · apply List.pairwise_of_forall_mem_list
    intro e he e' he' b hb
    obtain ⟨b', rfl, -⟩ := hsent e' he'
    exact Nat.zero_le _
  · intro e he e' he' b hb
    obtain ⟨b', rfl, hle⟩ := hsent e he
    cases hb
    exact (h.bound e' he').trans hle

/-- A message about an inode that the client does not have. -/
theorem fresh_enqueue {m : MClientCaps} {env : Env} (hk : Keeps enqueue)
    (hf : Fresh c env (max c.capEpochBarrier m.osdEpochBarrier) (if m.isImport then some m.source else none)) :
    Fresh (if m.isImport then (c.takeBarrier m).enqueueCapRelease enqueue m.source else c.takeBarrier m) env
      (max c.capEpochBarrier m.osdEpochBarrier) none := by
  cases hi : m.isImport with
  | false =>
    rw [hi] at hf
    intro hinject p hp
    rw [if_neg (by decide), takeBarrier_sessions] at hp
    exact hf hinject p hp
  | true =>
    rw [hi] at hf
    intro hinject p hp hready _ b hb
    rw [if_pos rfl, enqueueCapRelease, takeBarrier_sessions, takeBarrier_barrier] at hp
    obtain ⟨q, hq, rfl⟩ := List.mem_map.mp hp
    by_cases hsource : q.1 = m.source
    · simp only [if_pos hsource, Option.mem_some_iff] at hb
      rw [← hb]
      exact hk _ _
    · simp only [if_neg hsource] at hready hb
      exact hf hinject q hq hready (by simpa using hsource) b hb

/-! ## A step and a run -/

theorem step_honours (hk : Keeps enqueue) (h : Inv c) (hs : Safe c a) (hstep : step enqueue c a = some c') :
    Inv c' := by
  cases a with
  | osdMap e full =>
    rw [step] at hstep
    split at hstep
    · cases hstep
      exact ⟨h.bound, h.honours⟩
    · cases hstep
  | handleOsdMap =>
    cases hstep
    exact h.handleOsdMap hs
  | handleCaps m known env =>
    cases hstep
    rw [handleCaps]
    split
    · exact h
    · rename_i hsession
      cases known with
      | true => exact h.takeBarrier m
      | false =>
        have hfresh := fresh_enqueue hk (hs rfl (by simpa using hsession))
        cases hi : m.isImport with
        | false =>
          rw [hi] at hfresh
          refine (h.takeBarrier m).flushCapReleases ?_
          rw [takeBarrier_barrier]
          exact hfresh
        | true =>
          rw [hi] at hfresh
          refine ((h.takeBarrier m).sessions _).flushCapReleases ?_
          show Fresh ((c.takeBarrier m).enqueueCapRelease enqueue m.source) env (c.takeBarrier m).capEpochBarrier none
          rw [takeBarrier_barrier]
          exact hfresh
  | sendCap | flushSnaps =>
    cases hstep
    refine h.record (Nat.zero_le _) fun b hb => ?_
    cases hb
    exact le_rfl
  | removeCap mds | closeSession mds | sendReconnect mds =>
    cases hstep
    exact h.sessions _
  | flushCapReleases env =>
    cases hstep
    exact h.flushCapReleases hs
  | openSession mds =>
    rw [step] at hstep
    split at hstep
    · cases hstep
    · cases hstep
      exact h.sessions _

/-- In a run whose steps are all safe, every message honours what was received and cancelled before it. -/
theorem history_honours (hk : Keeps enqueue) (hok : Meets (step enqueue) Safe initial as)
    (h : run (step enqueue) initial as = some c) : c.history.Pairwise Honours :=
  (run_invariant_of (fun _ _ _ hi hs hstep => step_honours hk hi hs hstep) inv_initial hok h).honours

/-- The release has the highest barrier of those that joined it. -/
def enqueueMax : Enqueue := fun release barrier => max (release.getD 0) barrier

theorem keeps_enqueueMax : Keeps enqueueMax := fun _ _ => le_max_right _ _

def active : Env := ⟨fun _ => true, false⟩

/-- A barrier of the MDS, a full map that comes later, and a release after it. -/
theorem history_honours_full : ∃ c, run (step enqueueMax) initial
      [.openSession 0, .osdMap 5 false, .handleCaps ⟨0, 6, false⟩ true active, .sendCap, .osdMap 7 true,
        .handleOsdMap, .flushSnaps, .removeCap 0, .flushCapReleases active] = some c ∧
    c.history.Pairwise Honours ∧ c.history.take 1 = [.sent 7] := by
  have h : run (step enqueueMax) initial
    [.openSession 0, .osdMap 5 false, .handleCaps ⟨0, 6, false⟩ true active, .sendCap, .osdMap 7 true,
      .handleOsdMap, .flushSnaps, .removeCap 0, .flushCapReleases active] = some _ := rfl
  exact ⟨_, h, history_honours keeps_enqueueMax (by decide) h, rfl⟩

/-- The barrier 10 of an MDS is lost when writes are cancelled in epoch 6. -/
theorem not_history_honours : ∃ c, run (step enqueueMax) initial
      [.openSession 0, .osdMap 5 false, .handleCaps ⟨0, 10, false⟩ true active, .osdMap 6 true, .handleOsdMap,
        .sendCap] = some c ∧ c.history = [.sent 6, .cancelled 6, .received 10] ∧ ¬c.history.Pairwise Honours := by
  refine ⟨_, rfl, rfl, fun h => ?_⟩
  have := (List.pairwise_cons.mp h).1 (.received 10) (by decide) 6 rfl
  exact absurd this (by decide)

end CephMds.CapBarrier
