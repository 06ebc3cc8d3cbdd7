import CephMds.Model.Dispatch
import Mathlib

/-!
# The order of deferred messages

What came in is handed over, rejected or waits, and `waiting_for_nolaggy` is
served from its front. So the messages of one sender are handed over in the
order in which they came, in every run in which no message goes past an older
one of its sender that still waits. `_dispatch` does not look for one: it asks
only whether the beacon is laggy, and the first message after that has ended
is handled before the queue is served.
-/

namespace CephMds.Dispatch

variable {μ σ : Type} [DecidableEq σ] (source : μ → σ) (recognized : μ → Bool)

/-- The messages that are not dispatched again. -/
def incomings (l : List (Item μ)) : List μ :=
  l.filterMap fun
    | .incoming m => some m
    | .retried _ => none

@[simp]
theorem incomings_append {l l' : List (Item μ)} : incomings (l ++ l') = incomings l ++ incomings l' :=
  List.filterMap_append

@[simp]
theorem incomings_nil : incomings ([] : List (Item μ)) = [] := rfl

@[simp]
theorem incomings_incoming {m : μ} {l : List (Item μ)} : incomings (.incoming m :: l) = m :: incomings l := rfl

@[simp]
theorem incomings_retried {m : μ} {l : List (Item μ)} : incomings (.retried m :: l) = incomings l := rfl

/-- The messages of `p`. -/
def sentBy (p : σ) (l : List μ) : List μ := l.filter fun m => source m = p

variable {source recognized}

@[simp]
theorem sentBy_append {p : σ} {l l' : List μ} : sentBy source p (l ++ l') = sentBy source p l ++ sentBy source p l' :=
  List.filter_append ..

@[simp]
theorem sentBy_nil {p : σ} : sentBy source p [] = [] := rfl

theorem sentBy_cons {p : σ} {m : μ} {l : List μ} :
    sentBy source p (m :: l) = if source m = p then m :: sentBy source p l else sentBy source p l := by
  simp [sentBy, List.filter_cons]

theorem sublist_incomings_cons {i : Item μ} {l : List (Item μ)} : (incomings l).Sublist (incomings (i :: l)) :=
  (List.sublist_cons_self i l).filterMap _

namespace Server

variable {s s' : Server μ}

/-- Where the messages that came in are, and in which order. -/
structure Queued (source : μ → σ) (s : Server μ) : Prop where
  order (p : σ) : (sentBy source p (incomings (s.handled ++ s.waitingForNolaggy))).Sublist (sentBy source p s.arrived)
  account : (incomings (s.handled ++ s.rejected ++ s.waitingForNolaggy)).Perm s.arrived

theorem queued_initial : Queued source (initial : Server μ) := ⟨fun _ => .refl _, .refl _⟩

/-- A message that would be handled at once has no older one of its sender in the queue. -/
def Passes (source : μ → σ) (s : Server μ) : Action μ → Prop
  | .dispatch m => s.isStaleMessage m = false → s.isLaggy = false →
      ∀ m' ∈ incomings s.waitingForNolaggy, source m' ≠ source m
  | _ => True

theorem Queued.congr (h : s.Queued source) (hh : s'.handled = s.handled) (hr : s'.rejected = s.rejected)
    (hw : s'.waitingForNolaggy = s.waitingForNolaggy) (ha : s'.arrived = s.arrived) : s'.Queued source := by
  constructor
  · intro p
    rw [hh, hw, ha]
    exact h.order p
  · rw [hh, hr, hw, ha]
    exact h.account

theorem perm_insert {a b c d : List μ} {m : μ} (h : (a ++ b ++ c).Perm d) :
    (a ++ [m] ++ b ++ c).Perm (d ++ [m]) ∧ (a ++ (b ++ [m]) ++ c).Perm (d ++ [m]) ∧
      (a ++ b ++ (c ++ [m])).Perm (d ++ [m]) := by
  have hmid : ∀ x y : List μ, (x ++ [m] ++ y).Perm (x ++ y ++ [m]) := by
    intro x y
    rw [List.append_assoc, List.append_assoc]
    exact (List.perm_append_comm : ([m] ++ y).Perm (y ++ [m])).append_left x
  refine ⟨?_, ?_, ?_⟩
  · have := (hmid a (b ++ c)).trans (((List.append_assoc a b c).symm ▸ h).append_right [m])
    simpa only [List.append_assoc] using this
  · have := (hmid (a ++ b) c).trans (h.append_right [m])
    simpa only [List.append_assoc] using this
  · simpa only [List.append_assoc] using h.append_right [m]

theorem Queued.dispatch {m : μ} (h : s.Queued source) (hp : Passes source s (.dispatch m)) :
    (({ s with arrived := s.arrived ++ [m] } : Server μ).dispatch recognized (.incoming m)).Queued source := by
  have hacc : (incomings s.handled ++ incomings s.rejected ++ incomings s.waitingForNolaggy).Perm s.arrived := by
    simpa using h.account
  obtain ⟨hhandled, hrejected, hwaiting⟩ := perm_insert (m := m) hacc
  have horder := h.order
  unfold Server.dispatch
  by_cases hst : s.isStaleMessage m = true
  · simp only [Item.message, hst, if_true]
    refine ⟨fun p => ?_, by simpa using hrejected⟩
    rw [sentBy_append]
    exact (horder p).trans (List.sublist_append_left _ _)
  · by_cases hl : s.isLaggy = true
    · simp only [Item.message, hst, hl, if_true]
      refine ⟨fun p => ?_, by simpa using hwaiting⟩
      have := (horder p).append (List.Sublist.refl (sentBy source p [m]))
      simpa using this
    · simp only [Item.message, hst, hl]
      refine ⟨fun p => ?_, by simpa using hhandled⟩
      have hbase := horder p
      by_cases hm : source m = p
      · -- nothing of this sender waits
        have hnone : sentBy source p (incomings s.waitingForNolaggy) = [] := by
          refine List.filter_eq_nil_iff.mpr fun m' hm' => ?_
          simpa [← hm] using hp (Bool.not_eq_true _ ▸ hst) (Bool.not_eq_true _ ▸ hl) m' hm'
        simpa [sentBy_cons, hm, hnone] using hbase
      · simpa [sentBy_cons, hm] using hbase

theorem Queued.retry {m : μ} (h : s.Queued source) : (s.dispatch recognized (.retried m)).Queued source := by
  have horder := h.order
  have hacc := h.account
  simp only [incomings_append] at horder hacc
  unfold Server.dispatch
  split
  · exact ⟨by simpa using horder, by simpa using hacc⟩
  · split
    · exact ⟨by simpa using horder, by simpa using hacc⟩
    · exact ⟨by simpa using horder, by simpa using hacc⟩

theorem Queued.processDeferred {i : Item μ} {rest : List (Item μ)} (h : s.Queued source)
    (hw : s.waitingForNolaggy = i :: rest) : (s.processDeferred i rest).Queued source := by
  have horder := h.order
  have hacc := h.account
  rw [hw] at horder hacc
  unfold Server.processDeferred
  split
  · refine ⟨fun p => ?_, ?_⟩
    · refine .trans ?_ (horder p)
      rw [incomings_append, incomings_append, sentBy_append, sentBy_append]
      exact (List.Sublist.refl _).append (sublist_incomings_cons.filter _)
    · rw [show s.handled ++ s.rejected ++ i :: rest = s.handled ++ (s.rejected ++ [i]) ++ rest by simp] at hacc
      exact hacc
  · refine ⟨fun p => ?_, ?_⟩
    · rw [show s.handled ++ i :: rest = s.handled ++ [i] ++ rest by simp] at horder
      exact horder p
    · refine .trans (List.Perm.filterMap _ ?_) hacc
      show (s.handled ++ [i] ++ s.rejected ++ rest).Perm (s.handled ++ s.rejected ++ i :: rest)
      rw [List.append_assoc, List.append_assoc, List.append_assoc]
      exact (List.perm_middle : (s.rejected ++ i :: rest).Perm (i :: (s.rejected ++ rest))).symm.append_left s.handled

theorem Queued.step {a : Action μ} (h : s.Queued source) (hp : Passes source s a)
    (hs : s.step recognized a = some s') : s'.Queued source := by
  cases a with
  | beacon laggy =>
    cases hs
    exact h.congr rfl rfl rfl rfl
  | mdsMap stale =>
    cases hs
    exact h.congr rfl rfl rfl rfl
  | dispatch m =>
    simp only [Server.step] at hs
    split at hs
    · cases hs
    · cases hs
      exact h.dispatch hp
  | advance =>
    simp only [Server.step] at hs
    split at hs
    · cases hs
    · cases hs
      exact h.congr rfl rfl rfl rfl
  | retry m =>
    cases hs
    exact h.retry
  | next =>
    simp only [Server.step] at hs
    split at hs
    · cases hs
    · rename_i i rest hw
      split at hs
      · cases hs
        exact h.processDeferred hw
      · cases hs
  | done =>
    simp only [Server.step] at hs
    split at hs
    · cases hs
      exact h.congr rfl rfl rfl rfl
    · cases hs

/-! ## The queue is served -/

theorem mem_processDeferred {i j : Item μ} {rest : List (Item μ)}
    (hj : j = i ∨ j ∈ s.handled ∨ j ∈ s.rejected) :
    j ∈ (s.processDeferred i rest).handled ∨ j ∈ (s.processDeferred i rest).rejected := by
  unfold processDeferred
  split
  · simp only [List.mem_append, List.mem_singleton]
    tauto
  · simp only [List.mem_append, List.mem_singleton]
    tauto

/-- `_advance_queues` returns, and has handed over or dropped what has waited. -/
theorem drain (recognized : μ → Bool) (ha : s.advancing = true) (hl : s.isLaggy = false) :
    ∃ s', run (step recognized) s (List.replicate s.waitingForNolaggy.length .next ++ [.done]) = some s' ∧
      s'.waitingForNolaggy = [] ∧ s'.isLaggy = false ∧
      ∀ i, i ∈ s.waitingForNolaggy ∨ i ∈ s.handled ∨ i ∈ s.rejected → i ∈ s'.handled ∨ i ∈ s'.rejected := by
  generalize hw : s.waitingForNolaggy = w
  -- over the queue, with the rest of the state arbitrary
  induction w generalizing s with
  | nil =>
    refine ⟨{ s with advancing := false }, ?_, hw, hl, fun i hi => ?_⟩
    · simp [run, Server.step, ha, hw]
    · simpa using hi
  | cons i rest ih =>
    have hnext : step recognized s .next = some (s.processDeferred i rest) := by
      simp [Server.step, hw, ha, hl]
    have hw' : (s.processDeferred i rest).waitingForNolaggy = rest := by
      unfold processDeferred
      split <;> rfl
    have hkeep : (s.processDeferred i rest).advancing = s.advancing ∧ (s.processDeferred i rest).isLaggy = s.isLaggy := by
      unfold processDeferred
      split <;> exact ⟨rfl, rfl⟩
    obtain ⟨s', hrun, hempty, hl', hmem⟩ := ih (hkeep.1.trans ha) (hkeep.2.trans hl) hw'
    refine ⟨s', run_cons.mpr ⟨_, hnext, hrun⟩, hempty, hl', fun j hj => hmem j ?_⟩
    rcases hj with hj | hj
    · rcases List.mem_cons.mp hj with rfl | hj
      · exact .inr (mem_processDeferred (.inl rfl))
      · exact .inl hj
    · exact .inr (mem_processDeferred (.inr hj))

/-- Of every sender, what is handed over is in the order of arrival and at
most once, and what came in and was not handed over was rejected or waits.
When `_advance_queues` returns and the beacon is not laggy, nothing waits; and
it does return, with all that has waited handed over or rejected. -/
def InOrder (source : μ → σ) (recognized : μ → Bool) (s : Server μ) : Prop :=
  (∀ p, (sentBy source p (incomings s.handled)).Sublist (sentBy source p s.arrived)) ∧
  (incomings (s.handled ++ s.rejected ++ s.waitingForNolaggy)).Perm s.arrived ∧
  (∀ s', s.step recognized .done = some s' → s.isLaggy = false → s'.waitingForNolaggy = []) ∧
  (s.advancing = true → s.isLaggy = false →
    ∃ s', run (step recognized) s (List.replicate s.waitingForNolaggy.length .next ++ [.done]) = some s' ∧
      s'.waitingForNolaggy = [] ∧ ∀ i ∈ s.waitingForNolaggy, i ∈ s'.handled ∨ i ∈ s'.rejected)

theorem Queued.inOrder (h : s.Queued source) : s.InOrder source recognized := by
  refine ⟨fun p => ?_, h.account, fun s' hs hl => ?_, fun ha hl => ?_⟩
  · refine .trans ?_ (h.order p)
    rw [incomings_append, sentBy_append]
    exact List.sublist_append_left _ _
  · simp only [Server.step, hl, Bool.or_false] at hs
    split at hs
    · rename_i hd
      cases hs
      exact List.isEmpty_iff.mp (Bool.and_eq_true_iff.mp hd).2
    · cases hs
  · obtain ⟨s', hrun, hempty, -, hmem⟩ := drain recognized ha hl
    exact ⟨s', hrun, hempty, fun i hi => hmem i (.inl hi)⟩

/-- In every run in which no message passes an older one of its sender, every
state has the messages in order. -/
theorem run_inOrder {as : List (Action μ)} (hp : Meets (step recognized) (Passes source) initial as)
    (h : run (step recognized) initial as = some s) : s.InOrder source recognized := by
  have hq : s.Queued source := run_invariant_of (fun _ _ _ hq hp hs => hq.step hp hs) queued_initial hp h
  exact hq.inOrder

/-! ## Two messages of one sender -/

/-- The first comes in while the beacon is laggy. -/
def laggyFirst : List (Action ℕ) := [.beacon true, .dispatch 1, .done, .beacon false]

theorem run_inOrder_laggyFirst : ∃ s, run (step fun _ => true) initial (laggyFirst ++ [.advance, .next, .done, .dispatch 2]) =
    some s ∧ s.handled = [.incoming 1, .incoming 2] ∧ s.InOrder (fun _ => 0) fun _ => true := by
  have hp : Meets (step fun _ => true) (Passes fun _ => 0) initial (laggyFirst ++ [.advance, .next, .done, .dispatch 2]) := by
    simp [laggyFirst, Meets, step, Passes, initial, dispatch, processDeferred, Item.message]
  exact ⟨_, rfl, rfl, run_inOrder hp rfl⟩

/-- The second comes in when that has ended, and before the queue is served. -/
theorem not_run_inOrder : ¬ ∀ (as : List (Action ℕ)) (s : Server ℕ), run (step fun _ => true) initial as = some s →
    s.InOrder (fun _ => 0) fun _ => true := by
  intro h
  have hrun : run (step fun _ => true) initial (laggyFirst ++ [.dispatch 2, .next]) = some
      ⟨false, fun _ => false, true, [], [1, 2], [.incoming 2, .incoming 1], []⟩ := rfl
  exact absurd ((h _ _ hrun).1 0) (by decide)

end Server

end CephMds.Dispatch
