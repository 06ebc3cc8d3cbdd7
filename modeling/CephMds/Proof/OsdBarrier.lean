import CephMds.Model.OsdBarrier
import Mathlib

/-!
# The OSD epoch barrier

A map that leaves the daemon active sets the barrier to the epoch of the
objecter, whatever the barrier was (`handleMdsMap_barrier`), and the command
sets it to its target. So the barrier is kept from going back exactly by the
runs in which neither is below it (`neverDecreases_iff`).
-/

namespace CephMds.OsdBarrier

open Checked Mds

variable {s s' : Mds} {a : Action} {as : List Action} {m : MdsMap}

/-- The map is new, and leaves the daemon active with a rank. -/
def Mds.activates (s : Mds) (m : MdsMap) : Bool :=
  s.mdsmapEpoch < m.epoch && m.writeable && 0 ≤ m.rank && m.state = .active

/-- The barrier is not above the epoch that the step sets it to. -/
def Heeds (s : Mds) : Action → Prop
  | .mdsMap m => s.activates m = true → s.osdEpochBarrier ≤ s.osdEpoch
  | .osdmapBarrier e => 0 ≤ s.whoami → ∀ t ∈ e, s.osdEpochBarrier ≤ toEpoch t
  | .osdMap _ => True

instance decidableHeeds (s : Mds) : ∀ a, Decidable (Heeds s a)
  | .mdsMap m => inferInstanceAs (Decidable (s.activates m = true → s.osdEpochBarrier ≤ s.osdEpoch))
  | .osdmapBarrier e => inferInstanceAs (Decidable (0 ≤ s.whoami → ∀ t ∈ e, s.osdEpochBarrier ≤ toEpoch t))
  | .osdMap _ => .isTrue trivial

/-! ## A step -/

theorem dropped_barrier (s : Mds) : s.dropped.osdEpochBarrier = s.osdEpochBarrier := by
  rw [dropped]
  split
  · rfl
  · split <;> rfl

theorem enter_barrier {oldstate : DaemonState} (h : s.enter oldstate = .ok s') :
    s'.osdEpochBarrier = if s.state = .active then s.osdEpoch else s.osdEpochBarrier := by
  simp only [enter, bind_ok, assert_ok, pure_ok] at h
  obtain ⟨_, -, _, -, rfl⟩ := h
  split <;> split <;> simp_all [setOsdEpochBarrier]

theorem handleMdsMap_barrier (h : s.handleMdsMap m = .ok s') :
    s'.osdEpochBarrier = if s.activates m then s.osdEpoch else s.osdEpochBarrier := by
  rw [handleMdsMap] at h
  by_cases hepoch : m.epoch ≤ s.mdsmapEpoch
  · rw [if_pos hepoch, pure_ok] at h
    simp [activates, ← h, Nat.not_lt.mpr hepoch]
  rw [if_neg hepoch] at h
  cases hw : m.writeable with
  | false =>
    rw [hw] at h
    cases h
    simp [activates, hw]
  | true =>
    rw [hw] at h
    simp only [Bool.not_true, Bool.false_eq_true, if_false] at h
    have hlt : s.mdsmapEpoch < m.epoch := Nat.not_le.mp hepoch
    by_cases hs : m.state = .standby
    · rw [if_pos hs, pure_ok] at h
      simp [activates, hs, ← h]
    rw [if_neg hs] at h
    by_cases hr : m.state = .standbyReplay ∧ s.standbyType ≠ .null ∧ s.standbyType ≠ .standbyReplay
    · rw [if_pos hr, pure_ok] at h
      simp [activates, hr.1, ← h]
    rw [if_neg hr] at h
    by_cases hrank : m.rank < 0
    · rw [if_pos hrank] at h
      have hno : s.activates m = false := by simp [activates, Int.not_le.mpr hrank]
      rw [hno, if_neg Bool.false_ne_true]
      by_cases hrep : m.state = .standbyReplay ∨ m.state = .oneshotReplay
      · rw [if_pos hrep] at h
        have hna : m.state ≠ .active := by rintro h; rcases hrep with hp | hp <;> cases h.symm.trans hp
        exact (enter_barrier h).trans (if_neg hna)
      · rw [if_neg hrep, pure_ok] at h
        rw [← h, dropped_barrier]
    · rw [if_neg hrank] at h
      rw [enter_barrier h]
      simp [activates, hlt, hw, Int.not_lt.mp hrank]

/-- A step does not lower the barrier exactly if it heeds it. -/
theorem step_barrier (h : step s a = some s') : s.osdEpochBarrier ≤ s'.osdEpochBarrier ↔ Heeds s a := by
  cases a with
  | mdsMap m =>
    rw [step] at h
    split at h
    · cases h
    · rw [toOption_eq_some] at h
      rw [handleMdsMap_barrier h, Heeds]
      cases s.activates m <;> simp
  | osdmapBarrier e =>
    rw [step] at h
    split at h
    · cases h
    · cases h
      rw [osdmapBarrier, Heeds]
      by_cases hw : s.whoami < 0
      · simp [hw, Int.not_le.mpr hw]
      · cases e with
        | none => simp [hw]
        | some t => simp [hw, Int.not_lt.mp hw, setOsdEpochBarrier]
  | osdMap e =>
    rw [step] at h
    split at h
    · cases h
    · cases h
      simp [Heeds]

/-! ## A run -/

/-- From any state of the run to any later one. -/
def NeverDecreases (s : Mds) (as : List Action) : Prop :=
  ∀ bs cs ds t t', as = bs ++ (cs ++ ds) → run step s bs = some t → run step t cs = some t' →
    t.osdEpochBarrier ≤ t'.osdEpochBarrier

/-- The barrier is that of the command in every later state. -/
def Demanded (s : Mds) (as : List Action) (s' : Mds) : Prop :=
  ∀ bs e cs t, as = bs ++ Action.osdmapBarrier (some e) :: cs → run step s bs = some t → 0 ≤ t.whoami →
    toEpoch e ≤ s'.osdEpochBarrier

theorem barrier_le (hok : Meets step Heeds s as) (h : run step s as = some s') :
    s.osdEpochBarrier ≤ s'.osdEpochBarrier :=
  run_invariant_of (P := fun t => s.osdEpochBarrier ≤ t.osdEpochBarrier)
    (fun _ _ _ hle hok hs => hle.trans ((step_barrier hs).mpr hok)) le_rfl hok h

/-- In a run, the barrier never goes back if and only if every map and every
command heeds it; and then every barrier that was demanded stays in force. -/
theorem neverDecreases_iff (h : run step s as = some s') :
    (NeverDecreases s as ↔ Meets step Heeds s as) ∧ (Meets step Heeds s as → Demanded s as s') := by
  refine ⟨⟨fun hn => ?_, fun hok => ?_⟩, fun hok => ?_⟩
  · induction as generalizing s with
    | nil => trivial
    | cons a as ih =>
      obtain ⟨t, ht, hr⟩ := run_cons.mp h
      refine ⟨(step_barrier ht).mp (hn [] [a] as s t rfl rfl (run_cons.mpr ⟨t, ht, rfl⟩)), fun u hu => ?_⟩
      cases ht.symm.trans hu
      refine ih hr fun bs cs ds x x' has hx hx' => ?_
      exact hn (a :: bs) cs ds x x' (by rw [has]; rfl) (run_cons.mpr ⟨t, ht, hx⟩) hx'
  · rintro bs cs ds t t' rfl ht ht'
    exact barrier_le (hok.right ht).left ht'
  · rintro bs e cs t rfl ht hw
    obtain ⟨u, hu, hr⟩ := run_append.mp h
    cases ht.symm.trans hu
    obtain ⟨v, hv, hr⟩ := run_cons.mp hr
    refine le_trans ?_ (barrier_le ((hok.right ht).2 v hv) hr)
    rw [step] at hv
    split at hv
    · cases hv
    · cases hv
      rw [osdmapBarrier, if_neg (Int.not_lt.mpr hw)]
      exact le_rfl

/-! ## A map and a command -/

/-- The map with this epoch has the daemon as rank 0, active. -/
def activeMap (epoch : ℕ) : MdsMap := ⟨epoch, true, 0, .active, -1⟩

/-- The objecter gets the map with the epoch that is demanded before the next map of the MDSs. -/
theorem neverDecreases_waited : ∃ s', run step (initial .null 10)
      [.mdsMap (activeMap 1), .osdmapBarrier (some 20), .osdMap 20, .mdsMap (activeMap 2)] = some s' ∧
    NeverDecreases (initial .null 10)
      [.mdsMap (activeMap 1), .osdmapBarrier (some 20), .osdMap 20, .mdsMap (activeMap 2)] := by
  have h : run step (initial .null 10)
    [.mdsMap (activeMap 1), .osdmapBarrier (some 20), .osdMap 20, .mdsMap (activeMap 2)] = some _ := rfl
  refine ⟨_, h, (neverDecreases_iff h).1.mpr ?_⟩
  decide

/-- The barrier that a command sets to 20 is 10 again after the next map. -/
theorem not_neverDecreases : ∃ s', run step (initial .null 10)
      [.mdsMap (activeMap 1), .osdmapBarrier (some 20), .mdsMap (activeMap 2)] = some s' ∧ s'.osdEpochBarrier = 10 ∧
    ¬ NeverDecreases (initial .null 10) [.mdsMap (activeMap 1), .osdmapBarrier (some 20), .mdsMap (activeMap 2)] := by
  refine ⟨_, rfl, rfl, fun h => ?_⟩
  exact absurd (h [.mdsMap (activeMap 1), .osdmapBarrier (some 20)] [.mdsMap (activeMap 2)] [] _ _ rfl rfl rfl) (by decide)

end CephMds.OsdBarrier
