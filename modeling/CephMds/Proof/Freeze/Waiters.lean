import CephMds.Proof.Freeze.Exclusion

/-!
# No waiter is lost in a tree of fragments

`Waits` is the invariant: what was registered waits on some fragment or has
been handed out, once, and who waits for an unfreeze does so on a fragment that
is freezing or frozen. Freezes only hand waiters out (`Passed`), and one that
ends hands out those who wait for it.
-/

namespace CephMds.Freeze.System

open Checked Waiting

variable {δ ν κ ε : Type} [LinearOrder ν] {F : Forest δ} {I : InodeView δ ν κ ε}
  {s s' : System δ ν κ ε} {d : δ} [Fintype δ] [DecidableEq δ]

/-- The contexts of a fragment, waiting or handed out. -/
def known (s : System δ ν κ ε) (d : δ) : Multiset κ :=
  ((s.dir d).waiters.contexts ++ (s.dir d).waiters.taken : List κ)

structure Waits (s : System δ ν κ ε) : Prop where
  conserved : ∑ d, s.known d = (s.registered : Multiset κ)
  flagged : ∀ d, ∀ p ∈ (s.dir d).waiters.waiting, meets p.1 waitUnfreeze = true → (s.dir d).flagged = true

omit [LinearOrder ν] [DecidableEq δ] in
theorem Waits.passed (hs : Waits s) (h : Passed s s') : Waits s' := by
  refine ⟨?_, ?_⟩
  · rw [h.registered, ← hs.conserved]
    refine Finset.sum_congr rfl fun d _ => ?_
    exact Multiset.coe_eq_coe.mpr (h.same d).waiters.contexts
  · intro d p hp hu
    have hsub := (h.same d).waiters.waiting.subset hp
    rcases (h.same d).flagged (hs.flagged d p hsub hu) with hf | hf
    · exact hf
    · rw [hf p hp] at hu
      cases hu

omit [LinearOrder ν] in
/-- A context begins to wait on `d`. -/
theorem sum_known_add {c : κ} {w : Waiters ν κ} {reg : List κ}
    (h : (w.contexts ++ w.taken).Perm (c :: ((s.dir d).waiters.contexts ++ (s.dir d).waiters.taken))) :
    ∑ x, (set { s with registered := reg } d { s.dir d with waiters := w }).known x =
      ∑ x, s.known x + {c} := by
  have hx : ∀ x, (set { s with registered := reg } d { s.dir d with waiters := w }).known x =
      s.known x + if x = d then {c} else 0 := by
    intro x
    by_cases hxd : x = d
    · subst hxd
      rw [known, set_dir_self, if_pos rfl]
      refine (Multiset.coe_eq_coe.mpr h).trans ?_
      rw [known, ← Multiset.cons_coe, ← Multiset.singleton_add, add_comm]
    · rw [known, set_dir_of_ne hxd, if_neg hxd, add_zero]
      rfl
  simp only [hx, Finset.sum_add_distrib, Finset.sum_ite_eq', Finset.mem_univ, if_true]

omit [LinearOrder ν] [Fintype δ] in
/-- Waiters of `d` are handed out. -/
theorem Passed.of_conserves {w : Waiters ν κ} (h : Waiters.Conserves (s.dir d).waiters w) :
    Passed s (s.set d { s.dir d with waiters := w }) := by
  refine ⟨rfl, fun x => ?_⟩
  by_cases hx : x = d
  · subst hx
    rw [set_dir_self]
    exact ⟨rfl, rfl, h, .inl⟩
  · rw [set_dir_of_ne hx]
    exact .refl _

theorem Waits.effect {a : Action δ ν κ ε} (hst : Steady F s) (hs : Waits s) (h : Effect F s a s') : Waits s' := by
  cases a with
  | addWaiter d tag c =>
    obtain ⟨x, hx, rfl⟩ := h
    refine ⟨?_, ?_⟩
    · rw [sum_known_add Waiters.addWaiter_contexts, hs.conserved]
      exact Multiset.coe_add _ _
    · intro y p hp hu
      by_cases hy : y = x
      · subst hy
        rw [set_dir_self] at hp ⊢
        rcases List.mem_cons.mp (Waiters.addWaiter_perm.subset hp) with rfl | hp
        · -- The climb has stopped at a fragment that accepts the tag.
          have hacc := F.nearest_marked hx
          simp only [accepts, Bool.and_eq_true, Bool.or_eq_true, Bool.not_eq_true'] at hacc
          exact hacc.1.resolve_left (by simp [hu])
        · exact hs.flagged y p hp hu
      · rw [set_dir_of_ne hy] at hp ⊢
        exact hs.flagged y p hp hu
  | addDentryWaiter d dname snapid c =>
    obtain rfl := h
    refine ⟨?_, ?_⟩
    · rw [sum_known_add Waiters.addDentryWaiter_contexts, hs.conserved]
      exact Multiset.coe_add _ _
    · intro y p hp hu
      by_cases hy : y = d
      · subst hy
        rw [set_dir_self] at hp ⊢
        refine hs.flagged y p ?_ hu
        rw [Waiters.addDentryWaiter] at hp
        split at hp <;> exact hp
      · rw [set_dir_of_ne hy] at hp ⊢
        exact hs.flagged y p hp hu
  | takeDentryWaiting d dname first last =>
    obtain ⟨w, hw, rfl⟩ := h
    exact hs.passed (.of_conserves (.of_takeDentryWaiting (hst.tracked d).pinned hw))
  | takeSubWaiting d =>
    obtain ⟨w, hw, rfl⟩ := h
    exact hs.passed (.of_conserves (.of_takeSubWaiting (hst.tracked d).pinned hw))
  | takeWaiting d mask =>
    obtain ⟨w, hw, rfl⟩ := h
    exact hs.passed (.of_conserves (.of_takeWaiting (hst.tracked d).pinned hw))
  | unfreezeTree d => exact hs.passed h.1
  | unfreezeDir d => exact hs.passed h.1
  | _ => exact hs.passed h

/-- What the waiters are promised. -/
structure Attends (F : Forest δ) (I : InodeView δ ν κ ε) (s : System δ ν κ ε) : Prop where
  /-- What was registered waits or was handed out, as often as it was registered. -/
  conserved : ∑ d, (((s.dir d).waiters.contexts ++ (s.dir d).waiters.taken : List κ) : Multiset κ) =
    (s.registered : Multiset κ)
  pins : ∀ d, (s.dir d).waiters.pinWaiter = (if (s.dir d).waiters.waiting = [] then 0 else 1) ∧
    (s.dir d).waiters.pinDnwaiter = (if (s.dir d).waiters.waitingOnDentry = [] then 0 else 1)
  flagged : ∀ d, ∀ p ∈ (s.dir d).waiters.waiting, meets p.1 waitUnfreeze = true → (s.dir d).flagged = true
  /-- The climb ends, and the context waits there. -/
  addWaiter : ∀ d tag c, s.allowed F I (.addWaiter d tag c) = true →
    ∃ x s', F.nearest (s.accepts tag) d = some x ∧ s.perform F I (.addWaiter d tag c) = .ok s' ∧
      (s'.dir x).waiters.waiting.Perm ((tag, c) :: (s.dir x).waiters.waiting)
  takeDentryWaiting : ∀ d dname first last, ∃ s',
    s.perform F I (.takeDentryWaiting d dname first last) = .ok s' ∧
    (s'.dir d).waiters.waiting = (s.dir d).waiters.waiting ∧
    (s'.dir d).waiters.waitingOnDentry = (s.dir d).waiters.waitingOnDentry.filter (fun p =>
      !decide ((ofLex p.1).1 = dname ∧ first ≤ (ofLex p.1).2 ∧ (ofLex p.1).2 ≤ last)) ∧
    (s'.dir d).waiters.taken = (s.dir d).waiters.taken ++ ((s.dir d).waiters.waitingOnDentry.filter fun p =>
      (ofLex p.1).1 = dname ∧ first ≤ (ofLex p.1).2 ∧ (ofLex p.1).2 ≤ last).flatMap Prod.snd
  takeSubWaiting : ∀ d, ∃ s', s.perform F I (.takeSubWaiting d) = .ok s' ∧
    (s'.dir d).waiters.waiting = (s.dir d).waiters.waiting ∧ (s'.dir d).waiters.waitingOnDentry = [] ∧
    (s'.dir d).waiters.taken = (s.dir d).waiters.taken ++ (s.dir d).waiters.waitingOnDentry.flatMap Prod.snd
  takeWaiting : ∀ d mask, ∃ s', s.perform F I (.takeWaiting d mask) = .ok s' ∧
    (s'.dir d).waiters.waiting = (s.dir d).waiters.waiting.filter (fun p => !meets p.1 mask) ∧
    (s'.dir d).waiters.waitingOnDentry =
      (if meets mask waitDentry then [] else (s.dir d).waiters.waitingOnDentry) ∧
    (s'.dir d).waiters.taken = (s.dir d).waiters.taken ++
      (if meets mask waitDentry then (s.dir d).waiters.waitingOnDentry.flatMap Prod.snd else []) ++
      ((s.dir d).waiters.waiting.filter fun p => meets p.1 mask).map Prod.snd
  unfreezeTree : ∀ d, (s.dir d).frozenTree = true ∨ (s.dir d).freezingTree = true →
    ∃ s', s.perform F I (.unfreezeTree d) = .ok s' ∧
      ∀ p ∈ (s.dir d).waiters.waiting, meets p.1 waitUnfreeze = true → p.2 ∈ (s'.dir d).waiters.taken
  unfreezeDir : ∀ d, (s.dir d).frozenDir = true ∨ (s.dir d).freezingDir = true →
    ∃ s', s.perform F I (.unfreezeDir d) = .ok s' ∧
      ∀ p ∈ (s.dir d).waiters.waiting, meets p.1 waitUnfreeze = true → p.2 ∈ (s'.dir d).waiters.taken

omit [LinearOrder ν] [Fintype δ] [DecidableEq δ] in
/-- Who waited for the unfreeze and does not any more has been handed out. -/
theorem Passed.taken (h : Passed s s') (hw : ∀ p ∈ (s'.dir d).waiters.waiting, meets p.1 waitUnfreeze = false) :
    ∀ p ∈ (s.dir d).waiters.waiting, meets p.1 waitUnfreeze = true → p.2 ∈ (s'.dir d).waiters.taken := by
  intro p hp hu
  rcases (h.same d).waiters.released p hp with hp' | hp'
  · rw [hw p hp'] at hu
    cases hu
  · exact hp'

/-- No waiter is lost, duplicated or stranded: in every state that a tree of
fragments reaches while the callers keep their promises. -/
theorem run_attends {auth : δ → Bool} {dirAuth : δ → Auth} {env : ε} {as : List (Action δ ν κ ε)}
    (h : run (step F I) (init auth dirAuth env) as = some s) : Attends F I s := by
  obtain ⟨hst, hs⟩ : Steady F s ∧ Waits s := by
    refine run_invariant (P := fun s => Steady F s ∧ Waits s) ?_ ⟨steady_init F auth dirAuth env, ?_⟩ h
    · intro s a s' hs hstep
      obtain ⟨hst', he⟩ := step_steady hs.1 hstep
      exact ⟨hst', hs.2.effect hs.1 he⟩
    · refine ⟨?_, fun d p hp => by cases hp⟩
      exact Finset.sum_eq_zero fun d _ => rfl
  refine ⟨hs.conserved, ?_, hs.flagged, ?_, ?_, ?_, ?_, ?_, ?_⟩
  · intro d
    exact ⟨(hst.tracked d).pinned.waiter, (hst.tracked d).pinned.dnwaiter⟩
  · intro d tag c ha
    obtain ⟨s', h', -, x, hx, rfl⟩ := perform_ok hst ha
    refine ⟨x, _, hx, h', ?_⟩
    rw [set_dir_self]
    exact Waiters.addWaiter_perm
  · intro d dname first last
    obtain ⟨w, hw, -, h₁, h₂, h₃⟩ := Waiters.takeDentryWaiting_eq (hst.tracked d).pinned dname first last
    refine ⟨_, bind_ok.mpr ⟨w, hw, rfl⟩, ?_⟩
    rw [set_dir_self]
    exact ⟨h₁, h₂, h₃⟩
  · intro d
    refine ⟨_, bind_ok.mpr ⟨_, Waiters.takeSubWaiting_eq (hst.tracked d).pinned, rfl⟩, ?_⟩
    rw [set_dir_self]
    exact ⟨rfl, rfl, rfl⟩
  · intro d mask
    obtain ⟨w, hw, -, h₁, h₂, h₃⟩ := Waiters.takeWaiting_eq (hst.tracked d).pinned mask
    refine ⟨_, bind_ok.mpr ⟨w, hw, rfl⟩, ?_⟩
    rw [set_dir_self]
    exact ⟨h₁, h₂, h₃⟩
  · intro d ha
    obtain ⟨s', h', -, hp, hw⟩ := perform_ok (I := I) (a := .unfreezeTree d) hst (Bool.or_eq_true_iff.mpr ha)
    exact ⟨s', h', hp.taken hw⟩
  · intro d ha
    obtain ⟨s', h', -, hp, hw⟩ := perform_ok (I := I) (a := .unfreezeDir d) hst (Bool.or_eq_true_iff.mpr ha)
    exact ⟨s', h', hp.taken hw⟩

/-- A context that waits for an unfreeze below a tree that is freezing waits at its root. -/
theorem run_attends_pair : ∃ s, run (step pairForest (inodesAbove pairForest)) pairInit
    [.authPin .lower (.other 1), .freezeTree .upper, .addWaiter .lower waitUnfreeze 5] = some s ∧
    (s.dir .upper).waiters.waiting = [(waitUnfreeze, 5)] ∧ (s.dir .upper).flagged = true ∧
    (s.dir .upper).waiters.pinWaiter = 1 := by
  have hrun : ∃ s, run (step pairForest (inodesAbove pairForest)) pairInit
      [.authPin .lower (.other 1), .freezeTree .upper, .addWaiter .lower waitUnfreeze 5] = some s ∧
      (s.dir .upper).waiters.waiting = [(waitUnfreeze, 5)] := ⟨_, rfl, rfl⟩
  obtain ⟨s, hs, hw⟩ := hrun
  have h := run_attends hs
  refine ⟨s, hs, hw, h.flagged .upper _ (by rw [hw]; exact List.mem_singleton.mpr rfl) (by decide), ?_⟩
  rw [(h.pins .upper).1, hw]
  rfl

/-- A tag for both an unfreeze and a single authority, on a frozen fragment below a
subtree root that is not frozen, climbs past the root of the forest. -/
theorem not_climb_ends : ¬ ∀ (as : List (Action Pair ℕ ℕ Unit)) (s : System Pair ℕ ℕ Unit),
    run (step pairForest (inodesAbove pairForest)) pairInit as = some s →
      ∀ d tag c, s.mayWait pairForest (inodesAbove pairForest) d tag = true →
        ∃ s', s.addWaiter pairForest d tag c = .ok s' := by
  intro h
  have hrun : ∃ s, run (step pairForest (inodesAbove pairForest)) pairInit [.freezeDir .lower] = some s ∧
      s.mayWait pairForest (inodesAbove pairForest) .lower (waitUnfreeze ||| waitSingleauth) = true ∧
      pairForest.nearest (s.accepts (waitUnfreeze ||| waitSingleauth)) .lower = none :=
    ⟨_, rfl, by decide, by decide⟩
  obtain ⟨s, hs, hm, hn⟩ := hrun
  obtain ⟨s', h'⟩ := h _ s hs .lower _ 5 hm
  rw [addWaiter, hn] at h'
  cases h'

end CephMds.Freeze.System
