import CephMds.Proof.Sessions.Transitions

/-!
# How the operations move inode numbers

Every operation leaves each inode number at a place (`Conserves`), where the
places were apart before: it moves sets of numbers from one place to another,
or none. Only a session that is cleared when it is closed loses the numbers
that it still has.
-/

namespace CephMds.Sessions.State

open Checked

variable {conf : ℕ} {x y : State} {i : ℕ} {s : Session}

/-- The places after a change of one session, the table and the numbers given. -/
theorem inos_of_sessions (hs : y.sessions = Function.update x.sessions i s) (p : Place) :
    y.inos p = if p = .free then y.table.projected.ids else if p = .given then y.given
      else if p = .prealloc i then s.prealloc else if p = .pending i then s.pending
      else if p = .used i then s.used else x.inos p := by
  cases p with
  | free => rfl
  | given => rfl
  | prealloc j =>
    by_cases hj : j = i
    · subst hj
      simp [inos, hs]
    · simp [inos, hs, hj]
  | pending j =>
    by_cases hj : j = i
    · subst hj
      simp [inos, hs]
    · simp [inos, hs, hj]
  | used j =>
    by_cases hj : j = i
    · subst hj
      simp [inos, hs]
    · simp [inos, hs, hj]

/-- No number moves where the sets of the sessions stay. -/
theorem inos_eq (hs : y.sessions = Function.update x.sessions i s) (hp : s.prealloc = (x.sessions i).prealloc)
    (hq : s.pending = (x.sessions i).pending) (hu : s.used = (x.sessions i).used)
    (ht : y.table.projected.ids = x.table.projected.ids) (hg : y.given = x.given) : y.inos = x.inos := by
  funext p
  rw [inos_of_sessions hs]
  split_ifs with h₁ h₂ h₃ h₄ h₅ <;> subst_vars <;> simp [inos, *]

/-- The places of a session with nothing. -/
theorem inos_newSession (h : ∀ j, x.made ≤ j → x.sessions j = { client := (x.sessions j).client }) {c : ℕ} {b : Bool} :
    (x.newSession c b).inos = x.inos := by
  have hd := h x.made le_rfl
  apply inos_eq (x := x) (i := x.made) rfl
  · rw [hd]
  · rw [hd]
  · rw [hd]
  · rfl
  · rfl

/-! ## Creating an inode -/

theorem assignIno_conserves (h : Apart x.inos) {ino : ℕ} {alloc used : Option ℕ}
    (hy : x.assignIno i ino = .ok (y, alloc, used)) : Conserves x.inos y.inos := by
  rcases assignIno_ok.mp hy with ⟨-, s, hs, rfl, -⟩ | ⟨-, table, ht, rfl, -⟩
  · obtain ⟨hm, -, rfl⟩ := Session.takeIno_ok.mp hs
    have hmove : Moves (.prealloc i) (.used i) {ino} x.inos
        (inos { x.put i { x.sessions i with
          prealloc := (x.sessions i).prealloc \ {ino}, used := (x.sessions i).used ∪ {ino} } with
          projected := x.projected + 1 }) := by
      refine ⟨by simp, by simpa [inos] using hm, ?_, ?_, fun p hp hq => ?_⟩
      · rw [inos_of_sessions rfl]
        simp [inos]
      · rw [inos_of_sessions rfl]
        simp [inos]
      · rw [inos_of_sessions rfl]
        split_ifs <;> subst_vars <;> simp_all [inos, put]
    exact hmove.conserves h
  · obtain ⟨f, hf, rfl⟩ := InoTable.projectAllocIds_ok.mp ht
    obtain ⟨hm, rfl⟩ := Free.alloc_ok.mp hf
    have hmove : Moves .free .given {ino} x.inos
        (inos { x with
          table := { x.table with projected := ⟨x.table.projected.ids \ {ino}, x.table.projected.version + 1⟩ },
          given := insert ino x.given }) := by
      refine ⟨by simp, hm, rfl, ?_, fun p hp hq => ?_⟩
      · show insert ino x.given = x.given ∪ {ino}
        rw [Finset.union_comm]
        rfl
      · cases p <;> first | rfl | contradiction
    exact hmove.conserves h

theorem preallocate_conserves (h : Apart x.inos) {ids got : Finset ℕ} (hy : x.preallocate conf i ids = .ok (y, got)) :
    Conserves x.inos y.inos := by
  rcases preallocate_ok.mp hy with ⟨-, table, ht, -, -, rfl, -⟩ | ⟨-, rfl, -⟩
  · obtain ⟨f, hf, rfl⟩ := InoTable.projectAllocIds_ok.mp ht
    obtain ⟨hm, rfl⟩ := Free.alloc_ok.mp hf
    have hmove : Moves .free (.pending i) ids x.inos
        (inos { x.put i { x.sessions i with pending := (x.sessions i).pending ∪ ids } with
          projected := x.projected + 1,
          table := { x.table with projected := ⟨x.table.projected.ids \ ids, x.table.projected.version + 1⟩ } }) := by
      refine ⟨by simp, hm, rfl, ?_, fun p hp hq => ?_⟩
      · rw [inos_of_sessions rfl]
        simp [inos]
      · rw [inos_of_sessions rfl]
        split_ifs <;> subst_vars <;> simp_all [inos, put]
    exact hmove.conserves h
  · exact .refl h

theorem create_conserves (h : Apart x.inos) {ino : ℕ} {ids : Finset ℕ}
    (hy : x.prepareNewInode conf i ino ids = .ok y) : Conserves x.inos y.inos := by
  obtain ⟨z, alloc, used, hz, w, got, hw, rfl⟩ := prepareNewInode_ok.mp hy
  have hzc := assignIno_conserves h hz
  have hwc := preallocate_conserves hzc.apart hw
  exact hzc.trans hwc

/-! ## Closing a session -/

theorem projectRelease_ok {both : Finset ℕ} {table : InoTable} {piv : ℕ} :
    x.projectRelease both = .ok (table, piv) ↔
    (both.card ≠ 0 ∧ Disjoint x.table.projected.ids both ∧
      { x.table with projected := ⟨x.table.projected.ids ∪ both, x.table.projected.version + 1⟩ } = table ∧
      x.table.projected.version + 1 = piv) ∨ (both.card = 0 ∧ x.table = table ∧ 0 = piv) := by
  unfold projectRelease
  by_cases h : both.card = 0
  · simp only [h, ne_eq, not_true_eq_false, if_false, false_and, false_or, true_and, pure_ok, Prod.mk.injEq]
  · simp only [h, ne_eq, not_false_eq_true, if_true, false_and, or_false, true_and, bind_ok, pure_ok, Prod.mk.injEq,
      InoTable.projectReleaseIds_ok, Free.release_ok]
    constructor
    · rintro ⟨_, ⟨_, ⟨hd, rfl⟩, rfl⟩, rfl, rfl⟩
      exact ⟨hd, rfl, rfl⟩
    · rintro ⟨hd, rfl, rfl⟩
      exact ⟨_, ⟨_, ⟨hd, rfl⟩, rfl⟩, rfl, rfl⟩

/-- What a session that closes has, preallocated and pending, is free. -/
theorem close_conserves (h : Apart x.inos) {st : SessionState} (hy : x.journalCloseSession i st = .ok y) :
    Conserves x.inos y.inos := by
  obtain ⟨-, table, piv, ht, rfl⟩ := journalCloseSession_ok.mp hy
  -- the preallocated numbers go first
  let z : State := { x.put i { x.sessions i with prealloc := ∅ } with
    table := { x.table with projected := ⟨x.table.projected.ids ∪ (x.sessions i).prealloc, 0⟩ } }
  have hfirst : Moves (.prealloc i) .free (x.sessions i).prealloc x.inos z.inos := by
    refine ⟨by simp, subset_rfl, ?_, rfl, fun p hp hq => ?_⟩
    · rw [inos_of_sessions rfl]
      simp [inos]
    · rw [inos_of_sessions rfl]
      split_ifs <;> subst_vars <;> simp_all [inos, put, z]
  have hids : table.projected.ids = x.table.projected.ids ∪ ((x.sessions i).prealloc ∪ (x.sessions i).pending) := by
    rcases projectRelease_ok.mp ht with ⟨-, -, rfl, -⟩ | ⟨hc, rfl, -⟩
    · rfl
    · rw [Finset.card_eq_zero.mp hc, Finset.union_empty]
  have hsecond : Moves (.pending i) .free (x.sessions i).pending z.inos
      (inos ({ x.put i { (x.sessions i).setState st with prealloc := ∅, pending := ∅ } with
          projected := x.projected + 1, table }.submit
        (.session i ((x.sessions i).stateSeq + 1) false (x.projected + 1)
          ((x.sessions i).prealloc ∪ (x.sessions i).pending) piv))) := by
    refine ⟨by simp, ?_, ?_, ?_, fun p hp hq => ?_⟩
    · rw [inos_of_sessions (x := x) rfl]
      simp
    · rw [inos_of_sessions (x := x) rfl, inos_of_sessions (x := x) (y := z) rfl]
      simp
    · show table.projected.ids = (x.table.projected.ids ∪ (x.sessions i).prealloc) ∪ (x.sessions i).pending
      rw [hids, Finset.union_assoc]
    · rw [inos_of_sessions (x := x) rfl, inos_of_sessions (x := x) (y := z) rfl]
      split_ifs <;> first | rfl | contradiction
  exact (hfirst.conserves h).trans (hsecond.conserves (hfirst.apart h))

theorem terminate_conserves (h : Apart x.inos) {sessions : List ℕ} (hy : x.terminateSessions sessions = .ok y) :
    Conserves x.inos y.inos := by
  refine foldlM_invariant (P := fun y => Conserves x.inos y.inos) ?_ (.refl h) hy
  intro y i z _ h hz
  rw [terminateSession, ite_ok, pure_ok] at hz
  rcases hz with ⟨-, rfl⟩ | ⟨-, hz⟩
  · exact h
  · exact h.trans (close_conserves h.apart hz)

/-! ## Completions -/

theorem applyAllocatedInos_conserves (h : Apart x.inos) {alloc used : Option ℕ} {ids : Finset ℕ}
    (hy : x.applyAllocatedInos i alloc used ids = .ok y) : Conserves x.inos y.inos := by
  simp only [applyAllocatedInos, bind_ok] at hy
  obtain ⟨z, hz, w, hw, hy⟩ := hy
  have hzi : z.inos = x.inos := by
    rcases applyAllocIno_ok.mp hz with ⟨_, table, -, ht, rfl⟩ | ⟨-, rfl⟩
    · obtain ⟨f, -, rfl⟩ := InoTable.applyAllocIds_ok.mp ht
      funext p
      cases p <;> rfl
    · rfl
  have hwc : Conserves x.inos w.inos := by
    rw [← hzi]
    rcases applyPrealloc_ok.mp hw with ⟨-, hm, -, table, ht, rfl⟩ | ⟨-, rfl⟩
    · obtain ⟨f, -, rfl⟩ := InoTable.applyAllocIds_ok.mp ht
      have hmove : Moves (.pending i) (.prealloc i) ids z.inos
          (inos { z.put i { z.sessions i with
            pending := (z.sessions i).pending \ ids, prealloc := (z.sessions i).prealloc ∪ ids } with
            version := z.version + 1, table := { z.table with applied := f } }) := by
        refine ⟨by simp, hm, ?_, ?_, fun p hp hq => ?_⟩
        · rw [inos_of_sessions rfl]
          simp [inos]
        · rw [inos_of_sessions rfl]
          simp [inos]
        · rw [inos_of_sessions rfl]
          split_ifs <;> subst_vars <;> simp_all [inos, put]
      exact hmove.conserves (hzi ▸ h)
    · exact .refl (hzi ▸ h)
  rcases applyUsed_ok.mp hy with ⟨ino, -, hm, rfl⟩ | ⟨-, rfl⟩
  · have hmove : Moves (.used i) .given {ino} w.inos
        (inos { w.put i { w.sessions i with used := (w.sessions i).used \ {ino} } with
          version := w.version + 1, given := insert ino w.given }) := by
      refine ⟨by simp, by simpa [inos] using hm, ?_, ?_, fun p hp hq => ?_⟩
      · rw [inos_of_sessions rfl]
        simp [inos]
      · show insert ino w.given = w.given ∪ {ino}
        rw [Finset.union_comm]
        rfl
      · rw [inos_of_sessions rfl]
        split_ifs <;> subst_vars <;> simp_all [inos, put]
    exact hwc.trans (hmove.conserves hwc.apart)
  · exact hwc

/-- A session that its close leaves has no numbers. -/
def Bare (x : State) : Prop := ∀ e J, x.journal = e :: J → ∀ i, e.Closes i (x.sessions i).stateSeq →
  (x.sessions i).prealloc = ∅ ∧ (x.sessions i).pending = ∅ ∧ (x.sessions i).used = ∅

theorem inos_finishForceOpen {m : ℕ → Option ℕ} {b : Bool} {c : ℕ} (hy : finishForceOpen m b x c = .ok y) :
    y.inos = x.inos := by
  obtain ⟨i, -, s, hs, t, ht, rfl⟩ := finishForceOpen_ok.mp hy
  obtain ⟨-, rfl⟩ := Session.finishImport_ok.mp ht
  rcases Session.finishOpen_ok.mp hs with ⟨q, -, rfl⟩ | ⟨-, -, rfl⟩
  · apply inos_eq rfl <;> first | rfl | (split <;> rfl)
  · exact inos_eq rfl rfl rfl rfl rfl rfl

/-- A completion keeps the places apart; it keeps all numbers, but for those of a session that is cleared. -/
theorem logged_conserves (h : Apart x.inos) (hy : x.logged = .ok y) :
    Apart y.inos ∧ (x.Bare → Conserves x.inos y.inos) := by
  unfold logged at hy
  cases hJ : x.journal with
  | nil =>
    rw [hJ, pure_ok] at hy
    subst hy
    exact ⟨h, fun _ => .refl h⟩
  | cons e J =>
    simp only [hJ, bind_ok] at hy
    obtain ⟨z, hz, hy⟩ := hy
    cases e with
    | session i q o pv ids piv =>
      simp only [applySessions, bind_ok, pure_ok] at hy
      obtain ⟨w, hw, rfl⟩ := hy
      have hzi : z.inos = x.inos ∧ z.sessions = x.sessions := by
        rcases releaseInos_ok.mp hz with ⟨-, table, ht, -, rfl⟩ | ⟨-, rfl⟩
        · obtain ⟨f, -, rfl⟩ := InoTable.applyReleaseIds_ok.mp ht
          refine ⟨?_, rfl⟩
          funext p
          cases p <;> rfl
        · refine ⟨?_, rfl⟩
          funext p
          cases p <;> rfl
      have hz' : Apart z.inos := hzi.1 ▸ h
      suffices hgoal : Apart w.inos ∧ (x.Bare → Conserves z.inos w.inos) by
        rw [hzi.1] at hgoal
        exact hgoal
      rcases enterState_ok hw with ⟨-, rfl⟩ | ⟨hq, ⟨-, -, rfl⟩ | ⟨rfl, -, rfl⟩ | ⟨-, -, rfl⟩⟩
      · exact ⟨hz', fun _ => .refl hz'⟩
      · have hsame : (z.put i ((z.sessions i).setState .opened)).inos = z.inos := inos_eq rfl rfl rfl rfl rfl rfl
        rw [hsame]
        exact ⟨hz', fun _ => .refl hz'⟩
      · refine ⟨hz'.mono fun p => ?_, fun hb => ?_⟩
        · rw [inos_of_sessions (x := z) rfl]
          split_ifs with h₁ h₂ h₃ h₄ h₅
          · exact h₁ ▸ subset_rfl
          · exact h₂ ▸ subset_rfl
          · exact Finset.empty_subset _
          · exact Finset.empty_subset _
          · exact Finset.empty_subset _
          · exact subset_rfl
        · obtain ⟨h₁, h₂, h₃⟩ := hb _ J hJ i ⟨rfl, by rw [← hq, hzi.2], rfl⟩
          rw [← hzi.2] at h₁ h₂ h₃
          have hsame : ((z.put i ((z.sessions i).setState .closed).clear).setMap (z.sessions i).client none).inos =
              z.inos := inos_eq rfl h₁.symm h₂.symm h₃.symm rfl rfl
          rw [hsame]
          exact .refl hz'
      · have hsame : (z.setMap (z.sessions i).client none).inos = z.inos := by
          funext p
          cases p <;> rfl
        rw [hsame]
        exact ⟨hz', fun _ => .refl hz'⟩
    | update i alloc used ids sv iv =>
      cases pure_ok.mp hy
      have hc := applyAllocatedInos_conserves (x := { x with journal := J }) h hz
      exact ⟨hc.apart, fun _ => hc⟩
    | imports clients m b pv =>
      cases pure_ok.mp hz
      simp only [applySessions, finishForceOpenSessions, bind_ok, pure_ok] at hy
      obtain ⟨w, hw, rfl⟩ := hy
      have hwi : w.inos = x.inos :=
        foldlM_invariant (P := fun w : State => w.inos = x.inos) (fun z c w _ h hy => (inos_finishForceOpen hy).trans h)
          (s := { x with journal := J }) rfl hw
      show Apart w.inos ∧ (x.Bare → Conserves x.inos w.inos)
      rw [hwi]
      exact ⟨h, fun _ => .refl h⟩

/-! ## The steps -/

theorem inos_forceOpenSession (ho : x.Ordered) {m m' : ℕ → Option ℕ} {c : ℕ}
    (hy : forceOpenSession (x, m) c = .ok (y, m')) : y.inos = x.inos := by
  rcases forceOpenSession_ok hy with ⟨i, -, -, rfl, -⟩ | ⟨i, -, -, rfl, -⟩ | ⟨-, rfl, -⟩
  · exact inos_eq rfl rfl rfl rfl rfl rfl
  · exact inos_eq rfl rfl rfl rfl rfl rfl
  · have hnew : ((x.newSession c false).setMap c (some x.made)).sessions x.made = { client := c } :=
      Function.update_self ..
    rw [← inos_newSession ho.registered.fresh (c := c) (b := false)]
    refine inos_eq (x := (x.newSession c false).setMap c (some x.made)) rfl ?_ ?_ ?_ rfl rfl
    all_goals rw [hnew]; rfl

theorem step_conserves {a : Action} (ho : x.Ordered) (h : Apart x.inos) (hy : x.step conf a = some y) :
    Apart y.inos ∧ (x.Bare → Conserves x.inos y.inos) := by
  unfold step at hy
  split at hy
  case isFalse => cases hy
  rw [toOption_eq_some] at hy
  suffices hgoal : Conserves x.inos y.inos ∨ a = .logged by
    rcases hgoal with hc | rfl
    · exact ⟨hc.apart, fun _ => hc⟩
    · exact logged_conserves h hy
  have hsame : y.inos = x.inos → Conserves x.inos y.inos ∨ a = .logged := fun he => .inl (by rw [he]; exact .refl h)
  cases a with
  | connect c =>
    cases pure_ok.mp hy
    exact hsame (inos_newSession ho.registered.fresh)
  | accept i =>
    cases pure_ok.mp hy
    exact hsame (inos_eq rfl rfl rfl rfl rfl rfl)
  | push i =>
    cases pure_ok.mp hy
    exact hsame (inos_eq rfl rfl rfl rfl rfl rfl)
  | requestOpen i =>
    rcases requestOpen_ok.mp hy with ⟨-, -, rfl⟩ | ⟨-, z, hz, rfl⟩
    · exact hsame rfl
    · rcases addClosed_ok.mp hz with ⟨-, -, rfl⟩ | ⟨-, rfl⟩
      · exact hsame (inos_eq (x := x) rfl rfl rfl rfl rfl rfl)
      · exact hsame (inos_eq (x := x) rfl rfl rfl rfl rfl rfl)
  | renewCaps i =>
    cases pure_ok.mp hy
    apply hsame
    unfold renewCaps
    split
    · exact inos_eq rfl rfl rfl rfl rfl rfl
    · rfl
  | requestClose i seq =>
    simp only [act, requestClose_eq, ite_ok] at hy
    rcases hy with ⟨-, hy⟩ | ⟨-, ⟨-, hy⟩ | ⟨-, hy⟩⟩
    · cases hy
      exact hsame rfl
    · exact .inl (close_conserves h hy)
    · cases hy
  | stale i =>
    cases pure_ok.mp hy
    exact hsame (inos_eq rfl rfl rfl rfl rfl rfl)
  | kill i =>
    simp only [act, killSession_eq, ite_ok] at hy
    rcases hy with ⟨-, hy⟩ | ⟨-, hy⟩
    · exact .inl (close_conserves h hy)
    · cases hy
      exact hsame rfl
  | terminate sessions => exact .inl (terminate_conserves h hy)
  | forceOpen clients b =>
    simp only [act, prepareForceOpenSessions, bind_ok, pure_ok] at hy
    obtain ⟨⟨z, m⟩, hz, rfl⟩ := hy
    apply hsame
    have hzi : z.Ordered ∧ z.inos = x.inos := by
      refine foldlM_invariant (P := fun p => p.1.Ordered ∧ p.1.inos = x.inos) ?_ ⟨⟨ho.order, ho.registered⟩, rfl⟩ hz
      rintro ⟨u, m⟩ c ⟨w, m'⟩ _ ⟨hu, he⟩ hw
      exact ⟨hu.forceOpenSession hw, (inos_forceOpenSession hu hw).trans he⟩
    exact hzi.2
  | endImport clients =>
    apply hsame
    refine foldlM_invariant (P := fun w : State => w.inos = x.inos) (fun u c w _ he hw => ?_)
      (s := { x with holding := x.holding.erase clients }) rfl hy
    obtain ⟨i, -, -, rfl⟩ := endImport_ok.mp hw
    rw [← he]
    exact inos_eq rfl rfl rfl rfl rfl rfl
  | create i ino ids => exact .inl (create_conserves h hy)
  | logged => exact .inr rfl

end CephMds.Sessions.State
