import CephMds.Proof.Sessions.Moves

/-!
# The journal leads from the applied to the projected state

`Entry.replay` is what an entry makes of the version of the session map and
of a free set of the inode table, with the versions that it was stamped
with. The entries in flight, replayed from the applied state, give the
projected one (`Replays`), so that each completion finds the table and the
versions that its entry was prepared for. Every step keeps this.
-/

namespace CephMds.Sessions

open Checked

/-- Takes the numbers, if there are any. -/
def Free.take (f : Free) (ids : Finset ℕ) : Checked Free := if ids.card ≠ 0 then f.alloc ids else return f

/-- Gives the numbers back, if the entry has a version for it. -/
def Free.giveBack (f : Free) (ids : Finset ℕ) (piv : ℕ) : Checked Free :=
  if piv ≠ 0 then do
    let f ← f.release ids
    assert (f.version = piv)
    return f
  else return f

def Entry.replay (p : ℕ × Free) : Entry → Checked (ℕ × Free)
  | .session _ _ _ pv inos piv => do
    let f ← p.2.giveBack inos piv
    assert (p.1 + 1 = pv)
    return (pv, f)
  | .update _ allocIno usedPreallocIno preallocInos sessionmapv inotablev => do
    let f ← p.2.take allocIno.toFinset
    let f ← f.take preallocInos
    assert (p.1 + (if preallocInos.card ≠ 0 then 1 else 0) + (if usedPreallocIno.isSome then 1 else 0) = sessionmapv)
    assert (f.version = inotablev)
    return (sessionmapv, f)
  | .imports _ _ _ pv => do
    assert (p.1 + 1 = pv)
    return (pv, p.2)

namespace State

variable {conf : ℕ} {x y : State} {i : ℕ}

def Replays (x : State) : Prop :=
  x.journal.foldlM Entry.replay (x.version, x.table.applied) = .ok (x.projected, x.table.projected)

/-- An entry is submitted whose replay is what has been projected for it. -/
theorem Replays.submit (h : x.Replays) {e : Entry} (hJ : y.journal = x.journal ++ [e]) (hv : y.version = x.version)
    (ha : y.table.applied = x.table.applied)
    (he : Entry.replay (x.projected, x.table.projected) e = .ok (y.projected, y.table.projected)) : y.Replays := by
  unfold Replays at h ⊢
  rw [hJ, hv, ha, List.foldlM_append, bind_ok]
  refine ⟨_, h, ?_⟩
  rw [List.foldlM_cons, he]
  rfl

theorem Replays.same (h : x.Replays) (hJ : y.journal = x.journal) (hv : y.version = x.version) (ht : y.table = x.table)
    (hp : y.projected = x.projected) : y.Replays := by
  unfold Replays at h ⊢
  rw [hJ, hv, ht, hp]
  exact h

theorem projectRelease_replay {both : Finset ℕ} {table : InoTable} {piv q : ℕ} {o : Bool}
    (h : x.projectRelease both = .ok (table, piv)) : table.applied = x.table.applied ∧
    Entry.replay (x.projected, x.table.projected) (.session i q o (x.projected + 1) both piv) =
      .ok (x.projected + 1, table.projected) := by
  simp only [Entry.replay, Free.giveBack, bind_ok, ite_ok, assert_ok, pure_ok, Free.release_ok]
  rcases projectRelease_ok.mp h with ⟨-, hd, rfl, rfl⟩ | ⟨-, rfl, rfl⟩
  · refine ⟨rfl, _, .inl ⟨Nat.succ_ne_zero _, _, ⟨hd, rfl⟩, (), ?_, rfl⟩, (), by simp, rfl⟩
    exact decide_eq_true rfl
  · exact ⟨rfl, _, .inr ⟨not_not.mpr rfl, rfl⟩, (), by simp, rfl⟩

theorem Replays.close (h : x.Replays) {st : SessionState} (hy : x.journalCloseSession i st = .ok y) : y.Replays := by
  obtain ⟨-, table, piv, ht, rfl⟩ := journalCloseSession_ok.mp hy
  obtain ⟨ha, hr⟩ := projectRelease_replay ht
  exact h.submit rfl rfl ha hr

theorem Replays.terminate (h : x.Replays) {sessions : List ℕ} (hy : x.terminateSessions sessions = .ok y) :
    y.Replays := by
  refine foldlM_invariant (P := Replays) ?_ h hy
  intro x i y _ h hy
  rw [terminateSession, ite_ok, pure_ok] at hy
  rcases hy with ⟨-, rfl⟩ | ⟨-, hy⟩
  · exact h
  · exact h.close hy

theorem Replays.requestOpen (h : x.Replays) (hy : x.requestOpen i = .ok y) : y.Replays := by
  have hopen : ∀ q, Entry.replay (x.projected, x.table.projected) (.session i q true (x.projected + 1) ∅ 0) =
      .ok (x.projected + 1, x.table.projected) := by
    intro q
    simp [Entry.replay, Free.giveBack, assert]
  rcases requestOpen_ok.mp hy with ⟨-, -, rfl⟩ | ⟨-, z, hz, rfl⟩
  · exact h
  · rcases addClosed_ok.mp hz with ⟨-, -, rfl⟩ | ⟨-, rfl⟩
    · exact h.submit rfl rfl rfl (hopen _)
    · exact h.submit rfl rfl rfl (hopen _)

/-! ## Creating an inode -/

theorem assignIno_replay {ino : ℕ} {alloc used : Option ℕ} (hy : x.assignIno i ino = .ok (y, alloc, used)) :
    y.journal = x.journal ∧ y.version = x.version ∧ y.table.applied = x.table.applied ∧
    y.projected = x.projected + (if used.isSome then 1 else 0) ∧
    x.table.projected.take alloc.toFinset = .ok y.table.projected := by
  rcases assignIno_ok.mp hy with ⟨-, s, -, rfl, rfl, rfl⟩ | ⟨-, table, ht, rfl, rfl, rfl⟩
  · exact ⟨rfl, rfl, rfl, rfl, rfl⟩
  · obtain ⟨f, hf, rfl⟩ := InoTable.projectAllocIds_ok.mp ht
    refine ⟨rfl, rfl, rfl, rfl, ?_⟩
    show x.table.projected.take {ino} = .ok f
    rw [Free.take, if_pos (by simp)]
    exact hf

theorem preallocate_replay {ids got : Finset ℕ} (hy : x.preallocate conf i ids = .ok (y, got)) :
    y.journal = x.journal ∧ y.version = x.version ∧ y.table.applied = x.table.applied ∧
    y.projected = x.projected + (if got.card ≠ 0 then 1 else 0) ∧
    x.table.projected.take got = .ok y.table.projected := by
  rcases preallocate_ok.mp hy with ⟨-, table, ht, hc, -, rfl, rfl⟩ | ⟨-, rfl, rfl⟩
  · obtain ⟨f, hf, rfl⟩ := InoTable.projectAllocIds_ok.mp ht
    refine ⟨rfl, rfl, rfl, ?_, ?_⟩
    · rw [if_pos hc]
    · rw [Free.take, if_pos hc]
      exact hf
  · exact ⟨rfl, rfl, rfl, rfl, rfl⟩

theorem Replays.create (h : x.Replays) {ino : ℕ} {ids : Finset ℕ} (hy : x.prepareNewInode conf i ino ids = .ok y) :
    y.Replays := by
  obtain ⟨z, alloc, used, hz, w, got, hw, rfl⟩ := prepareNewInode_ok.mp hy
  obtain ⟨hzJ, hzv, hza, hzp, hzt⟩ := assignIno_replay hz
  obtain ⟨hwJ, hwv, hwa, hwp, hwt⟩ := preallocate_replay hw
  refine h.submit (by rw [← hzJ, ← hwJ]; rfl) (hwv.trans hzv) (hwa.trans hza) ?_
  simp only [Entry.replay, bind_ok, pure_ok, assert_ok, decide_eq_true_eq]
  refine ⟨_, hzt, _, hwt, (), ?_, (), rfl, rfl⟩
  rw [hwp, hzp]
  omega

/-! ## Completions -/

theorem releaseInos_replay {inos : Finset ℕ} {piv : ℕ} (hy : x.releaseInos inos piv = .ok y) :
    x.table.applied.giveBack inos piv = .ok y.table.applied ∧ y.table.projected = x.table.projected ∧
    y.version = x.version ∧ y.projected = x.projected ∧ y.journal = x.journal := by
  rcases releaseInos_ok.mp hy with ⟨hp, table, ht, hv, rfl⟩ | ⟨rfl, rfl⟩
  · obtain ⟨f, hf, rfl⟩ := InoTable.applyReleaseIds_ok.mp ht
    refine ⟨?_, rfl, rfl, rfl, rfl⟩
    rw [Free.giveBack, if_pos hp, hf]
    show (assert (decide (f.version = piv)) >>= fun _ => pure f) = .ok f
    rw [decide_eq_true hv]
    rfl
  · exact ⟨rfl, rfl, rfl, rfl, rfl⟩

theorem applyAllocatedInos_replay {alloc used : Option ℕ} {ids : Finset ℕ}
    (hy : x.applyAllocatedInos i alloc used ids = .ok y) :
    (∃ f, x.table.applied.take alloc.toFinset = .ok f ∧ f.take ids = .ok y.table.applied) ∧
    y.table.projected = x.table.projected ∧
    y.version = x.version + (if ids.card ≠ 0 then 1 else 0) + (if used.isSome then 1 else 0) ∧
    y.projected = x.projected ∧ y.journal = x.journal := by
  simp only [applyAllocatedInos, bind_ok] at hy
  obtain ⟨z, hz, w, hw, hy⟩ := hy
  have hfirst : x.table.applied.take alloc.toFinset = .ok z.table.applied ∧ z.table.projected = x.table.projected ∧
      z.version = x.version ∧ z.projected = x.projected ∧ z.journal = x.journal := by
    rcases applyAllocIno_ok.mp hz with ⟨ino, table, rfl, ht, rfl⟩ | ⟨rfl, rfl⟩
    · obtain ⟨f, hf, rfl⟩ := InoTable.applyAllocIds_ok.mp ht
      refine ⟨?_, rfl, rfl, rfl, rfl⟩
      show x.table.applied.take {ino} = .ok f
      rw [Free.take, if_pos (by simp)]
      exact hf
    · exact ⟨rfl, rfl, rfl, rfl, rfl⟩
  have hsecond : z.table.applied.take ids = .ok w.table.applied ∧ w.table.projected = z.table.projected ∧
      w.version = z.version + (if ids.card ≠ 0 then 1 else 0) ∧ w.projected = z.projected ∧ w.journal = z.journal := by
    rcases applyPrealloc_ok.mp hw with ⟨hc, -, -, table, ht, rfl⟩ | ⟨hc, rfl⟩
    · obtain ⟨f, hf, rfl⟩ := InoTable.applyAllocIds_ok.mp ht
      rw [Free.take, if_pos hc, if_pos hc]
      exact ⟨hf, rfl, rfl, rfl, rfl⟩
    · rw [Free.take, if_neg (not_not.mpr hc), if_neg (not_not.mpr hc)]
      exact ⟨rfl, rfl, rfl, rfl, rfl⟩
  have hthird : y.table = w.table ∧ y.version = w.version + (if used.isSome then 1 else 0) ∧
      y.projected = w.projected ∧ y.journal = w.journal := by
    rcases applyUsed_ok.mp hy with ⟨ino, rfl, -, rfl⟩ | ⟨rfl, rfl⟩
    · exact ⟨rfl, rfl, rfl, rfl⟩
    · exact ⟨rfl, rfl, rfl, rfl⟩
  obtain ⟨h₁, h₂, h₃, h₄, h₅⟩ := hfirst
  obtain ⟨k₁, k₂, k₃, k₄, k₅⟩ := hsecond
  obtain ⟨l₁, l₂, l₃, l₄⟩ := hthird
  rw [l₁]
  refine ⟨⟨_, h₁, k₁⟩, k₂.trans h₂, ?_, l₃.trans (k₄.trans h₄), l₄.trans (k₅.trans h₅)⟩
  rw [l₂, k₃, h₃]

/-- What of a state the replay of the journal is about, after some completion. -/
structure Fixed (x y : State) : Prop where
  applied : y.table.applied = x.table.applied
  projectedTable : y.table.projected = x.table.projected
  version : y.version = x.version
  projected : y.projected = x.projected
  journal : y.journal = x.journal

theorem finishForceOpen_fixed {m : ℕ → Option ℕ} {b : Bool} {c : ℕ} (hy : finishForceOpen m b x c = .ok y) :
    Fixed x y := by
  obtain ⟨i, -, s, -, t, -, rfl⟩ := finishForceOpen_ok.mp hy
  exact ⟨rfl, rfl, rfl, rfl, rfl⟩

theorem enterState_fixed {q : ℕ} {o : Bool} (hy : x.enterState i q o = .ok y) : Fixed x y := by
  rcases enterState_ok hy with ⟨-, rfl⟩ | ⟨-, ⟨-, -, rfl⟩ | ⟨-, -, rfl⟩ | ⟨-, -, rfl⟩⟩ <;> exact ⟨rfl, rfl, rfl, rfl, rfl⟩

theorem Fixed.trans {z : State} (h : Fixed x y) (h' : Fixed y z) : Fixed x z :=
  ⟨h'.applied.trans h.applied, h'.projectedTable.trans h.projectedTable, h'.version.trans h.version,
    h'.projected.trans h.projected, h'.journal.trans h.journal⟩

/-- A completion does to the versions and the table what the replay of its entry does. -/
theorem Replays.logged (h : x.Replays) (hy : x.logged = .ok y) : y.Replays := by
  unfold State.logged at hy
  cases hJ : x.journal with
  | nil =>
    rw [hJ, pure_ok] at hy
    exact hy ▸ h
  | cons e J =>
    unfold Replays at h
    rw [hJ, List.foldlM_cons, bind_ok] at h
    obtain ⟨p, hp, hrest⟩ := h
    suffices hgoal : (y.version, y.table.applied) = p ∧ y.table.projected = x.table.projected ∧
        y.projected = x.projected ∧ y.journal = J by
      obtain ⟨h₁, h₂, h₃, h₄⟩ := hgoal
      unfold Replays
      rw [h₁, h₂, h₃, h₄]
      exact hrest
    simp only [hJ, bind_ok] at hy
    obtain ⟨z, hz, hy⟩ := hy
    cases e with
    | session i q o pv inos piv =>
      simp only [applySessions, bind_ok, pure_ok] at hy
      obtain ⟨w, hw, rfl⟩ := hy
      obtain ⟨hz₁, hz₂, hz₃, hz₄, hz₅⟩ := releaseInos_replay hz
      have hwf := enterState_fixed hw
      simp only [Entry.replay, bind_ok, assert_ok, pure_ok, decide_eq_true_eq, exists_const] at hp
      obtain ⟨f, hf, hpv, rfl⟩ := hp
      have hfz : f = z.table.applied := by
        rw [show x.table.applied.giveBack inos piv = .ok z.table.applied from hz₁] at hf
        exact (Except.ok.inj hf).symm
      refine ⟨?_, hwf.projectedTable.trans hz₂, hwf.projected.trans hz₄, hwf.journal.trans hz₅⟩
      rw [hfz, ← hpv]
      show (w.version + 1, w.table.applied) = (x.version + 1, z.table.applied)
      rw [hwf.version, hwf.applied, hz₃]
    | update i alloc used ids sv iv =>
      cases pure_ok.mp hy
      obtain ⟨⟨f, hf, hf'⟩, hz₂, hz₃, hz₄, hz₅⟩ := applyAllocatedInos_replay hz
      refine ⟨?_, hz₂, hz₄, hz₅⟩
      simp only [Entry.replay, bind_ok, assert_ok, pure_ok, decide_eq_true_eq, exists_const] at hp
      obtain ⟨g, hg, g', hg', hsv, -, rfl⟩ := hp
      have hfg : f = g := by
        rw [show x.table.applied.take alloc.toFinset = .ok f from hf] at hg
        exact Except.ok.inj hg
      subst hfg
      have hfg' : y.table.applied = g' := by
        rw [hf'] at hg'
        exact Except.ok.inj hg'
      rw [hfg', ← hsv, hz₃]
    | imports clients m b pv =>
      cases pure_ok.mp hz
      simp only [applySessions, finishForceOpenSessions, bind_ok, pure_ok] at hy
      obtain ⟨w, hw, rfl⟩ := hy
      have hwf : Fixed { x with journal := J } w :=
        foldlM_invariant (P := Fixed { x with journal := J })
          (fun z c w _ hf hw => hf.trans (finishForceOpen_fixed hw)) ⟨rfl, rfl, rfl, rfl, rfl⟩ hw
      simp only [Entry.replay, bind_ok, assert_ok, pure_ok, decide_eq_true_eq, exists_const] at hp
      obtain ⟨hpv, rfl⟩ := hp
      refine ⟨?_, hwf.projectedTable, hwf.projected, hwf.journal⟩
      rw [← hpv]
      show (w.version + 1, w.table.applied) = (x.version + 1, x.table.applied)
      rw [hwf.version, hwf.applied]

/-! ## The steps -/

theorem forceOpenSession_fixed {m m' : ℕ → Option ℕ} {c : ℕ} (hy : forceOpenSession (x, m) c = .ok (y, m')) :
    Fixed x y := by
  rcases forceOpenSession_ok hy with ⟨i, -, -, rfl, -⟩ | ⟨i, -, -, rfl, -⟩ | ⟨-, rfl, -⟩ <;> exact ⟨rfl, rfl, rfl, rfl, rfl⟩

theorem Replays.forceOpen (h : x.Replays) {clients : List ℕ} {b : Bool}
    (hy : x.prepareForceOpenSessions clients b = .ok y) : y.Replays := by
  simp only [prepareForceOpenSessions, bind_ok, pure_ok] at hy
  obtain ⟨⟨z, m⟩, hz, rfl⟩ := hy
  have hzf : Fixed { x with projected := x.projected + 1 } z := by
    refine foldlM_invariant (P := fun p => Fixed { x with projected := x.projected + 1 } p.1) ?_ ⟨rfl, rfl, rfl, rfl, rfl⟩ hz
    rintro ⟨u, m⟩ c ⟨w, m'⟩ _ hu hw
    exact hu.trans (forceOpenSession_fixed hw)
  refine h.submit (e := .imports clients m b (x.projected + 1)) ?_ hzf.version hzf.applied ?_
  · show z.journal ++ _ = _
    rw [hzf.journal]
  · show Entry.replay (x.projected, x.table.projected) _ = .ok (z.projected, z.table.projected)
    rw [hzf.projected, hzf.projectedTable]
    simp [Entry.replay, assert]

theorem step_replays {a : Action} (h : x.Replays) (hy : x.step conf a = some y) : y.Replays := by
  unfold step at hy
  split at hy
  case isFalse => cases hy
  rw [toOption_eq_some] at hy
  cases a with
  | connect c =>
    cases pure_ok.mp hy
    exact h
  | accept i =>
    cases pure_ok.mp hy
    exact h
  | push i =>
    cases pure_ok.mp hy
    exact h
  | requestOpen i => exact h.requestOpen hy
  | renewCaps i =>
    cases pure_ok.mp hy
    unfold renewCaps
    split <;> exact h
  | requestClose i seq =>
    simp only [act, requestClose_eq, ite_ok] at hy
    rcases hy with ⟨-, hy⟩ | ⟨-, ⟨-, hy⟩ | ⟨-, hy⟩⟩
    · cases hy
      exact h
    · exact h.close hy
    · cases hy
  | stale i =>
    cases pure_ok.mp hy
    exact h
  | kill i =>
    simp only [act, killSession_eq, ite_ok] at hy
    rcases hy with ⟨-, hy⟩ | ⟨-, hy⟩
    · exact h.close hy
    · cases hy
      exact h
  | terminate sessions => exact h.terminate hy
  | forceOpen clients b => exact h.forceOpen hy
  | endImport clients =>
    refine foldlM_invariant (P := Replays) (fun u c w _ hu hw => ?_) (s := { x with holding := x.holding.erase clients }) h hy
    obtain ⟨i, -, -, rfl⟩ := endImport_ok.mp hw
    exact hu
  | create i ino ids => exact h.create hy
  | logged => exact h.logged hy

theorem Idle.replays (h : x.Idle) : x.Replays := by
  unfold Replays
  rw [h.journal, h.version, h.table]
  rfl

end State

end CephMds.Sessions
