import CephMds.Proof.Sessions.Replay

/-!
# Inode numbers are conserved while no close finds a number pending

The numbers that are pending for a session, or used by it, are those of its
updates in flight (`Accounts`), as long as a session is only closed when it has
none pending (`Calm`): `journal_close_session` clears `pending_prealloc_inos`, and
the updates in flight still take their numbers out of it. In such runs each number is
at exactly one place, and no operation on the sets or on the table fails
(`numbers_conserved`); with a close in between one does (`not_conserved`).
-/

namespace CephMds.Sessions

open Checked

/-- The numbers that an update in flight has pending for session `i`. -/
def Entry.pendingOf (i : ℕ) : Entry → Multiset ℕ
  | .update j _ _ preallocInos _ _ => if j = i then preallocInos.val else 0
  | _ => 0

/-- The number of session `i` that an update in flight uses. -/
def Entry.usedOf (i : ℕ) : Entry → Multiset ℕ
  | .update j _ usedPreallocIno _ _ _ => if j = i then usedPreallocIno.toFinset.val else 0
  | _ => 0

theorem Entry.usedOf_eq_zero {i : ℕ} {e : Entry} (h : ¬ e.Updates i) : e.usedOf i = 0 := by
  cases e with
  | update j => exact if_neg h
  | session => rfl
  | imports => rfl

structure Accounts (S : ℕ → Session) (J : List Entry) : Prop where
  pending : ∀ i, (S i).pending.val = (J.map (Entry.pendingOf i)).sum
  used : ∀ i, (S i).used.val = (J.map (Entry.usedOf i)).sum
  closing : ∀ i, (S i).state = .closing ∨ (S i).state = .killing → (S i).prealloc = ∅ ∧ (S i).pending = ∅

namespace Accounts

variable {S T : ℕ → Session} {J : List Entry} {i : ℕ} {s : Session} {e : Entry}

/-- A session changes otherwise than by its pending and used numbers. -/
theorem put (h : Accounts S J) (hp : s.pending = (S i).pending) (hu : s.used = (S i).used)
    (hc : s.state = .closing ∨ s.state = .killing → s.prealloc = ∅ ∧ s.pending = ∅) :
    Accounts (Function.update S i s) J := by
  refine ⟨fun j => ?_, fun j => ?_, fun j => ?_⟩ <;> by_cases hj : j = i
  · subst hj
    rw [Function.update_self, hp]
    exact h.pending j
  · rw [Function.update_of_ne hj]
    exact h.pending j
  · subst hj
    rw [Function.update_self, hu]
    exact h.used j
  · rw [Function.update_of_ne hj]
    exact h.used j
  · subst hj
    rw [Function.update_self]
    exact hc
  · rw [Function.update_of_ne hj]
    exact h.closing j

/-- An entry is submitted with the numbers that have become pending and used. -/
theorem submit (h : Accounts S J) (hp : ∀ j, (T j).pending.val = (S j).pending.val + e.pendingOf j)
    (hu : ∀ j, (T j).used.val = (S j).used.val + e.usedOf j)
    (hc : ∀ j, (T j).state = .closing ∨ (T j).state = .killing → (T j).prealloc = ∅ ∧ (T j).pending = ∅) :
    Accounts T (J ++ [e]) := by
  refine ⟨fun j => ?_, fun j => ?_, hc⟩
  · rw [hp, h.pending, List.map_append, List.sum_append]
    simp
  · rw [hu, h.used, List.map_append, List.sum_append]
    simp

/-- The head of the journal completes, and its numbers are neither pending nor used any more. -/
theorem tail (h : Accounts S (e :: J)) (hp : ∀ j, (S j).pending.val = e.pendingOf j + (T j).pending.val)
    (hu : ∀ j, (S j).used.val = e.usedOf j + (T j).used.val)
    (hc : ∀ j, (T j).state = .closing ∨ (T j).state = .killing → (T j).prealloc = ∅ ∧ (T j).pending = ∅) :
    Accounts T J := by
  refine ⟨fun j => ?_, fun j => ?_, hc⟩
  · have hj := h.pending j
    rw [hp, List.map_cons, List.sum_cons] at hj
    exact add_left_cancel hj
  · have hj := h.used j
    rw [hu, List.map_cons, List.sum_cons] at hj
    exact add_left_cancel hj

theorem subset_pending (h : Accounts S (e :: J)) : e.pendingOf i ≤ (S i).pending.val := by
  rw [h.pending, List.map_cons, List.sum_cons]
  exact Multiset.le_add_right _ _

theorem subset_used (h : Accounts S (e :: J)) : e.usedOf i ≤ (S i).used.val := by
  rw [h.used, List.map_cons, List.sum_cons]
  exact Multiset.le_add_right _ _

end Accounts

theorem val_union {a b : Finset ℕ} (h : Disjoint a b) : (a ∪ b).val = a.val + b.val := by
  rw [← Finset.disjUnion_eq_union a b h]
  rfl

theorem val_sdiff {a b : Finset ℕ} (h : b ⊆ a) : a.val = b.val + (a \ b).val := by
  rw [Finset.sdiff_val, add_tsub_cancel_of_le (Finset.val_le_iff.mpr h)]

namespace State

variable {conf : ℕ} {x y : State} {i : ℕ}

/-- A session is closed only when it has no number pending. -/
def Calm (x : State) : Action → Prop
  | .requestClose i seq => (x.sessions i).shut = false → (x.sessions i).importing = 0 →
    seq = (x.sessions i).pushSeq → (x.sessions i).pending = ∅
  | .kill i => (x.sessions i).shut = false → (x.sessions i).importing = 0 → (x.sessions i).pending = ∅
  | .terminate sessions => ∀ i ∈ sessions, (x.sessions i).shut = false → (x.sessions i).pending = ∅
  | _ => True

instance (x : State) : DecidablePred x.Calm
  | .requestClose .. => inferInstanceAs (Decidable (_ → _))
  | .kill _ => inferInstanceAs (Decidable (_ → _))
  | .terminate _ => inferInstanceAs (Decidable (∀ i ∈ _, _))
  | .connect _ | .accept _ | .push _ | .requestOpen _ | .renewCaps _ | .stale _ | .forceOpen .. | .endImport _
  | .create .. | .logged => .isTrue trivial

theorem accounts_close (h : Accounts x.sessions x.journal) (hp : (x.sessions i).pending = ∅) {st : SessionState}
    (hy : x.journalCloseSession i st = .ok y) : Accounts y.sessions y.journal := by
  obtain ⟨-, table, piv, -, rfl⟩ := journalCloseSession_ok.mp hy
  have hput := h.put (i := i) (s := { (x.sessions i).setState st with prealloc := ∅, pending := ∅ }) hp.symm rfl
    fun _ => ⟨rfl, rfl⟩
  exact hput.submit (fun j => (add_zero _).symm) (fun j => (add_zero _).symm) hput.closing

theorem accounts_terminate (h : Accounts x.sessions x.journal) {sessions : List ℕ}
    (hp : ∀ i ∈ sessions, (x.sessions i).shut = false → (x.sessions i).pending = ∅)
    (hy : x.terminateSessions sessions = .ok y) : Accounts y.sessions y.journal := by
  have hboth : Accounts y.sessions y.journal ∧
      ∀ i ∈ sessions, (y.sessions i).shut = false → (y.sessions i).pending = ∅ := by
    refine foldlM_invariant (P := fun x : State => Accounts x.sessions x.journal ∧
      ∀ i ∈ sessions, (x.sessions i).shut = false → (x.sessions i).pending = ∅) ?_ ⟨h, hp⟩ hy
    intro x i y hi ⟨h, hp⟩ hy
    rw [terminateSession, ite_ok, pure_ok] at hy
    rcases hy with ⟨-, rfl⟩ | ⟨hs, hy⟩
    · exact ⟨h, hp⟩
    · refine ⟨accounts_close h (hp i hi (by simpa using hs)) hy, fun j hj hsj => ?_⟩
      obtain ⟨-, table, piv, -, rfl⟩ := journalCloseSession_ok.mp hy
      by_cases hji : j = i
      · subst hji
        show (Function.update x.sessions j _ j).pending = ∅
        rw [Function.update_self]
      · have hS : ∀ s, Function.update x.sessions i s j = x.sessions j := fun s => Function.update_of_ne hji ..
        show (Function.update x.sessions i _ j).pending = ∅
        rw [hS]
        refine hp j hj ?_
        rw [← hS]
        exact hsj
  exact hboth.1

theorem accounts_requestOpen (h : Accounts x.sessions x.journal) (hy : x.requestOpen i = .ok y) :
    Accounts y.sessions y.journal := by
  have hput := h.put (i := i) (s := (x.sessions i).setState .opening) rfl rfl fun hc => by rcases hc with hc | hc <;> cases hc
  rcases requestOpen_ok.mp hy with ⟨-, -, rfl⟩ | ⟨-, z, hz, rfl⟩
  · exact h
  · rcases addClosed_ok.mp hz with ⟨-, -, rfl⟩ | ⟨-, rfl⟩ <;>
      exact hput.submit (fun j => (add_zero _).symm) (fun j => (add_zero _).symm) hput.closing

theorem accounts_newSession (h : Accounts x.sessions x.journal) (ho : x.Ordered) {c : ℕ} {b : Bool} :
    Accounts (x.newSession c b).sessions (x.newSession c b).journal := by
  have hd := ho.registered.fresh x.made le_rfl
  exact h.put (by rw [hd]) (by rw [hd]) fun hc => by rcases hc with hc | hc <;> cases hc

theorem accounts_forceOpenSession (h : Accounts x.sessions x.journal) (ho : x.Ordered) {m m' : ℕ → Option ℕ} {c : ℕ}
    (hy : forceOpenSession (x, m) c = .ok (y, m')) : Accounts y.sessions y.journal := by
  rcases forceOpenSession_ok hy with ⟨i, -, -, rfl, -⟩ | ⟨i, -, hs, rfl, -⟩ | ⟨-, rfl, -⟩
  · exact h.put rfl rfl fun hc => by rcases hc with hc | hc <;> cases hc
  · refine h.put rfl rfl fun hc => ?_
    rcases hc with hc | hc <;> simp [Session.shut, show (x.sessions i).state = _ from hc] at hs
  · have hn := accounts_newSession h ho (c := c) (b := false)
    have hnew : (x.newSession c false).sessions x.made = { client := c } := Function.update_self ..
    exact hn.put (i := x.made) (by rw [hnew]; rfl) (by rw [hnew]; rfl) fun hc => by rcases hc with hc | hc <;> cases hc

theorem accounts_forceOpen (h : Accounts x.sessions x.journal) (ho : x.Ordered) {clients : List ℕ} {b : Bool}
    (hy : x.prepareForceOpenSessions clients b = .ok y) : Accounts y.sessions y.journal := by
  simp only [prepareForceOpenSessions, bind_ok, pure_ok] at hy
  obtain ⟨⟨z, m⟩, hz, rfl⟩ := hy
  have hzi : Accounts z.sessions z.journal ∧ z.Ordered := by
    refine foldlM_invariant (P := fun p => Accounts p.1.sessions p.1.journal ∧ p.1.Ordered) ?_
      ⟨h, ⟨ho.order, ho.registered⟩⟩ hz
    rintro ⟨u, m⟩ c ⟨w, m'⟩ _ ⟨hu, hou⟩ hw
    exact ⟨accounts_forceOpenSession hu hou hw, hou.forceOpenSession hw⟩
  exact hzi.1.submit (fun j => (add_zero _).symm) (fun j => (add_zero _).symm) hzi.1.closing

theorem accounts_finishForceOpen (h : Accounts x.sessions x.journal) {m : ℕ → Option ℕ} {b : Bool} {c : ℕ}
    (hy : finishForceOpen m b x c = .ok y) : Accounts y.sessions y.journal := by
  obtain ⟨i, -, s, hs, t, ht, rfl⟩ := finishForceOpen_ok.mp hy
  obtain ⟨-, rfl⟩ := Session.finishImport_ok.mp ht
  rcases Session.finishOpen_ok.mp hs with ⟨q, -, rfl⟩ | ⟨-, -, rfl⟩
  · by_cases hq : (x.sessions i).stateSeq = q
    · rw [if_neg (not_not.mpr hq)]
      exact h.put rfl rfl fun hc => by rcases hc with hc | hc <;> cases hc
    · rw [if_pos hq]
      exact h.put rfl rfl (h.closing i)
  · exact h.put rfl rfl (h.closing i)

/-! ## Creating an inode -/

theorem assignIno_accounts {ino : ℕ} {alloc used : Option ℕ} (hy : x.assignIno i ino = .ok (y, alloc, used)) (j : ℕ) :
    (y.sessions j).state = (x.sessions j).state ∧ (y.sessions j).pending = (x.sessions j).pending ∧
    (y.sessions j).used.val = (x.sessions j).used.val + if i = j then used.toFinset.val else 0 := by
  rcases assignIno_ok.mp hy with ⟨-, s, hs, rfl, -, rfl⟩ | ⟨-, table, -, rfl, -, rfl⟩
  · obtain ⟨-, hd, rfl⟩ := Session.takeIno_ok.mp hs
    by_cases hj : j = i
    · subst hj
      simp only [put, Function.update_self, if_true, val_union hd]
      exact ⟨trivial, trivial, rfl⟩
    · simp only [put, Function.update_of_ne hj, if_neg (Ne.symm hj), add_zero]
      exact ⟨trivial, trivial, trivial⟩
  · refine ⟨rfl, rfl, ?_⟩
    split <;> exact (add_zero _).symm

theorem preallocate_accounts {ids got : Finset ℕ} (hy : x.preallocate conf i ids = .ok (y, got)) (j : ℕ) :
    (y.sessions j).state = (x.sessions j).state ∧ (y.sessions j).used = (x.sessions j).used ∧
    (y.sessions j).pending.val = (x.sessions j).pending.val + if i = j then got.val else 0 := by
  rcases preallocate_ok.mp hy with ⟨-, table, -, -, hd, rfl, rfl⟩ | ⟨-, rfl, rfl⟩
  · by_cases hj : j = i
    · subst hj
      simp only [put, Function.update_self, if_true, val_union hd]
      exact ⟨trivial, trivial, trivial⟩
    · simp only [put, Function.update_of_ne hj, if_neg (Ne.symm hj), add_zero]
      exact ⟨trivial, trivial, trivial⟩
  · refine ⟨rfl, rfl, ?_⟩
    split <;> exact (add_zero _).symm

theorem accounts_create (h : Accounts x.sessions x.journal) (hs : (x.sessions i).shut = false) {ino : ℕ}
    {ids : Finset ℕ} (hy : x.prepareNewInode conf i ino ids = .ok y) : Accounts y.sessions y.journal := by
  obtain ⟨z, alloc, used, hz, w, got, hw, rfl⟩ := prepareNewInode_ok.mp hy
  have hzj := assignIno_accounts hz
  have hwj := preallocate_accounts hw
  have hJ : w.journal = x.journal := (preallocate_replay hw).1.trans (assignIno_replay hz).1
  show Accounts w.sessions (w.journal ++ _)
  rw [hJ]
  refine h.submit (fun j => ?_) (fun j => ?_) fun j hc => ?_
  · rw [(hwj j).2.2, (hzj j).2.1]
    rfl
  · rw [(hwj j).2.1, (hzj j).2.2]
    rfl
  · rw [(hwj j).1, (hzj j).1] at hc
    have hj : j ≠ i := by
      rintro rfl
      rcases hc with hc | hc <;> simp [Session.shut, hc] at hs
    have hcl := h.closing j hc
    refine ⟨?_, ?_⟩
    · have hpre : (w.sessions j).prealloc = (x.sessions j).prealloc := by
        have h₁ : (z.sessions j).prealloc = (x.sessions j).prealloc := by
          rcases assignIno_ok.mp hz with ⟨-, s, -, rfl, -⟩ | ⟨-, table, -, rfl, -⟩
          · simp only [put, Function.update_of_ne hj]
          · rfl
        rw [← h₁]
        rcases preallocate_ok.mp hw with ⟨-, table, -, -, -, rfl, -⟩ | ⟨-, rfl, -⟩
        · simp only [put, Function.update_of_ne hj]
        · rfl
      rw [hpre]
      exact hcl.1
    · have hv := (hwj j).2.2
      rw [if_neg (Ne.symm hj), add_zero, (hzj j).2.1, hcl.2] at hv
      exact Finset.val_inj.mp hv

/-! ## Completions -/

theorem applyAllocIno_sessions {o : Option ℕ} (hy : x.applyAllocIno o = .ok y) : y.sessions = x.sessions := by
  rcases applyAllocIno_ok.mp hy with ⟨_, _, -, -, rfl⟩ | ⟨-, rfl⟩ <;> rfl

/-- The numbers of an update that completes leave the pending and the used ones. -/
theorem accounts_update {J : List Entry} {alloc used : Option ℕ} {ids : Finset ℕ} {sv iv : ℕ}
    (h : Accounts x.sessions (.update i alloc used ids sv iv :: J)) (hy : x.applyAllocatedInos i alloc used ids = .ok y) :
    Accounts y.sessions J := by
  simp only [applyAllocatedInos, bind_ok] at hy
  obtain ⟨z, hz, w, hw, hy⟩ := hy
  rw [← applyAllocIno_sessions hz] at h
  have hwj : ∀ j, (w.sessions j).state = (z.sessions j).state ∧ (w.sessions j).used = (z.sessions j).used ∧
      (z.sessions j).pending.val = (if i = j then ids.val else 0) + (w.sessions j).pending.val ∧
      (i ≠ j ∨ ids = ∅ → (w.sessions j).prealloc = (z.sessions j).prealloc) := by
    intro j
    rcases applyPrealloc_ok.mp hw with ⟨hc, hm, -, table, -, rfl⟩ | ⟨hc, rfl⟩
    · by_cases hj : j = i
      · subst hj
        simp only [put, Function.update_self, if_true]
        refine ⟨trivial, trivial, val_sdiff hm, fun hor => ?_⟩
        rcases hor with hne | rfl
        · exact absurd rfl hne
        · exact absurd rfl hc
      · simp only [put, Function.update_of_ne hj, if_neg (Ne.symm hj), zero_add]
        exact ⟨trivial, trivial, trivial, fun _ => trivial⟩
    · rw [Finset.card_eq_zero.mp hc]
      refine ⟨rfl, rfl, ?_, fun _ => rfl⟩
      split <;> exact (zero_add _).symm
  have hyj : ∀ j, (y.sessions j).state = (w.sessions j).state ∧ (y.sessions j).pending = (w.sessions j).pending ∧
      (w.sessions j).used.val = (if i = j then used.toFinset.val else 0) + (y.sessions j).used.val ∧
      (y.sessions j).prealloc = (w.sessions j).prealloc := by
    intro j
    rcases applyUsed_ok.mp hy with ⟨ino, rfl, hm, rfl⟩ | ⟨rfl, rfl⟩
    · by_cases hj : j = i
      · subst hj
        simp only [put, Function.update_self, if_true]
        exact ⟨trivial, trivial, val_sdiff (Finset.singleton_subset_iff.mpr hm), trivial⟩
      · simp only [put, Function.update_of_ne hj, if_neg (Ne.symm hj), zero_add]
        exact ⟨trivial, trivial, trivial, trivial⟩
    · refine ⟨rfl, rfl, ?_, rfl⟩
      split <;> exact (zero_add _).symm
  refine h.tail (fun j => ?_) (fun j => ?_) fun j hc => ?_
  · rw [(hyj j).2.1]
    exact (hwj j).2.2.1
  · rw [← (hwj j).2.1]
    exact (hyj j).2.2.1
  · rw [(hyj j).1, (hwj j).1] at hc
    obtain ⟨hpre, hpend⟩ := h.closing j hc
    have hv := (hwj j).2.2.1
    rw [hpend] at hv
    have hzero := add_eq_zero.mp hv.symm
    rw [(hyj j).2.1, (hyj j).2.2.2]
    refine ⟨?_, Finset.val_eq_zero.mp hzero.2⟩
    rw [(hwj j).2.2.2 ?_, hpre]
    by_cases hij : i = j
    · rw [if_pos hij] at hzero
      exact .inr (Finset.val_eq_zero.mp hzero.1)
    · exact .inl hij

theorem accounts_bare (h : Accounts x.sessions x.journal) (ho : x.Ordered) : x.Bare := by
  intro e J hJ i hc
  obtain ⟨hpre, hpend⟩ := h.closing i ((ho.order.of_closes (hJ ▸ List.mem_cons_self) hc).2 rfl)
  refine ⟨hpre, hpend, ?_⟩
  have hu := h.used i
  have hz : ∀ e' ∈ x.journal, e'.usedOf i = 0 := by
    intro e' he'
    rw [hJ, List.mem_cons] at he'
    rcases he' with rfl | he'
    · apply Entry.usedOf_eq_zero
      intro hup
      unfold Entry.Closes at hc
      split at hc
      · exact hup
      · exact hc
    · exact Entry.usedOf_eq_zero ((ho.closes hJ hc).2 e' he').1
  rw [List.sum_eq_zero] at hu
  · exact Finset.val_eq_zero.mp hu
  · intro m hm
    obtain ⟨e', he', rfl⟩ := List.mem_map.mp hm
    exact hz e' he'

theorem accounts_logged (h : Accounts x.sessions x.journal) (ho : x.Ordered) (hy : x.logged = .ok y) :
    Accounts y.sessions y.journal := by
  have hb := accounts_bare h ho
  unfold logged at hy
  cases hJ : x.journal with
  | nil =>
    rw [hJ, pure_ok] at hy
    exact hy ▸ h
  | cons e J =>
    have h' := hJ ▸ h
    simp only [hJ, bind_ok] at hy
    obtain ⟨z, hz, hy⟩ := hy
    cases e with
    | session i q o pv inos piv =>
      have htail : Accounts x.sessions J := h'.tail (fun j => (zero_add _).symm) (fun j => (zero_add _).symm) h.closing
      simp only [applySessions, bind_ok, pure_ok] at hy
      obtain ⟨w, hw, rfl⟩ := hy
      have hzs : z.sessions = x.sessions ∧ z.journal = J := by
        rcases releaseInos_ok.mp hz with ⟨-, table, -, -, rfl⟩ | ⟨-, rfl⟩ <;> exact ⟨rfl, rfl⟩
      have hwJ : w.journal = J := (enterState_fixed hw).journal.trans hzs.2
      have hwa : Accounts w.sessions J := by
        rcases enterState_ok hw with ⟨-, rfl⟩ | ⟨hq, ⟨-, -, rfl⟩ | ⟨rfl, hs, rfl⟩ | ⟨-, -, rfl⟩⟩
        · exact hzs.1 ▸ htail
        · refine (hzs.1 ▸ htail : Accounts z.sessions J).put rfl rfl fun hc => by rcases hc with hc | hc <;> cases hc
        · obtain ⟨-, h₂, h₃⟩ := hb _ J hJ i ⟨rfl, by rw [← hq, hzs.1], rfl⟩
          rw [← hzs.1] at h₂ h₃
          exact (hzs.1 ▸ htail : Accounts z.sessions J).put h₂.symm h₃.symm fun hc => by rcases hc with hc | hc <;> cases hc
        · exact hzs.1 ▸ htail
      show Accounts w.sessions w.journal
      exact hwJ ▸ hwa
    | update i alloc used ids sv iv =>
      cases pure_ok.mp hy
      have hya := accounts_update (x := { x with journal := J }) h' hz
      rw [(applyAllocatedInos_replay hz).2.2.2.2]
      exact hya
    | imports clients m b pv =>
      cases pure_ok.mp hz
      have htail : Accounts x.sessions J := h'.tail (fun j => (zero_add _).symm) (fun j => (zero_add _).symm) h.closing
      simp only [applySessions, finishForceOpenSessions, bind_ok, pure_ok] at hy
      obtain ⟨w, hw, rfl⟩ := hy
      have hwa : Accounts w.sessions w.journal :=
        foldlM_invariant (P := fun w : State => Accounts w.sessions w.journal)
          (fun u c w _ hu hw => accounts_finishForceOpen hu hw) (s := { x with journal := J }) htail hw
      exact hwa

theorem step_accounts {a : Action} (h : Accounts x.sessions x.journal) (ho : x.Ordered) (hcalm : x.Calm a)
    (hy : x.step conf a = some y) : Accounts y.sessions y.journal := by
  unfold step at hy
  split at hy
  case isFalse => cases hy
  rename_i hen
  rw [toOption_eq_some] at hy
  cases a with
  | connect c =>
    cases pure_ok.mp hy
    exact accounts_newSession h ho
  | accept i =>
    cases pure_ok.mp hy
    exact h.put rfl rfl (h.closing i)
  | push i =>
    cases pure_ok.mp hy
    exact h.put rfl rfl (h.closing i)
  | requestOpen i => exact accounts_requestOpen h hy
  | renewCaps i =>
    cases pure_ok.mp hy
    unfold renewCaps
    split
    · exact h.put rfl rfl fun hc => by rcases hc with hc | hc <;> cases hc
    · exact h
  | requestClose i seq =>
    simp only [act, requestClose_eq, ite_ok, not_or, not_not] at hy
    rcases hy with ⟨-, hy⟩ | ⟨⟨hs, hi, -⟩, ⟨hseq, hy⟩ | ⟨-, hy⟩⟩
    · cases hy
      exact h
    · exact accounts_close h (hcalm (by simpa using hs) hi hseq) hy
    · cases hy
  | stale i =>
    cases pure_ok.mp hy
    exact h.put rfl rfl fun hc => by rcases hc with hc | hc <;> cases hc
  | kill i =>
    simp only [act, killSession_eq, ite_ok] at hy
    rcases hy with ⟨⟨hs, hi⟩, hy⟩ | ⟨-, hy⟩
    · exact accounts_close h (hcalm hs hi) hy
    · cases hy
      exact h
  | terminate sessions => exact accounts_terminate h hcalm hy
  | forceOpen clients b => exact accounts_forceOpen h ho hy
  | endImport clients =>
    refine foldlM_invariant (P := fun w : State => Accounts w.sessions w.journal) (fun u c w _ hu hw => ?_)
      (s := { x with holding := x.holding.erase clients }) h hy
    obtain ⟨i, -, -, rfl⟩ := endImport_ok.mp hw
    exact hu.put rfl rfl (hu.closing i)
  | create i ino ids => exact accounts_create h hen.2.1 hy
  | logged => exact accounts_logged h ho hy

theorem Idle.accounts (h : x.Idle) : Accounts x.sessions x.journal := by
  rw [h.journal]
  refine ⟨fun i => ?_, fun i => ?_, fun i hc => ?_⟩
  · rw [h.pending i]
    rfl
  · rw [h.used i]
    rfl
  · by_cases hM : x.Mapped i
    · rcases h.opened i hM with ho | ho <;> rcases hc with hc | hc <;> rw [ho] at hc <;> cases hc
    · rw [h.closed i hM] at hc
      rcases hc with hc | hc <;> cases hc

/-! ## The operations on the numbers return -/

theorem close_returns (h : Apart x.inos) (st : SessionState) : ∃ y, x.journalCloseSession i st = .ok y := by
  have hd : Disjoint (x.sessions i).prealloc (x.sessions i).pending :=
    h.disjoint (a := Place.prealloc i) (b := Place.pending i) (by simp)
  have hfree : Disjoint x.table.projected.ids ((x.sessions i).prealloc ∪ (x.sessions i).pending) := by
    rw [Finset.disjoint_union_right]
    exact ⟨h.disjoint (a := Place.free) (b := Place.prealloc i) (by simp),
      h.disjoint (a := Place.free) (b := Place.pending i) (by simp)⟩
  by_cases hc : ((x.sessions i).prealloc ∪ (x.sessions i).pending).card = 0
  · exact ⟨_, journalCloseSession_ok.mpr ⟨hd, _, _, projectRelease_ok.mpr (.inr ⟨hc, rfl, rfl⟩), rfl⟩⟩
  · exact ⟨_, journalCloseSession_ok.mpr ⟨hd, _, _, projectRelease_ok.mpr (.inl ⟨hc, hfree, rfl, rfl⟩), rfl⟩⟩

theorem create_returns (h : Apart x.inos) {ino : ℕ} {ids : Finset ℕ} (hp : x.Picks conf i ino ids) :
    ∃ y, x.prepareNewInode conf i ino ids = .ok y := by
  obtain ⟨hino, hids⟩ := hp
  have hz : ∃ z alloc used, x.assignIno i ino = .ok (z, alloc, used) := by
    by_cases hc : (x.sessions i).prealloc.card = 0
    · rw [if_neg (not_not.mpr hc)] at hino
      have hf := Free.alloc_ok.mpr ⟨Finset.singleton_subset_iff.mpr hino, rfl⟩
      exact ⟨_, _, _, assignIno_ok.mpr (.inr ⟨hc, _, InoTable.projectAllocIds_ok.mpr ⟨_, hf, rfl⟩, rfl, rfl, rfl⟩)⟩
    · rw [if_pos hc] at hino
      have hd : Disjoint (x.sessions i).used {ino} :=
        h.disjoint_of_subset (a := Place.prealloc i) (b := Place.used i) (Finset.singleton_subset_iff.mpr hino) (by simp)
      exact ⟨_, _, _, assignIno_ok.mpr (.inl ⟨hc, _, Session.takeIno_ok.mpr ⟨hino, hd, rfl⟩, rfl, rfl, rfl⟩)⟩
  obtain ⟨z, alloc, used, hz⟩ := hz
  have hza := (assignIno_conserves h hz).apart
  have hw : ∃ w got, z.preallocate conf i ids = .ok (w, got) := by
    by_cases hc : z.wanted conf i = 0
    · exact ⟨_, _, preallocate_ok.mpr (.inr ⟨hc, rfl, rfl⟩)⟩
    · obtain ⟨hsub, hne⟩ := hids (z, alloc, used) (by rw [hz]; rfl) hc
      have hd : Disjoint (z.sessions i).pending ids :=
        hza.disjoint_of_subset (a := Place.free) (b := Place.pending i) hsub (by simp)
      have hf := Free.alloc_ok.mpr ⟨hsub, rfl⟩
      exact ⟨_, _, preallocate_ok.mpr (.inl ⟨hc, _, InoTable.projectAllocIds_ok.mpr ⟨_, hf, rfl⟩, hne, hd, rfl, rfl⟩)⟩
  obtain ⟨w, got, hw⟩ := hw
  exact ⟨_, prepareNewInode_ok.mpr ⟨z, alloc, used, hz, w, got, hw, rfl⟩⟩

theorem releaseInos_returns {inos : Finset ℕ} {piv : ℕ} {f : Free} (h : x.table.applied.giveBack inos piv = .ok f) :
    ∃ y, x.releaseInos inos piv = .ok y := by
  simp only [Free.giveBack, ite_ok, bind_ok, assert_ok, pure_ok, decide_eq_true_eq, exists_const] at h
  rcases h with ⟨hp, g, hg, hv, -⟩ | ⟨hp, -⟩
  · exact ⟨_, releaseInos_ok.mpr (.inl ⟨hp, _, InoTable.applyReleaseIds_ok.mpr ⟨g, hg, rfl⟩, hv, rfl⟩)⟩
  · exact ⟨_, releaseInos_ok.mpr (.inr ⟨not_not.mp hp, rfl⟩)⟩

theorem applyAllocatedInos_returns (h : Apart x.inos) {alloc used : Option ℕ} {ids : Finset ℕ} {f g : Free}
    (hf : x.table.applied.take alloc.toFinset = .ok f) (hg : f.take ids = .ok g)
    (hp : ids ⊆ (x.sessions i).pending) (hu : used.toFinset ⊆ (x.sessions i).used) :
    ∃ y, x.applyAllocatedInos i alloc used ids = .ok y := by
  simp only [applyAllocatedInos, bind_ok]
  have hz : ∃ z, x.applyAllocIno alloc = .ok z ∧ z.table.applied = f ∧ z.sessions = x.sessions := by
    cases alloc with
    | none => exact ⟨x, rfl, Except.ok.inj hf, rfl⟩
    | some ino =>
      rw [Free.take, if_pos (by simp)] at hf
      exact ⟨_, applyAllocIno_ok.mpr (.inl ⟨ino, _, rfl, InoTable.applyAllocIds_ok.mpr ⟨f, hf, rfl⟩, rfl⟩), rfl, rfl⟩
  obtain ⟨z, hz, rfl, hzs⟩ := hz
  have hw : ∃ w, z.applyPrealloc i ids = .ok w ∧ (w.sessions i).used = (x.sessions i).used := by
    by_cases hc : ids.card = 0
    · exact ⟨z, applyPrealloc_ok.mpr (.inr ⟨hc, rfl⟩), by rw [hzs]⟩
    · rw [Free.take, if_pos hc] at hg
      have hd : Disjoint (z.sessions i).prealloc ids := by
        rw [hzs]
        exact h.disjoint_of_subset (a := Place.pending i) (b := Place.prealloc i) hp (by simp)
      refine ⟨_, applyPrealloc_ok.mpr (.inl ⟨hc, hzs ▸ hp, hd, _, InoTable.applyAllocIds_ok.mpr ⟨g, hg, rfl⟩, rfl⟩), ?_⟩
      simp only [put, Function.update_self, hzs]
  obtain ⟨w, hw, hwu⟩ := hw
  refine (?_ : ∃ y, w.applyUsed i used = .ok y).elim fun y hy => ⟨y, z, hz, w, hw, hy⟩
  cases used with
  | none => exact ⟨w, rfl⟩
  | some ino =>
    have hm : ino ∈ (w.sessions i).used := by
      rw [hwu]
      exact hu (by simp)
    exact ⟨_, applyUsed_ok.mpr (.inl ⟨ino, rfl, hm, rfl⟩)⟩

/-! ## Runs -/

/-- After the numbers of the entry have been applied, the table and the session map (which counts the
completion of an entry for a session or an import last) have the versions that it was stamped with. -/
def Stamped (y : State) : Entry → Prop
  | .session _ _ _ pv _ piv => y.version + 1 = pv ∧ (piv ≠ 0 → y.table.applied.version = piv)
  | .update _ _ _ _ sessionmapv inotablev => y.version = sessionmapv ∧ y.table.applied.version = inotablev
  | .imports _ _ _ pv => y.version + 1 = pv

/-- The inode numbers in `x`, a state that was reached from `init`. -/
structure Sound (conf : ℕ) (init x : State) : Prop where
  /-- Each number is at exactly one place. -/
  unique : ∀ n, (∃ p, n ∈ init.inos p) → ∃! p, n ∈ x.inos p
  /-- No other number has turned up. -/
  known : ∀ n, (∃ p, n ∈ x.inos p) → ∃ p, n ∈ init.inos p
  close : ∀ i st, ∃ y, x.journalCloseSession i st = .ok y
  create : ∀ i ino ids, x.Enabled conf (.create i ino ids) → ∃ y, x.prepareNewInode conf i ino ids = .ok y
  apply : ∀ e J, x.journal = e :: J → ∃ y, State.applyNumbers { x with journal := J } e = .ok y ∧ y.Stamped e

/-- What every calm step keeps. -/
structure Good (init x : State) : Prop where
  ordered : x.Ordered
  accounts : Accounts x.sessions x.journal
  replays : x.Replays
  conserves : Conserves init.inos x.inos

theorem Idle.good (h : x.Idle) : Good x x := ⟨h.ordered, h.accounts, h.replays, .refl h.apart⟩

theorem Good.step {init : State} {a : Action} (h : Good init x) (hcalm : x.Calm a) (hy : x.step conf a = some y) :
    Good init y :=
  ⟨step_ordered h.ordered hy, step_accounts h.accounts h.ordered hcalm hy, step_replays h.replays hy,
    h.conserves.trans ((step_conserves h.ordered h.conserves.apart hy).2 (accounts_bare h.accounts h.ordered))⟩

theorem Good.apply {init : State} (h : Good init x) {e : Entry} {J : List Entry} (hJ : x.journal = e :: J) :
    ∃ y, State.applyNumbers { x with journal := J } e = .ok y ∧ y.Stamped e := by
  have hr := h.replays
  unfold Replays at hr
  rw [hJ, List.foldlM_cons, bind_ok] at hr
  obtain ⟨p, hp, -⟩ := hr
  cases e with
  | session i q o pv inos piv =>
    simp only [Entry.replay, bind_ok, assert_ok, pure_ok, decide_eq_true_eq, exists_const] at hp
    obtain ⟨f, hf, hpv, -⟩ := hp
    obtain ⟨y, hy⟩ := releaseInos_returns (x := { x with journal := J }) hf
    obtain ⟨hg, -, hv, -⟩ := releaseInos_replay hy
    refine ⟨y, hy, by rw [hv]; exact hpv, fun hne => ?_⟩
    rcases releaseInos_ok.mp hy with ⟨-, table, -, hpiv, rfl⟩ | ⟨hz, -⟩
    · exact hpiv
    · exact absurd hz hne
  | update i alloc used ids sv iv =>
    simp only [Entry.replay, bind_ok, assert_ok, pure_ok, decide_eq_true_eq, exists_const] at hp
    obtain ⟨f, hf, g, hg, hsv, hiv, -⟩ := hp
    have ha : Accounts x.sessions (.update i alloc used ids sv iv :: J) := hJ ▸ h.accounts
    have hpend := ha.subset_pending (i := i)
    have huse := ha.subset_used (i := i)
    simp only [Entry.pendingOf, Entry.usedOf, if_true, Finset.val_le_iff] at hpend huse
    obtain ⟨y, hy⟩ := applyAllocatedInos_returns (x := { x with journal := J }) h.conserves.apart hf hg hpend huse
    obtain ⟨⟨f', hf', hg'⟩, -, hv, -⟩ := applyAllocatedInos_replay hy
    have hff : f = f' := Except.ok.inj (hf.symm.trans hf')
    subst hff
    have hgg : g = y.table.applied := Except.ok.inj (hg.symm.trans hg')
    exact ⟨y, hy, hv.trans hsv, hgg ▸ hiv⟩
  | imports clients m b pv =>
    simp only [Entry.replay, bind_ok, assert_ok, pure_ok, decide_eq_true_eq, exists_const] at hp
    exact ⟨_, rfl, hp.1⟩

theorem Good.sound {init : State} (h : Good init x) : Sound conf init x where
  unique _ hn := h.conserves.existsUnique hn
  known n := (h.conserves.kept n).mp
  close _ st := close_returns h.conserves.apart st
  create _ _ _ hen := create_returns h.conserves.apart hen.2.2
  apply _ _ := h.apply

/-- In a run from an idle state that closes no session with numbers pending, each inode number is at exactly one
place at any time, and the operations on the sets, the table and the versions do not fail. -/
theorem numbers_conserved (conf : ℕ) {init x : State} {as : List Action} (h : init.Idle)
    (hcalm : Meets (step conf) Calm init as) (hr : run (step conf) init as = some x) : Sound conf init x :=
  (run_invariant_of (fun _ _ _ hg hc hy => Good.step hg hc hy) h.good hcalm hr).sound

/-- One open session, of client 0. -/
def oneSession : State where
  sessions i := if i = 0 then { client := 0, state := .opened, connected := true } else { client := 0 }
  made := 1
  sessionmap c := if c = 0 then some 0 else none
  projected := 0
  version := 0
  table := ⟨⟨{1, 2, 3, 4}, 0⟩, ⟨{1, 2, 3, 4}, 0⟩⟩

theorem oneSession_idle : oneSession.Idle := by
  have hne : ∀ i, i ≠ 0 → oneSession.sessions i = { client := 0 } := fun i hi => if_neg hi
  have hmap : ∀ i, oneSession.Mapped i ↔ i = 0 := by
    intro i
    have hc : (oneSession.sessions i).client = 0 := by
      by_cases hi : i = 0
      · subst hi
        rfl
      · rw [hne i hi]
    rw [Mapped, hc]
    exact Option.some_inj.trans eq_comm
  have hempty : ∀ i, (oneSession.sessions i).prealloc = ∅ ∧ (oneSession.sessions i).pending = ∅ ∧
      (oneSession.sessions i).used = ∅ ∧ (oneSession.sessions i).importing = 0 := by
    intro i
    by_cases hi : i = 0
    · subst hi
      exact ⟨rfl, rfl, rfl, rfl⟩
    · rw [hne i hi]
      exact ⟨rfl, rfl, rfl, rfl⟩
  refine ⟨rfl, rfl, rfl, rfl, fun i hi => ?_, fun c i hM => ?_, fun i hM => ?_, fun i hM => ?_,
    fun i => (hempty i).2.2.2, fun i => (hempty i).2.1, fun i => (hempty i).2.2.1, fun n p q hp hq => ?_⟩
  · rw [hne i (by show i ≠ 0; exact Nat.one_le_iff_ne_zero.mp hi)]
  · by_cases hc : c = 0
    · subst hc
      cases hM
      exact ⟨rfl, Nat.one_pos⟩
    · simp [oneSession, hc] at hM
  · cases (hmap i).mp hM
    exact .inl rfl
  · rw [hne i fun hi => hM ((hmap i).mpr hi)]
  · have hfree : ∀ r, n ∈ oneSession.inos r → r = .free := by
      intro r hr
      cases r with
      | free => rfl
      | prealloc i => simp [inos, (hempty i).1] at hr
      | pending i => simp [inos, (hempty i).2.1] at hr
      | used i => simp [inos, (hempty i).2.2.1] at hr
      | given => cases hr
    rw [hfree p hp, hfree q hq]

/-- A session that gets two numbers and is closed when they are no longer pending. -/
theorem numbers_conserved_oneSession : ∃ x,
    run (step 2) oneSession [.create 0 1 {2, 3}, .logged, .create 0 2 ∅, .requestClose 0 0, .logged, .logged] = some x ∧
    Sound 2 oneSession x := by
  obtain ⟨x, hx⟩ : ∃ x, run (step 2) oneSession
      [.create 0 1 {2, 3}, .logged, .create 0 2 ∅, .requestClose 0 0, .logged, .logged] = some x :=
    Option.isSome_iff_exists.mp (by decide +kernel)
  exact ⟨x, hx, numbers_conserved 2 oneSession_idle (by decide +kernel) hx⟩

/-- A session is closed while two numbers are pending for it: the update that is to give them to it cannot complete. -/
theorem not_conserved : ¬ ∀ (conf : ℕ) (init x : State) (as : List Action), init.Idle →
    run (step conf) init as = some x → Sound conf init x := by
  intro hall
  obtain ⟨x, hx⟩ : ∃ x, run (step 2) oneSession [.create 0 1 {2, 3}, .requestClose 0 0] = some x :=
    Option.isSome_iff_exists.mp (by decide +kernel)
  have hfail : (run (step 2) oneSession [.create 0 1 {2, 3}, .requestClose 0 0]).map (fun x =>
      x.journal.head?.all fun e => (State.applyNumbers { x with journal := x.journal.tail } e).isOk) = some false := by
    decide +kernel
  have hsound := hall 2 oneSession x _ oneSession_idle hx
  rw [hx, Option.map_some, Option.some.injEq] at hfail
  cases hJ : x.journal with
  | nil =>
    rw [hJ] at hfail
    cases hfail
  | cons e J =>
    obtain ⟨y, hy, -⟩ := hsound.apply e J hJ
    simp only [hJ, List.head?_cons, Option.all_some, List.tail_cons, hy] at hfail
    cases hfail

end State

end CephMds.Sessions
