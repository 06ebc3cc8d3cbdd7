import CephMds.Proof.Sessions.Effects
import CephMds.Proof.Sessions.Order

/-!
# Every step keeps the order

Every operation keeps `InOrder` and `Registered` (`State.Ordered`), and
`step_ordered` puts the operations together.
-/

namespace CephMds.Sessions.State

open Checked

/-- The states of the sessions are in order with the journal and the map. -/
structure Ordered (x : State) : Prop where
  order : InOrder x.sessions x.journal
  registered : Registered x.sessions x.made x.sessionmap x.journal

variable {conf : ℕ} {x y : State} {i : ℕ}

theorem Ordered.close (h : x.Ordered) (hM : x.Mapped i) {st : SessionState} (hst : st = .closing ∨ st = .killing)
    (hy : x.journalCloseSession i st = .ok y) : y.Ordered := by
  obtain ⟨-, table, piv, -, rfl⟩ := journalCloseSession_ok.mp hy
  have hne : st ≠ .closed := by rcases hst with rfl | rfl <;> decide
  constructor
  · exact h.order.transit (s := { (x.sessions i).setState st with prealloc := ∅, pending := ∅ })
      (Nat.lt_succ_self _) (o := false) hst _ _ _
  · apply (h.registered.put (s := { (x.sessions i).setState st with prealloc := ∅, pending := ∅ }) hM rfl hne).submit
    · intro j hj
      cases hj.1
      show x.sessionmap (Function.update x.sessions _ _ _).client = _
      rw [Function.update_self]
      exact hM
    · exact fun j hj => hj.elim

theorem Ordered.put_same (h : x.Ordered) (hi : i < x.made) {s : Session} (hc : s.client = (x.sessions i).client)
    (hs : s.state = (x.sessions i).state) (hq : s.stateSeq = (x.sessions i).stateSeq)
    (hconn : (x.sessions i).connected = true → s.connected = true) : (x.put i s).Ordered :=
  ⟨h.order.same hs hq hconn, h.registered.same hi hc hs hq⟩

theorem Ordered.put_bump (h : x.Ordered) (hM : x.Mapped i) {s : Session} (hc : s.client = (x.sessions i).client)
    (hs : s.state ≠ .closed) (hq : (x.sessions i).stateSeq < s.stateSeq) : (x.put i s).Ordered :=
  ⟨h.order.bump hq, h.registered.put hM hc hs⟩

theorem Ordered.mapped (h : x.Ordered) (hs : (x.sessions i).shut = false) : x.Mapped i := by
  simp only [Session.shut, decide_eq_false_iff_not, not_or] at hs
  exact h.registered.mapped i hs.1 hs.2.2

theorem Ordered.lt (h : x.Ordered) (hM : x.Mapped i) : i < x.made := (h.registered.client _ i hM).2.1

theorem Ordered.kill (h : x.Ordered) (hy : x.killSession i = .ok y) : y.Ordered := by
  rw [killSession_eq, ite_ok] at hy
  rcases hy with ⟨⟨hs, -⟩, hy⟩ | ⟨-, hy⟩
  · exact h.close (h.mapped hs) (.inr rfl) hy
  · cases hy
    exact h

theorem Ordered.requestClose (h : x.Ordered) {seq : ℕ} (hy : x.requestClose i seq = .ok y) : y.Ordered := by
  simp only [requestClose_eq, ite_ok, not_or] at hy
  rcases hy with ⟨-, hy⟩ | ⟨⟨hs, -⟩, ⟨-, hy⟩ | ⟨-, hy⟩⟩
  · cases hy
    exact h
  · exact h.close (h.mapped (by simpa using hs)) (.inl rfl) hy
  · cases hy

theorem Ordered.terminate (h : x.Ordered) {sessions : List ℕ} (hy : x.terminateSessions sessions = .ok y) :
    y.Ordered := by
  refine foldlM_invariant (P := Ordered) ?_ h hy
  intro x i y _ h hy
  rw [terminateSession, ite_ok, pure_ok] at hy
  rcases hy with ⟨-, rfl⟩ | ⟨hs, hy⟩
  · exact h
  · exact h.close (h.mapped (by simpa using hs)) (.inl rfl) hy

theorem Ordered.requestOpen (h : x.Ordered) (hi : i < x.made) (hconn : (x.sessions i).connected = true)
    (hy : x.requestOpen i = .ok y) : y.Ordered := by
  rw [requestOpen_ok] at hy
  rcases hy with ⟨-, -, rfl⟩ | ⟨hs, z, hz, rfl⟩
  · exact h
  have hne : ((x.sessions i).setState .opening).state ≠ .closed := fun hc => by cases hc
  have horder := h.order.transit (s := (x.sessions i).setState .opening) (Nat.lt_succ_self _) (o := true) ⟨rfl, hconn⟩
    (x.projected + 1) 0 ∅
  have hopens : ∀ {S : ℕ → Session} {M : ℕ → Option ℕ} {n v : ℕ},
      Registered S n M x.journal → Registered S n M (x.journal ++ [.session i v true (x.projected + 1) ∅ 0]) := by
    intro S M n v hr
    apply hr.submit
    · exact fun j hj => absurd hj.2.2 (by decide)
    · exact fun j hj => hj.elim
  rcases addClosed_ok.mp hz with ⟨hcl, hM, rfl⟩ | ⟨hncl, rfl⟩
  · exact ⟨horder, hopens (h.registered.add hi hM rfl hne)⟩
  · have hst := hs.resolve_left hncl
    have hM : x.Mapped i := h.registered.mapped i hncl (by rw [hst]; decide)
    exact ⟨horder, hopens (h.registered.put hM rfl hne)⟩

theorem Ordered.renewCaps (h : x.Ordered) : (x.renewCaps i).Ordered := by
  unfold State.renewCaps
  split
  · have hM : x.Mapped i := h.mapped (by simp [Session.shut, *])
    exact h.put_bump hM rfl (fun hc => by cases hc) (Nat.lt_succ_self _)
  · exact h

theorem Ordered.newSession (h : x.Ordered) {c : ℕ} {b : Bool} : (x.newSession c b).Ordered := by
  have hd := h.registered.fresh x.made le_rfl
  exact ⟨h.order.new (by rw [hd]) (by rw [hd]), h.registered.new⟩

theorem Ordered.forceOpenSession (h : x.Ordered) {m m' : ℕ → Option ℕ} {c : ℕ}
    (hy : forceOpenSession (x, m) c = .ok (y, m')) : y.Ordered := by
  rcases forceOpenSession_ok hy with ⟨i, hM, hs, rfl, -⟩ | ⟨i, hM, hs, rfl, -⟩ | ⟨hM, rfl, -⟩
  · obtain ⟨rfl, -, -⟩ := h.registered.client c i hM
    exact h.put_bump hM rfl (fun hc => by cases hc) (Nat.lt_succ_self _)
  · exact h.put_same (h.registered.client c i hM).2.1 rfl rfl rfl id
  · have hn := h.newSession (c := c) (b := false)
    have hnew : (x.newSession c false).sessions x.made = { client := c } := Function.update_self ..
    have hadd := hn.registered.add (i := x.made)
      (s := { Session.setState { client := c, connected := false } .opening with importing := 1 }) (Nat.lt_succ_self _)
      (by rw [hnew]; exact hM) (by rw [hnew]; rfl) (fun hc => by cases hc)
    rw [hnew] at hadd
    exact ⟨hn.order.bump (by rw [hnew]; exact Nat.lt_succ_self 0), hadd⟩

theorem Ordered.submitImports (h : x.Ordered) {clients : List ℕ} {m : ℕ → Option ℕ} {b : Bool} {pv : ℕ} :
    (x.submit (.imports clients m b pv)).Ordered :=
  ⟨h.order.submit (fun _ _ hc => hc.elim) (fun _ _ _ _ _ _ hc => by cases hc) fun _ hu => hu.elim,
    h.registered.submit (fun _ hc => hc.elim) fun _ hu => hu.elim⟩

theorem Ordered.forceOpen (h : x.Ordered) {clients : List ℕ} {b : Bool}
    (hy : x.prepareForceOpenSessions clients b = .ok y) : y.Ordered := by
  simp only [prepareForceOpenSessions, bind_ok, pure_ok] at hy
  obtain ⟨⟨z, m⟩, hz, rfl⟩ := hy
  have hz' : z.Ordered := by
    refine foldlM_invariant (P := fun p => p.1.Ordered) ?_ ?_ hz
    · rintro ⟨x, m⟩ c ⟨y, m'⟩ _ h hy
      exact Ordered.forceOpenSession h hy
    · exact ⟨h.order, h.registered⟩
  exact hz'.submitImports

theorem Ordered.finishForceOpen (h : x.Ordered) {m : ℕ → Option ℕ} {b : Bool} {c : ℕ}
    (hy : finishForceOpen m b x c = .ok y) : y.Ordered := by
  obtain ⟨i, hM, s, hs, t, ht, rfl⟩ := finishForceOpen_ok.mp hy
  obtain ⟨hc, hi, hcl⟩ := h.registered.client c i hM
  obtain ⟨-, rfl⟩ := Session.finishImport_ok.mp ht
  rcases Session.finishOpen_ok.mp hs with ⟨q, -, rfl⟩ | ⟨-, -, rfl⟩
  · by_cases hq : (x.sessions i).stateSeq = q
    · rw [if_neg (not_not.mpr hq)]
      exact h.put_bump (by rwa [Mapped, hc]) rfl (fun hc => by cases hc) (Nat.lt_succ_self _)
    · rw [if_pos hq]
      exact h.put_same hi rfl rfl rfl id
  · exact h.put_same hi rfl rfl rfl id

theorem Ordered.endImport (h : x.Ordered) {c : ℕ} (hy : x.endImport c = .ok y) : y.Ordered := by
  obtain ⟨i, hM, -, rfl⟩ := endImport_ok.mp hy
  exact h.put_same (h.registered.client c i hM).2.1 rfl rfl rfl id

/-! ## Creating an inode -/

theorem Ordered.assignIno (h : x.Ordered) (hi : i < x.made) {ino : ℕ} {alloc used : Option ℕ}
    (hy : x.assignIno i ino = .ok (y, alloc, used)) :
    y.Ordered ∧ y.made = x.made ∧ (y.sessions i).shut = (x.sessions i).shut := by
  rcases assignIno_ok.mp hy with ⟨-, s, hs, rfl, -⟩ | ⟨-, table, -, rfl, -⟩
  · obtain ⟨-, -, rfl⟩ := Session.takeIno_ok.mp hs
    obtain ⟨ho, hr⟩ := h.put_same (s := { x.sessions i with
      prealloc := (x.sessions i).prealloc \ {ino}, used := (x.sessions i).used ∪ {ino} }) hi rfl rfl rfl id
    refine ⟨⟨ho, hr⟩, rfl, ?_⟩
    show (Function.update x.sessions i _ i).shut = _
    rw [Function.update_self]
    rfl
  · exact ⟨⟨h.order, h.registered⟩, rfl, rfl⟩

theorem Ordered.preallocate (h : x.Ordered) (hi : i < x.made) {ids got : Finset ℕ}
    (hy : x.preallocate conf i ids = .ok (y, got)) :
    y.Ordered ∧ y.made = x.made ∧ (y.sessions i).shut = (x.sessions i).shut := by
  rcases preallocate_ok.mp hy with ⟨-, table, -, -, -, rfl, -⟩ | ⟨-, rfl, -⟩
  · obtain ⟨ho, hr⟩ := h.put_same (s := { x.sessions i with pending := (x.sessions i).pending ∪ ids }) hi rfl rfl rfl id
    refine ⟨⟨ho, hr⟩, rfl, ?_⟩
    show (Function.update x.sessions i _ i).shut = _
    rw [Function.update_self]
    rfl
  · exact ⟨h, rfl, rfl⟩

theorem Ordered.create (h : x.Ordered) (hi : i < x.made) (hs : (x.sessions i).shut = false) {ino : ℕ} {ids : Finset ℕ}
    (hy : x.prepareNewInode conf i ino ids = .ok y) : y.Ordered := by
  obtain ⟨z, alloc, used, hz, w, got, hw, rfl⟩ := prepareNewInode_ok.mp hy
  obtain ⟨hzo, hzm, hzs⟩ := h.assignIno hi hz
  obtain ⟨hwo, hwm, hws⟩ := hzo.preallocate (hzm ▸ hi) hw
  constructor
  · apply hwo.order.submit
    · exact fun _ _ hc => hc.elim
    · exact fun _ _ _ _ _ _ hc => by cases hc
    · rintro _ rfl
      rw [hws, hzs, hs]
  · apply hwo.registered.submit
    · exact fun _ hc => hc.elim
    · rintro _ rfl
      rw [hwm, hzm]
      exact hi

/-! ## Completions -/

theorem Ordered.applyAllocatedInos (h : x.Ordered) (hi : i < x.made) {alloc used : Option ℕ} {ids : Finset ℕ}
    (hy : x.applyAllocatedInos i alloc used ids = .ok y) : y.Ordered := by
  simp only [State.applyAllocatedInos, bind_ok] at hy
  obtain ⟨z, hz, w, hw, hy⟩ := hy
  have hzo : z.Ordered ∧ z.made = x.made := by
    rcases applyAllocIno_ok.mp hz with ⟨_, _, -, -, rfl⟩ | ⟨-, rfl⟩
    · exact ⟨⟨h.order, h.registered⟩, rfl⟩
    · exact ⟨h, rfl⟩
  have hwo : w.Ordered ∧ w.made = x.made := by
    rcases applyPrealloc_ok.mp hw with ⟨-, -, -, table, -, rfl⟩ | ⟨-, rfl⟩
    · obtain ⟨ho, hr⟩ := hzo.1.put_same (s := { z.sessions i with
        pending := (z.sessions i).pending \ ids, prealloc := (z.sessions i).prealloc ∪ ids }) (hzo.2 ▸ hi) rfl rfl rfl id
      exact ⟨⟨ho, hr⟩, hzo.2⟩
    · exact hzo
  rcases applyUsed_ok.mp hy with ⟨ino, -, -, rfl⟩ | ⟨-, rfl⟩
  · obtain ⟨ho, hr⟩ := hwo.1.put_same (s := { w.sessions i with used := (w.sessions i).used \ {ino} })
      (hwo.2 ▸ hi) rfl rfl rfl id
    exact ⟨ho, hr⟩
  · exact hwo.1

/-- A close that completes in the state that it was journaled for is the last entry of its session. -/
theorem Ordered.closes (h : x.Ordered) {e : Entry} {J : List Entry} (hJ : x.journal = e :: J)
    (hc : e.Closes i (x.sessions i).stateSeq) :
    x.Mapped i ∧ ∀ e' ∈ J, ¬ e'.Updates i ∧ ¬ e'.Closes i (x.sessions i).stateSeq := by
  obtain ⟨ho, hr⟩ := h
  rw [hJ] at ho hr
  exact ⟨hr.closes e List.mem_cons_self i hc, fun e' he' => (List.pairwise_cons.mp ho.last).1 e' he' i hc⟩

theorem Ordered.enterState (h : x.Ordered) {q pv piv : ℕ} {o : Bool} {inos : Finset ℕ} {J : List Entry}
    (hJ : x.journal = .session i q o pv inos piv :: J) (hy : { x with journal := J }.enterState i q o = .ok y) :
    y.Ordered := by
  have ht : State.Ordered { x with journal := J } := by
    obtain ⟨ho, hr⟩ := h
    rw [hJ] at ho hr
    exact ⟨ho.tail, hr.tail⟩
  rcases enterState_ok hy with ⟨-, rfl⟩ | ⟨hq, ⟨-, hs, rfl⟩ | ⟨ho, hs, rfl⟩ | ⟨ho, hs, rfl⟩⟩
  · exact ht
  · have hs : (x.sessions i).state = .opening := hs
    have hsh : (x.sessions i).shut = false := by simp [Session.shut, hs]
    exact ht.put_bump (ht.mapped hsh) rfl (fun hc => by cases hc) (Nat.lt_succ_self _)
  · have hs : (x.sessions i).state = .closing := hs
    have hM : State.Mapped { x with journal := J } i :=
      ht.registered.mapped i (fun hc => by simp [hs] at hc) (fun hc => by simp [hs] at hc)
    have hb : (x.sessions i).stateSeq < ((x.sessions i).setState .closed).clear.stateSeq := Nat.lt_succ_self _
    refine ⟨ht.order.bump hb, ht.registered.remove hM rfl (.inl rfl) fun e he hc => ?_⟩
    exact absurd (ht.order.of_closes he hc).1 (not_le.mpr hb)
  · obtain ⟨hM, hlast⟩ := h.closes hJ (i := i) ⟨rfl, hq.symm, ho⟩
    have hr := ht.registered.remove (s := x.sessions i) hM rfl (.inr hs) fun e he => (hlast e he).2
    rw [Function.update_eq_self] at hr
    exact ⟨ht.order, hr⟩

theorem Ordered.logged (h : x.Ordered) (hy : x.logged = .ok y) : y.Ordered := by
  unfold State.logged at hy
  cases hJ : x.journal with
  | nil =>
    rw [hJ, pure_ok] at hy
    exact hy ▸ h
  | cons e J =>
    have ht : State.Ordered { x with journal := J } := by
      obtain ⟨ho, hr⟩ := h
      rw [hJ] at ho hr
      exact ⟨ho.tail, hr.tail⟩
    simp only [hJ, bind_ok] at hy
    obtain ⟨z, hz, hy⟩ := hy
    cases e with
    | session i q o pv inos piv =>
      simp only [applySessions, bind_ok, pure_ok] at hy
      obtain ⟨w, hw, rfl⟩ := hy
      rcases releaseInos_ok.mp hz with ⟨-, table, -, -, rfl⟩ | ⟨-, rfl⟩
      · have hx : State.Ordered { x with table } := ⟨h.order, h.registered⟩
        obtain ⟨ho, hr⟩ := hx.enterState hJ hw
        exact ⟨ho, hr⟩
      · obtain ⟨ho, hr⟩ := h.enterState hJ hw
        exact ⟨ho, hr⟩
    | update i alloc used ids sv iv =>
      cases pure_ok.mp hy
      have hi : i < x.made := h.registered.updates (.update i alloc used ids sv iv) (by simp [hJ]) i rfl
      exact ht.applyAllocatedInos hi hz
    | imports clients m b pv =>
      cases pure_ok.mp hz
      simp only [applySessions, finishForceOpenSessions, bind_ok, pure_ok] at hy
      obtain ⟨w, hw, rfl⟩ := hy
      obtain ⟨ho, hr⟩ := foldlM_invariant (P := State.Ordered) (fun x c y _ h hy => h.finishForceOpen hy) ht hw
      exact ⟨ho, hr⟩

theorem step_ordered {a : Action} (h : x.Ordered) (hy : x.step conf a = some y) : y.Ordered := by
  unfold step at hy
  split at hy
  case isFalse => cases hy
  rename_i hen
  rw [toOption_eq_some] at hy
  cases a with
  | connect c =>
    cases pure_ok.mp hy
    exact h.newSession
  | accept i =>
    cases pure_ok.mp hy
    exact h.put_same (h.lt hen) rfl rfl rfl fun _ => rfl
  | push i =>
    cases pure_ok.mp hy
    exact h.put_same hen rfl rfl rfl id
  | requestOpen i => exact h.requestOpen hen.1 hen.2 hy
  | renewCaps i =>
    cases pure_ok.mp hy
    exact h.renewCaps
  | requestClose i seq => exact h.requestClose hy
  | stale i =>
    cases pure_ok.mp hy
    exact h.put_bump hen.1 rfl (fun hc => by cases hc) (Nat.lt_succ_self _)
  | kill i => exact h.kill hy
  | terminate sessions => exact h.terminate hy
  | forceOpen clients b => exact h.forceOpen hy
  | endImport clients =>
    have h' : State.Ordered { x with holding := x.holding.erase clients } := ⟨h.order, h.registered⟩
    exact foldlM_invariant (P := State.Ordered) (fun x c y _ h hy => h.endImport hy) h' hy
  | create i ino ids => exact h.create hen.1 hen.2.1 hy
  | logged => exact h.logged hy

theorem Idle.ordered (h : x.Idle) : x.Ordered := by
  constructor
  · rw [h.journal]
    exact ⟨fun _ _ _ _ _ _ hm => (List.not_mem_nil hm).elim, List.Pairwise.nil⟩
  · rw [h.journal]
    refine ⟨fun c i hM => ?_, fun i hc _ => ?_, h.made, fun _ he => (List.not_mem_nil he).elim,
      fun _ he => (List.not_mem_nil he).elim⟩
    · obtain ⟨hc, hi⟩ := h.client c i hM
      have hM' : x.Mapped i := by rw [Mapped, hc, hM]
      refine ⟨hc, hi, ?_⟩
      rcases h.opened i hM' with ho | ho <;> simp [ho]
    · by_contra hM
      exact hc (h.closed i hM)

end CephMds.Sessions.State
