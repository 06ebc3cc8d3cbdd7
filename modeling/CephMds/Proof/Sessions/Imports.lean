import CephMds.Proof.Sessions.Numbers
import CephMds.Proof.Sessions.Tracked

/-!
# The sessions of an import stay until it is finished

While no session that is being imported is terminated, and no client opens a
second session (`Undisturbed`), every step keeps `Tracked`, and the
operations on sessions return: no assertion of theirs fails
(`sessions_safe`). `terminate_sessions` does not look at `is_importing`, and a
session that it closes fails the assertion of `finish_force_open_sessions`
(`not_safe`).
-/

namespace CephMds.Sessions.State

open Checked

variable {conf : ℕ} {x y : State} {i : ℕ}

/-- The sessions and the imports in flight. -/
def Tracks (x : State) : Prop := Tracked x.sessions x.sessionmap x.journal x.holding

/-- A session is not terminated while it is being imported, and a client does not open a second one. -/
def Undisturbed (x : State) : Action → Prop
  | .requestOpen i => (x.sessions i).state = .closed → x.sessionmap (x.sessions i).client = none
  | .terminate sessions => ∀ i ∈ sessions, (x.sessions i).shut = false → (x.sessions i).importing = 0
  | _ => True

instance (x : State) : DecidablePred x.Undisturbed
  | .requestOpen _ => inferInstanceAs (Decidable (_ → _))
  | .terminate _ => inferInstanceAs (Decidable (∀ i ∈ _, _))
  | .connect _ | .accept _ | .push _ | .renewCaps _ | .requestClose .. | .stale _ | .kill _ | .forceOpen ..
  | .endImport _ | .create .. | .logged => .isTrue trivial

theorem Ordered.reg (h : x.Ordered) : ∀ c i, x.sessionmap c = some i → (x.sessions i).client = c :=
  fun c i hM => (h.registered.client c i hM).1

theorem Ordered.opening_mapped (h : x.Ordered) : ∀ j, (x.sessions j).state = .opening → x.Mapped j :=
  fun j hj => h.registered.mapped j (by rw [hj]; decide) (by rw [hj]; decide)

/-! ## The requests of a client, and closes -/

theorem tracks_close (h : x.Tracks) (hi : (x.sessions i).importing = 0) {st : SessionState} (hst : st ≠ .opening)
    (hy : x.journalCloseSession i st = .ok y) : y.Tracks := by
  obtain ⟨-, table, piv, -, rfl⟩ := journalCloseSession_ok.mp hy
  have hput := Tracked.put h (i := i) (s := { (x.sessions i).setState st with prealloc := ∅, pending := ∅ }) rfl rfl
    (fun hne => absurd hi hne) (Nat.le_succ _) (fun ho => absurd ho hst) fun hq => absurd hq (Nat.succ_ne_self _)
  exact hput.submit fun _ _ _ _ he => by cases he

theorem tracks_terminate (h : x.Tracks) {sessions : List ℕ}
    (hi : ∀ i ∈ sessions, (x.sessions i).shut = false → (x.sessions i).importing = 0)
    (hy : x.terminateSessions sessions = .ok y) : y.Tracks := by
  have hboth : y.Tracks ∧ ∀ i ∈ sessions, (y.sessions i).shut = false → (y.sessions i).importing = 0 := by
    refine foldlM_invariant (P := fun x : State => x.Tracks ∧
      ∀ i ∈ sessions, (x.sessions i).shut = false → (x.sessions i).importing = 0) ?_ ⟨h, hi⟩ hy
    intro x i y hmem ⟨h, hi⟩ hy
    rw [terminateSession, ite_ok, pure_ok] at hy
    rcases hy with ⟨-, rfl⟩ | ⟨hs, hy⟩
    · exact ⟨h, hi⟩
    · refine ⟨tracks_close h (hi i hmem (by simpa using hs)) (by decide) hy, fun j hj hsj => ?_⟩
      obtain ⟨-, table, piv, -, rfl⟩ := journalCloseSession_ok.mp hy
      by_cases hji : j = i
      · subst hji
        show (Function.update x.sessions j _ j).importing = 0
        rw [Function.update_self]
        exact hi j hmem (by simpa using hs)
      · have hS : ∀ s, Function.update x.sessions i s j = x.sessions j := fun s => Function.update_of_ne hji ..
        show (Function.update x.sessions i _ j).importing = 0
        rw [hS]
        refine hi j hj ?_
        rw [← hS]
        exact hsj
  exact hboth.1

theorem tracks_requestOpen (h : x.Tracks) (ho : x.Ordered) (hy : x.requestOpen i = .ok y) : y.Tracks := by
  rcases requestOpen_ok.mp hy with ⟨-, -, rfl⟩ | ⟨hs, z, hz, rfl⟩
  · exact h
  · rcases addClosed_ok.mp hz with ⟨-, hM, rfl⟩ | ⟨hncl, rfl⟩
    · have himp : (x.sessions i).importing = 0 := by
        rw [h.count i, hM]
        rfl
      exact h.opens ho.reg (h.none _ hM) (.inl hM) (s := (x.sessions i).setState .opening) rfl himp _ _ _
    · have hst := hs.resolve_left hncl
      have hM : x.Mapped i := ho.registered.mapped i hncl (by rw [hst]; decide)
      have hshut : (x.sessions i).shut = true := by simp [Session.shut, hst]
      have hf := h.inFlight_eq_zero hM hshut
      have himp := h.importing_eq_zero hshut
      have hopens := h.opens ho.reg hf (.inr hM) (s := (x.sessions i).setState .opening) rfl himp
        (x.projected + 1) 0 ∅
      have hsame : Function.update x.sessionmap (x.sessions i).client (some i) = x.sessionmap := by
        rw [← hM, Function.update_eq_self]
      rw [hsame] at hopens
      exact hopens

theorem tracks_newSession (h : x.Tracks) (ho : x.Ordered) {c : ℕ} {b : Bool} : (x.newSession c b).Tracks :=
  Tracked.new h (fun c' hM => absurd (ho.registered.client c' x.made hM).2.1 (lt_irrefl _)) rfl rfl

/-! ## Preparing an import -/

theorem forceOpenSession_returns (x : State) (m : ℕ → Option ℕ) (c : ℕ) :
    ∃ p, forceOpenSession (x, m) c = .ok p := by
  unfold forceOpenSession getOrAddSession
  cases hM : x.sessionmap c with
  | none => simp [newSession, setMap, put, Session.shut]
  | some i =>
    cases hs : (x.sessions i).state <;> simp [hM, hs, Session.shut, assert, -bind_pure_comp]

theorem forceOpen_loop {b : Bool} {pv : ℕ} (clients : List ℕ) : ∀ (l : List ℕ) (x : State) (m : ℕ → Option ℕ), x.Ordered →
    (x.submit (.imports l m b pv)).Tracks → (∀ c, c ∉ l → m c = none) → ∃ y m',
    clients.foldlM forceOpenSession (x, m) = .ok (y, m') ∧ (y.submit (.imports (l ++ clients) m' b pv)).Tracks := by
  induction clients with
  | nil =>
    intro l x m _ h _
    exact ⟨x, m, rfl, by rwa [List.append_nil]⟩
  | cons c clients ih =>
    intro l x m ho h hdom
    obtain ⟨⟨z, m₁⟩, hz⟩ := forceOpenSession_returns x m c
    have hnext : (z.submit (.imports (l ++ [c]) m₁ b pv)).Tracks ∧ ∀ c', c' ∉ l ++ [c] → m₁ c' = none := by
      have hout : ∀ c', c' ∉ l ++ [c] → c' ∉ l ∧ c' ≠ c := fun c' hc' =>
        ⟨fun hl => hc' (List.mem_append_left _ hl), fun he => hc' (List.mem_append_right _ (List.mem_singleton.mpr he))⟩
      rcases forceOpenSession_ok hz with ⟨i, hM, hs, rfl, rfl⟩ | ⟨i, hM, hs, rfl, rfl⟩ | ⟨hM, rfl, rfl⟩
      · have hi := ho.reg c i hM
        subst hi
        have hf := h.inFlight_eq_zero hM hs
        have himp : (x.sessions i).importing = 0 := h.importing_eq_zero hs
        have ha := Tracked.announceOpen h ho.reg hf (.inr hM)
          (s := { (x.sessions i).setState .opening with importing := (x.sessions i).importing + 1 }) rfl
          (by rw [himp]) rfl
        have hsame : Function.update x.sessionmap (x.sessions i).client (some i) = x.sessionmap := by
          rw [← hM, Function.update_eq_self]
        refine ⟨?_, fun c' hc' => ?_⟩
        · show Tracked _ x.sessionmap _ _
          rw [← hsame]
          exact ha
        · rw [Function.update_of_ne (hout c' hc').2]
          exact hdom c' (hout c' hc').1
      · exact ⟨Tracked.announce h ho.reg hM hs (hdom c), fun c' hc' => hdom c' (hout c' hc').1⟩
      · have hn := tracks_newSession (x := x.submit (.imports l m b pv)) h ho.submitImports (c := c) (b := false)
        have hno := ho.newSession (c := c) (b := false)
        have hnew : (x.newSession c false).sessions x.made = { client := c } := Function.update_self ..
        have hcl : ((x.newSession c false).sessions x.made).client = c := by rw [hnew]
        have hM' : (x.newSession c false).sessionmap ((x.newSession c false).sessions x.made).client = none := by
          rw [hcl]
          exact hM
        have ha := Tracked.announceOpen (S := (x.newSession c false).sessions) (M := (x.newSession c false).sessionmap)
          (J := x.journal) (H := x.holding) (i := x.made) hn hno.reg (hn.none _ hM') (.inl hM')
          (s := { Session.setState { client := c, connected := false } .opening with importing := 1 }) hcl.symm rfl rfl
        rw [hcl] at ha
        refine ⟨ha, fun c' hc' => ?_⟩
        rw [Function.update_of_ne (hout c' hc').2]
        exact hdom c' (hout c' hc').1
    obtain ⟨y, m', hy, hty⟩ := ih (l ++ [c]) z m₁ (ho.forceOpenSession hz) hnext.1 hnext.2
    refine ⟨y, m', ?_, by rwa [List.append_assoc, List.singleton_append] at hty⟩
    rw [List.foldlM_cons, hz]
    exact hy

theorem tracks_forceOpen (h : x.Tracks) (ho : x.Ordered) (clients : List ℕ) (b : Bool) :
    ∃ y, x.prepareForceOpenSessions clients b = .ok y ∧ y.Tracks := by
  have hstart : (State.submit { x with projected := x.projected + 1 }
      (.imports [] (fun _ => none) b (x.projected + 1))).Tracks :=
    Tracked.submit h fun _ _ _ _ he => by
      cases he
      rfl
  obtain ⟨y, m, hy, ht⟩ := forceOpen_loop clients [] { x with projected := x.projected + 1 } (fun _ => none)
    ⟨ho.order, ho.registered⟩ hstart fun _ _ => rfl
  refine ⟨_, ?_, ht⟩
  simp only [prepareForceOpenSessions, bind_ok, pure_ok]
  exact ⟨_, hy, rfl⟩

/-! ## Finishing an import -/

/-- The imports that are held while the completion of one runs: one that is not to be finished yet counts for the
clients that are done. -/
def heldWith (b : Bool) (l : List ℕ) (H : List (List ℕ)) : List (List ℕ) := if b then H else l :: H

theorem inFlight_finish {J : List Entry} {H : List (List ℕ)} {m : ℕ → Option ℕ} {b : Bool} {pv c : ℕ}
    {l clients : List ℕ} (c' : ℕ) :
    inFlight (.imports clients m b pv :: J) (heldWith b (l ++ [c]) H) c' + (if b = true ∧ c = c' then 1 else 0) =
      inFlight (.imports (c :: clients) m b pv :: J) (heldWith b l H) c' := by
  unfold inFlight heldWith
  cases b <;> simp only [List.map_cons, List.sum_cons, Entry.importsOf, List.count_cons, beq_iff_eq, List.count_append,
    List.count_nil, if_true, Bool.false_eq_true, if_false, true_and, false_and] <;> omega

theorem finish_loop {m : ℕ → Option ℕ} {b : Bool} {pv : ℕ} {J : List Entry} {H : List (List ℕ)} (clients : List ℕ) :
    ∀ (l : List ℕ) (x : State), x.Ordered →
    Tracked x.sessions x.sessionmap (.imports clients m b pv :: J) (heldWith b l H) →
    ∃ y, clients.foldlM (finishForceOpen m b) x = .ok y ∧
      Tracked y.sessions y.sessionmap (.imports [] m b pv :: J) (heldWith b (l ++ clients) H) ∧
      y.journal = x.journal ∧ y.holding = x.holding := by
  induction clients with
  | nil =>
    intro l x _ h
    exact ⟨x, rfl, by rwa [List.append_nil], rfl, rfl⟩
  | cons c clients ih =>
    intro l x ho h
    have hpos : inFlight (.imports (c :: clients) m b pv :: J) (heldWith b l H) c ≠ 0 :=
      inFlight_pos List.mem_cons_self List.mem_cons_self
    obtain ⟨i, hM, himp, hsh⟩ := h.session ho.reg hpos
    have hne : (x.sessions i).importing ≠ 0 := himp ▸ hpos
    -- the session of an import that did not open it is open or stale by now
    have hopen : m c = none → (x.sessions i).state = .opened ∨ (x.sessions i).state = .stale := by
      intro hm
      have hno : (x.sessions i).state ≠ .opening := by
        intro hs
        obtain ⟨k', hk', -⟩ := h.skip 0 (c :: clients) m b pv rfl c List.mem_cons_self hm i hM hs
        omega
      cases hs : (x.sessions i).state <;> simp [Session.shut, hs] at hsh hno ⊢
    have hs : ∃ s, (x.sessions i).finishOpen (m c) = .ok s ∧ s.client = (x.sessions i).client ∧
        s.importing = (x.sessions i).importing ∧
        ((s.state = (x.sessions i).state ∧ s.stateSeq = (x.sessions i).stateSeq ∧
            ∀ q, m c = some q → q ≠ (x.sessions i).stateSeq) ∨
          (s.state = .opened ∧ s.stateSeq = (x.sessions i).stateSeq + 1)) := by
      cases hm : m c with
      | none =>
        exact ⟨_, Session.finishOpen_ok.mpr (.inr ⟨rfl, hopen hm, rfl⟩), rfl, rfl, .inl ⟨rfl, rfl, fun _ he => by cases he⟩⟩
      | some q =>
        by_cases hq : (x.sessions i).stateSeq = q
        · refine ⟨(x.sessions i).setState .opened, Session.finishOpen_ok.mpr (.inl ⟨q, rfl, ?_⟩), rfl, rfl, .inr ⟨rfl, rfl⟩⟩
          rw [if_neg (not_not.mpr hq)]
        · refine ⟨x.sessions i, Session.finishOpen_ok.mpr (.inl ⟨q, rfl, if_pos hq⟩), rfl, rfl, .inl ⟨rfl, rfl, ?_⟩⟩
          rintro q' he rfl
          exact hq (Option.some.inj he).symm
    obtain ⟨s, hs, hscl, hsimp, hst⟩ := hs
    let t : Session := { s with importing := if b then s.importing - 1 else s.importing }
    have ht : s.finishImport b = .ok t := Session.finishImport_ok.mpr ⟨fun _ => hsimp ▸ hne, rfl⟩
    have hz : finishForceOpen m b x c = .ok (x.put i t) := finishForceOpen_ok.mpr ⟨i, hM, s, hs, t, ht, rfl⟩
    have hcount : ∀ c', inFlight (.imports clients m b pv :: J) (heldWith b (l ++ [c]) H) c' +
        (if b = true ∧ c = c' then 1 else 0) = inFlight (.imports (c :: clients) m b pv :: J) (heldWith b l H) c' :=
      fun c' => inFlight_finish c'
    have hnext : Tracked (Function.update x.sessions i t) x.sessionmap (.imports clients m b pv :: J)
        (heldWith b (l ++ [c]) H) := by
      refine h.finish (s := t) ho.reg ho.opening_mapped hM hscl ?_ (fun c' hc' => ?_) hst
      · show (if b then s.importing - 1 else s.importing) = _
        have := hcount c
        rw [hsimp, himp]
        cases b <;> simp at this ⊢ <;> omega
      · have := hcount c'
        rw [if_neg (fun hb => hc' hb.2.symm)] at this
        omega
    obtain ⟨y, hy, hty, hyJ, hyH⟩ := ih (l ++ [c]) (x.put i t) (ho.finishForceOpen hz) hnext
    refine ⟨y, ?_, by rwa [List.append_assoc, List.singleton_append] at hty, hyJ, hyH⟩
    rw [List.foldlM_cons, hz]
    exact hy

theorem endImport_loop {H : List (List ℕ)} (clients : List ℕ) : ∀ (x : State), x.Ordered →
    Tracked x.sessions x.sessionmap x.journal (clients :: H) → ∃ y, clients.foldlM endImport x = .ok y ∧
      Tracked y.sessions y.sessionmap y.journal H ∧ y.holding = x.holding := by
  induction clients with
  | nil =>
    intro x _ h
    exact ⟨x, rfl, h.congr fun c => by simp [inFlight], rfl⟩
  | cons c clients ih =>
    intro x ho h
    have hcount : ∀ c', inFlight x.journal ((c :: clients) :: H) c' =
        inFlight x.journal (clients :: H) c' + if c = c' then 1 else 0 := by
      intro c'
      simp only [inFlight, List.map_cons, List.sum_cons, List.count_cons, beq_iff_eq]
      omega
    have hpos : inFlight x.journal ((c :: clients) :: H) c ≠ 0 := by
      rw [hcount, if_pos rfl]
      omega
    obtain ⟨i, hM, himp, -⟩ := h.session ho.reg hpos
    have hne : (x.sessions i).importing ≠ 0 := himp ▸ hpos
    have hz : x.endImport c = .ok (x.put i { x.sessions i with importing := (x.sessions i).importing - 1 }) :=
      endImport_ok.mpr ⟨i, hM, hne, rfl⟩
    have hnext := h.recount (clients :: H) ho.reg hM
      (fun c' hc' => by rw [hcount, if_neg (Ne.symm hc'), add_zero]) hne
    have heq : inFlight x.journal (clients :: H) c = (x.sessions i).importing - 1 := by
      rw [himp, hcount, if_pos rfl, Nat.add_sub_cancel]
    rw [heq] at hnext
    obtain ⟨y, hy, hty, hyH⟩ := ih _ (ho.endImport hz) hnext
    refine ⟨y, ?_, hty, hyH⟩
    rw [List.foldlM_cons, hz]
    exact hy

theorem tracks_endImport (h : x.Tracks) (ho : x.Ordered) {clients : List ℕ} (hm : clients ∈ x.holding) :
    ∃ y, clients.foldlM endImport { x with holding := x.holding.erase clients } = .ok y ∧ y.Tracks := by
  have hperm := (List.perm_cons_erase hm)
  obtain ⟨y, hy, ht, hH⟩ := endImport_loop (H := x.holding.erase clients) clients
    { x with holding := x.holding.erase clients } ⟨ho.order, ho.registered⟩ (Tracked.congr h fun c => by
      unfold inFlight
      rw [(hperm.map (List.count c)).sum_eq])
  refine ⟨y, hy, ?_⟩
  unfold Tracks
  rw [hH]
  exact ht

/-! ## Inode numbers -/

theorem tracks_create (h : x.Tracks) {ino : ℕ} {ids : Finset ℕ} (hy : x.prepareNewInode conf i ino ids = .ok y) :
    y.Tracks := by
  obtain ⟨z, alloc, used, hz, w, got, hw, rfl⟩ := prepareNewInode_ok.mp hy
  have hzt : z.Tracks := by
    rcases assignIno_ok.mp hz with ⟨-, s, hs, rfl, -⟩ | ⟨-, table, -, rfl, -⟩
    · obtain ⟨-, -, rfl⟩ := Session.takeIno_ok.mp hs
      exact Tracked.put h rfl rfl (h.shut i) le_rfl (fun ho => ⟨ho, rfl⟩) fun _ => rfl
    · exact h
  have hwt : w.Tracks := by
    rcases preallocate_ok.mp hw with ⟨-, table, -, -, -, rfl, -⟩ | ⟨-, rfl, -⟩
    · exact Tracked.put hzt rfl rfl (hzt.shut i) le_rfl (fun ho => ⟨ho, rfl⟩) fun _ => rfl
    · exact hzt
  exact Tracked.submit hwt fun _ _ _ _ he => by cases he

theorem tracks_applyAllocatedInos (h : x.Tracks) {alloc used : Option ℕ} {ids : Finset ℕ}
    (hy : x.applyAllocatedInos i alloc used ids = .ok y) : y.Tracks := by
  simp only [applyAllocatedInos, bind_ok] at hy
  obtain ⟨z, hz, w, hw, hy⟩ := hy
  have hzt : z.Tracks := by
    rcases applyAllocIno_ok.mp hz with ⟨_, _, -, -, rfl⟩ | ⟨-, rfl⟩ <;> exact h
  have hwt : w.Tracks := by
    rcases applyPrealloc_ok.mp hw with ⟨-, -, -, table, -, rfl⟩ | ⟨-, rfl⟩
    · exact Tracked.put hzt rfl rfl (hzt.shut i) le_rfl (fun ho => ⟨ho, rfl⟩) fun _ => rfl
    · exact hzt
  rcases applyUsed_ok.mp hy with ⟨ino, -, -, rfl⟩ | ⟨-, rfl⟩
  · exact Tracked.put hwt rfl rfl (hwt.shut i) le_rfl (fun ho => ⟨ho, rfl⟩) fun _ => rfl
  · exact hwt

/-! ## Completions -/

/-- The state that is journaled is entered, if the session has made no transition since. -/
theorem enterState_tracks {q pv piv : ℕ} {o : Bool} {inos : Finset ℕ} {J : List Entry}
    (h : Tracked x.sessions x.sessionmap (.session i q o pv inos piv :: J) x.holding) (ho : x.Ordered)
    (hM : o = false → (x.sessions i).stateSeq = q → x.Mapped i) (hy : x.enterState i q o = .ok y) :
    Tracked y.sessions y.sessionmap J x.holding := by
  rcases enterState_ok hy with ⟨hq, rfl⟩ | ⟨hq, ⟨-, -, rfl⟩ | ⟨rfl, hs, rfl⟩ | ⟨rfl, hs, rfl⟩⟩
  · refine h.tail (fun _ => rfl) fun c j hop => ?_
    obtain ⟨rfl, hqj, -⟩ := hop
    exact absurd hqj.symm hq
  · have hput := h.put (i := i) (s := (x.sessions i).setState .opened) rfl rfl (fun _ => rfl) (Nat.le_succ _)
      (fun ho => by cases ho) fun he => absurd he (Nat.succ_ne_self _)
    refine hput.tail (fun _ => rfl) fun c j hop => ?_
    obtain ⟨rfl, hqj, -⟩ := hop
    rw [Function.update_self] at hqj
    have : (x.sessions i).stateSeq = (x.sessions i).stateSeq + 1 := hq.trans hqj
    omega
  · have hshut : (x.sessions i).shut = true := by simp [Session.shut, hs]
    have ht : Tracked x.sessions x.sessionmap J x.holding := h.tail (fun _ => rfl) fun c j hop => absurd hop.2.2 (by decide)
    exact ht.remove ho.reg (ht.inFlight_eq_zero (hM rfl hq) hshut) (hM rfl hq) rfl (ht.importing_eq_zero hshut)
      fun he => by cases he
  · have hshut : (x.sessions i).shut = true := by simp [Session.shut, hs]
    have ht : Tracked x.sessions x.sessionmap J x.holding := h.tail (fun _ => rfl) fun c j hop => absurd hop.2.2 (by decide)
    have hr := ht.remove (s := x.sessions i) ho.reg (ht.inFlight_eq_zero (hM rfl hq) hshut) (hM rfl hq) rfl
      (ht.importing_eq_zero hshut) fun he => by rw [hs] at he; cases he
    rw [Function.update_eq_self] at hr
    exact hr

theorem Ordered.next (h : x.Ordered) {e : Entry} {J : List Entry} (hJ : x.journal = e :: J) :
    State.Ordered { x with journal := J } := by
  obtain ⟨ho, hr⟩ := h
  rw [hJ] at ho hr
  exact ⟨ho.tail, hr.tail⟩

theorem Tracks.heldWith (h : x.Tracks) {clients : List ℕ} {m : ℕ → Option ℕ} {b : Bool} {pv : ℕ} {J : List Entry}
    (hJ : x.journal = .imports clients m b pv :: J) :
    Tracked x.sessions x.sessionmap (.imports clients m b pv :: J) (heldWith b [] x.holding) := by
  have h' : Tracked x.sessions x.sessionmap (.imports clients m b pv :: J) x.holding := hJ ▸ h
  cases b with
  | true => exact h'
  | false => exact h'.congr fun c => by simp [inFlight, State.heldWith]

theorem tracks_logged (h : x.Tracks) (ho : x.Ordered) (hy : x.logged = .ok y) : y.Tracks := by
  unfold logged at hy
  cases hJ : x.journal with
  | nil =>
    rw [hJ, pure_ok] at hy
    exact hy ▸ h
  | cons e J =>
    have ht := ho.next hJ
    have h' : Tracked x.sessions x.sessionmap (e :: J) x.holding := hJ ▸ h
    simp only [hJ, bind_ok] at hy
    obtain ⟨z, hz, hy⟩ := hy
    cases e with
    | session i q o pv inos piv =>
      simp only [applySessions, bind_ok, pure_ok] at hy
      obtain ⟨w, hw, rfl⟩ := hy
      have hMi : o = false → (x.sessions i).stateSeq = q → x.Mapped i :=
        fun hof hq => (ho.closes hJ ⟨rfl, hq.symm, hof⟩).1
      have hwJ : w.journal = J ∧ w.holding = x.holding := by
        have hz' : z.journal = J ∧ z.holding = x.holding := by
          rcases releaseInos_ok.mp hz with ⟨-, table, -, -, rfl⟩ | ⟨-, rfl⟩ <;> exact ⟨rfl, rfl⟩
        rcases enterState_ok hw with ⟨-, rfl⟩ | ⟨-, ⟨-, -, rfl⟩ | ⟨-, -, rfl⟩ | ⟨-, -, rfl⟩⟩ <;> exact hz'
      have hwt : Tracked w.sessions w.sessionmap J x.holding := by
        rcases releaseInos_ok.mp hz with ⟨-, table, -, -, rfl⟩ | ⟨-, rfl⟩
        · exact enterState_tracks (x := { x with journal := J, table }) h' ⟨ht.order, ht.registered⟩ hMi hw
        · exact enterState_tracks (x := { x with journal := J }) h' ht hMi hw
      show Tracked w.sessions w.sessionmap w.journal w.holding
      rw [hwJ.1, hwJ.2]
      exact hwt
    | update i alloc used ids sv iv =>
      cases pure_ok.mp hy
      have htail : State.Tracks { x with journal := J } := h'.tail (fun _ => rfl) fun _ _ hop => hop.elim
      exact tracks_applyAllocatedInos htail hz
    | imports clients m b pv =>
      cases pure_ok.mp hz
      simp only [applySessions, finishForceOpenSessions, bind_ok, pure_ok] at hy
      obtain ⟨w, hw, rfl⟩ := hy
      obtain ⟨w', hw', htw, hwJ, hwH⟩ := finish_loop clients [] { x with journal := J } ht (h.heldWith hJ)
      have hww : w' = w := Except.ok.inj (hw'.symm.trans hw)
      subst hww
      have htail := htw.tail (fun _ => rfl) fun c j hop => absurd hop.1 (List.not_mem_nil)
      show Tracked w'.sessions w'.sessionmap w'.journal (if b then w'.holding else clients :: w'.holding)
      rw [hwJ, hwH]
      exact htail

theorem step_tracks {a : Action} (h : x.Tracks) (ho : x.Ordered) (hu : x.Undisturbed a)
    (hy : x.step conf a = some y) : y.Tracks := by
  unfold step at hy
  split at hy
  case isFalse => cases hy
  rename_i hen
  rw [toOption_eq_some] at hy
  cases a with
  | connect c =>
    cases pure_ok.mp hy
    exact tracks_newSession h ho
  | accept i =>
    cases pure_ok.mp hy
    exact Tracked.put h rfl rfl (h.shut i) le_rfl (fun ho => ⟨ho, rfl⟩) fun _ => rfl
  | push i =>
    cases pure_ok.mp hy
    exact Tracked.put h rfl rfl (h.shut i) le_rfl (fun ho => ⟨ho, rfl⟩) fun _ => rfl
  | requestOpen i => exact tracks_requestOpen h ho hy
  | renewCaps i =>
    cases pure_ok.mp hy
    unfold renewCaps
    split
    · exact Tracked.put h rfl rfl (fun _ => rfl) (Nat.le_succ _) (fun ho => by cases ho)
        fun he => absurd he (Nat.succ_ne_self _)
    · exact h
  | requestClose i seq =>
    simp only [act, requestClose_eq, ite_ok, not_or, not_not] at hy
    rcases hy with ⟨-, hy⟩ | ⟨⟨-, hi, -⟩, ⟨-, hy⟩ | ⟨-, hy⟩⟩
    · cases hy
      exact h
    · exact tracks_close h hi (by decide) hy
    · cases hy
  | stale i =>
    cases pure_ok.mp hy
    exact Tracked.put h rfl rfl (fun _ => rfl) (Nat.le_succ _) (fun ho => by cases ho)
      fun he => absurd he (Nat.succ_ne_self _)
  | kill i =>
    simp only [act, killSession_eq, ite_ok] at hy
    rcases hy with ⟨⟨-, hi⟩, hy⟩ | ⟨-, hy⟩
    · exact tracks_close h hi (by decide) hy
    · cases hy
      exact h
  | terminate sessions => exact tracks_terminate h hu hy
  | forceOpen clients b =>
    obtain ⟨y', hy', ht⟩ := tracks_forceOpen h ho clients b
    rw [show x.act conf (.forceOpen clients b) = .ok y' from hy'] at hy
    exact Except.ok.inj hy ▸ ht
  | endImport clients =>
    obtain ⟨y', hy', ht⟩ := tracks_endImport h ho hen
    rw [show x.act conf (.endImport clients) = .ok y' from hy'] at hy
    exact Except.ok.inj hy ▸ ht
  | create i ino ids => exact tracks_create h hy
  | logged => exact tracks_logged h ho hy

theorem Idle.tracks (h : x.Idle) : x.Tracks := by
  have hz : ∀ c, inFlight x.journal x.holding c = 0 := by
    intro c
    rw [h.journal, h.holding]
    rfl
  refine ⟨fun i => ?_, fun c _ => hz c, fun i hi => absurd (h.importing i) hi, fun i hs => ?_,
    fun k l m b pv hk => ?_, fun l m b pv he => ?_⟩
  · rw [h.importing, hz, ite_self]
  · by_cases hM : x.Mapped i
    · rcases h.opened i hM with ho | ho <;> rw [ho] at hs <;> cases hs
    · rw [h.closed i hM] at hs
      cases hs
  · rw [h.journal] at hk
    cases hk
  · rw [h.journal] at he
    cases he

/-! ## The operations on sessions return -/

theorem requestOpen_returns (hM : (x.sessions i).state = .closed → x.sessionmap (x.sessions i).client = none) :
    ∃ y, x.requestOpen i = .ok y := by
  by_cases hcl : (x.sessions i).state = .closed
  · exact ⟨_, requestOpen_ok.mpr (.inr ⟨.inl hcl, _, addClosed_ok.mpr (.inl ⟨hcl, hM hcl, rfl⟩), rfl⟩)⟩
  by_cases hcg : (x.sessions i).state = .closing
  · exact ⟨_, requestOpen_ok.mpr (.inr ⟨.inr hcg, _, addClosed_ok.mpr (.inr ⟨hcl, rfl⟩), rfl⟩)⟩
  · exact ⟨_, requestOpen_ok.mpr (.inl ⟨hcl, hcg, rfl⟩)⟩

theorem terminate_returns (h : Apart x.inos) (sessions : List ℕ) : ∃ y, x.terminateSessions sessions = .ok y := by
  obtain ⟨y, hy, -⟩ := foldlM_returns (f := terminateSession) (l := sessions) (P := fun x : State => Apart x.inos)
    (fun x i _ h => by
      cases hs : (x.sessions i).shut with
      | true => exact ⟨x, by rw [terminateSession, if_pos hs]; rfl, h⟩
      | false =>
        obtain ⟨y, hy⟩ := close_returns h (i := i) .closing
        exact ⟨y, by rw [terminateSession, hs]; exact hy, (close_conserves h hy).apart⟩) h
  exact ⟨y, hy⟩

theorem enterState_returns {q : ℕ} {o : Bool} (h : (x.sessions i).stateSeq = q → (x.sessions i).Awaits o) :
    ∃ y, x.enterState i q o = .ok y := by
  unfold enterState
  by_cases hq : (x.sessions i).stateSeq = q
  · have ha := h hq
    rw [if_neg (not_not.mpr hq)]
    cases o with
    | true =>
      obtain ⟨hs, hc⟩ := ha
      exact ⟨_, by rw [if_pos rfl, decide_eq_true hs, hc]; rfl⟩
    | false =>
      rw [if_neg (by decide)]
      rcases ha with hs | hs
      · exact ⟨_, by rw [if_pos hs]; rfl⟩
      · exact ⟨_, by rw [if_neg (by rw [hs]; decide), if_pos hs]; rfl⟩
  · exact ⟨x, if_pos hq⟩

/-- What every undisturbed step keeps. -/
structure Kept (x : State) : Prop where
  ordered : x.Ordered
  tracks : x.Tracks
  replays : x.Replays
  apart : Apart x.inos

/-- The actions of the functions on sessions: all but creating an inode, and completing that. -/
def OfSessions (x : State) : Action → Prop
  | .create .. => False
  | .logged => x.journal.head?.any Entry.isUpdate = false
  | _ => True

theorem Idle.kept (h : x.Idle) : x.Kept := ⟨h.ordered, h.tracks, h.replays, h.apart⟩

theorem Kept.step {a : Action} (h : x.Kept) (hu : x.Undisturbed a) (hy : x.step conf a = some y) : y.Kept :=
  ⟨step_ordered h.ordered hy, step_tracks h.tracks h.ordered hu hy, step_replays h.replays hy,
    (step_conserves h.ordered h.apart hy).1⟩

theorem Kept.logged_returns (h : x.Kept) (ha : x.journal.head?.any Entry.isUpdate = false) :
    ∃ y, x.logged = .ok y := by
  unfold logged
  cases hJ : x.journal with
  | nil => exact ⟨x, rfl⟩
  | cons e J =>
    cases e with
    | session i q o pv inos piv =>
      have hr := h.replays
      unfold Replays at hr
      rw [hJ, List.foldlM_cons, bind_ok] at hr
      obtain ⟨p, hp, -⟩ := hr
      simp only [Entry.replay, bind_ok] at hp
      obtain ⟨f, hf, -⟩ := hp
      obtain ⟨z, hz⟩ := releaseInos_returns (x := { x with journal := J }) hf
      have hzs : z.sessions = x.sessions := by
        rcases releaseInos_ok.mp hz with ⟨-, table, -, -, rfl⟩ | ⟨-, rfl⟩ <;> rfl
      obtain ⟨w, hw⟩ := enterState_returns (x := z) (i := i) (q := q) (o := o) fun hq => by
        rw [hzs] at hq ⊢
        exact (h.ordered.order.entry i q o pv inos piv (by rw [hJ]; exact List.mem_cons_self)).2 hq.symm
      refine ⟨{ w with version := w.version + 1 }, ?_⟩
      simp only [bind_ok, applySessions, pure_ok]
      exact ⟨z, hz, w, hw, rfl⟩
    | update i alloc used ids sv iv =>
      rw [hJ] at ha
      cases ha
    | imports clients m b pv =>
      obtain ⟨w, hw, -⟩ := finish_loop clients [] { x with journal := J } (h.ordered.next hJ) (h.tracks.heldWith hJ)
      refine ⟨{ w with version := w.version + 1, holding := if b then w.holding else clients :: w.holding }, ?_⟩
      simp only [bind_ok, applyNumbers, applySessions, finishForceOpenSessions, pure_ok]
      exact ⟨_, rfl, w, hw, rfl⟩

theorem Kept.returns {a : Action} (h : x.Kept) (hen : x.Enabled conf a) (hu : x.Undisturbed a) (ha : x.OfSessions a) :
    ∃ y, x.act conf a = .ok y := by
  cases a with
  | connect c => exact ⟨_, rfl⟩
  | accept i => exact ⟨_, rfl⟩
  | push i => exact ⟨_, rfl⟩
  | requestOpen i => exact requestOpen_returns hu
  | renewCaps i => exact ⟨_, rfl⟩
  | requestClose i seq =>
    simp only [act, requestClose_eq]
    split_ifs with h₁ h₂
    · exact ⟨_, rfl⟩
    · exact close_returns h.apart _
    · have := hen.2.2
      omega
  | stale i => exact ⟨_, rfl⟩
  | kill i =>
    simp only [act, killSession_eq]
    split_ifs
    · exact close_returns h.apart _
    · exact ⟨_, rfl⟩
  | terminate sessions => exact terminate_returns h.apart sessions
  | forceOpen clients b =>
    obtain ⟨y, hy, -⟩ := tracks_forceOpen h.tracks h.ordered clients b
    exact ⟨y, hy⟩
  | endImport clients =>
    obtain ⟨y, hy, -⟩ := tracks_endImport h.tracks h.ordered hen
    exact ⟨y, hy⟩
  | create i ino ids => exact ha.elim
  | logged => exact h.logged_returns ha

/-! ## What a completion acts on -/

/-- The state of session `i` is kept from `x` to `y`, or the entry is for its last transition in `x`. -/
def Journaled (x : State) (e : Entry) (y : State) (i : ℕ) : Prop :=
  (y.sessions i).state = (x.sessions i).state ∨
  (e.Opens (x.sessions i).client i (x.sessions i).stateSeq ∧ (x.sessions i).state = .opening ∧
    (y.sessions i).state = .opened) ∨
  (e.Closes i (x.sessions i).stateSeq ∧ (x.sessions i).state = .closing ∧ (y.sessions i).state = .closed)

/-- The map keeps the session of `c`, or the entry is for the close of that session. -/
def Unmapped (x : State) (e : Entry) (y : State) (c : ℕ) : Prop :=
  y.sessionmap c = x.sessionmap c ∨ ∃ i, x.sessionmap c = some i ∧ y.sessionmap c = none ∧
    e.Closes i (x.sessions i).stateSeq ∧ ((x.sessions i).state = .closing ∨ (x.sessions i).state = .killing)

theorem enterState_journaled {q : ℕ} {o : Bool} (pv piv : ℕ) (inos : Finset ℕ)
    (hM : o = false → (x.sessions i).stateSeq = q → x.Mapped i)
    (hy : x.enterState i q o = .ok y) :
    (∀ j, Journaled x (.session i q o pv inos piv) y j) ∧ ∀ c, Unmapped x (.session i q o pv inos piv) y c := by
  rcases enterState_ok hy with ⟨-, rfl⟩ | ⟨hq, ⟨rfl, hs, rfl⟩ | ⟨rfl, hs, rfl⟩ | ⟨rfl, hs, rfl⟩⟩
  · exact ⟨fun _ => .inl rfl, fun _ => .inl rfl⟩
  · refine ⟨fun j => ?_, fun _ => .inl rfl⟩
    by_cases hj : j = i
    · subst hj
      refine .inr (.inl ⟨⟨rfl, hq.symm, rfl⟩, hs, ?_⟩)
      show (Function.update x.sessions j _ j).state = _
      rw [Function.update_self]
      rfl
    · refine .inl ?_
      show (Function.update x.sessions i _ j).state = _
      rw [Function.update_of_ne hj]
  · refine ⟨fun j => ?_, fun c => ?_⟩
    · by_cases hj : j = i
      · subst hj
        refine .inr (.inr ⟨⟨rfl, hq.symm, rfl⟩, hs, ?_⟩)
        show (Function.update x.sessions j _ j).state = _
        rw [Function.update_self]
        rfl
      · refine .inl ?_
        show (Function.update x.sessions i _ j).state = _
        rw [Function.update_of_ne hj]
    · by_cases hc : c = (x.sessions i).client
      · subst hc
        exact .inr ⟨i, hM rfl hq, Function.update_self .., ⟨rfl, hq.symm, rfl⟩, .inl hs⟩
      · exact .inl (Function.update_of_ne hc ..)
  · refine ⟨fun _ => .inl rfl, fun c => ?_⟩
    by_cases hc : c = (x.sessions i).client
    · subst hc
      exact .inr ⟨i, hM rfl hq, Function.update_self .., ⟨rfl, hq.symm, rfl⟩, .inr hs⟩
    · exact .inl (Function.update_of_ne hc ..)

/-- Where a session stands in the loop of `finish_force_open_sessions`. -/
def Finishing (x : State) (e : Entry) (y : State) (i : ℕ) : Prop :=
  (y.sessions i).client = (x.sessions i).client ∧
  (((y.sessions i).state = (x.sessions i).state ∧ (y.sessions i).stateSeq = (x.sessions i).stateSeq) ∨
    (e.Opens (x.sessions i).client i (x.sessions i).stateSeq ∧ (x.sessions i).state = .opening ∧
      (y.sessions i).state = .opened))

theorem finishing_step {clients : List ℕ} {m : ℕ → Option ℕ} {b : Bool} {pv c : ℕ} {J : List Entry} {z : State}
    (h : x.Tracks) (hreg : ∀ c i, x.sessionmap c = some i → (x.sessions i).client = c)
    (hJ : x.journal = .imports clients m b pv :: J) (hc : c ∈ clients) (hyM : y.sessionmap = x.sessionmap)
    (hy : ∀ i, Finishing x (.imports clients m b pv) y i) (hz : finishForceOpen m b y c = .ok z) :
    z.sessionmap = x.sessionmap ∧ ∀ i, Finishing x (.imports clients m b pv) z i := by
  obtain ⟨i, hM, s, hs, t, ht, rfl⟩ := finishForceOpen_ok.mp hz
  obtain ⟨-, rfl⟩ := Session.finishImport_ok.mp ht
  refine ⟨hyM, fun j => ?_⟩
  by_cases hj : j = i
  · subst hj
    rw [hyM] at hM
    obtain ⟨hcl, hst⟩ := hy j
    have hput : ∀ u : Session, (y.put j u).sessions j = u := fun u => Function.update_self ..
    unfold Finishing
    rw [hput]
    rcases Session.finishOpen_ok.mp hs with ⟨q, hq, rfl⟩ | ⟨-, -, rfl⟩
    · by_cases hseq : (y.sessions j).stateSeq = q
      · rw [if_neg (not_not.mpr hseq)]
        refine ⟨hcl, .inr ?_⟩
        rcases hst with ⟨h₁, h₂⟩ | ⟨h₁, h₂, -⟩
        · have hqx : q = (x.sessions j).stateSeq := by rw [← h₂, hseq]
          have hlate := h.late clients m b pv (by rw [hJ]; exact List.mem_cons_self) c hc q hq j hM
          rw [hreg c j hM]
          exact ⟨⟨hc, by rw [hq, hqx]⟩, hlate.2 hqx, rfl⟩
        · exact ⟨h₁, h₂, rfl⟩
      · rw [if_pos hseq]
        exact ⟨hcl, hst⟩
    · exact ⟨hcl, hst⟩
  · have hput : ∀ u : Session, (y.put i u).sessions j = y.sessions j := fun u => Function.update_of_ne hj ..
    unfold Finishing
    rw [hput]
    exact hy j

theorem Kept.logged_journaled (h : x.Kept) {e : Entry} {J : List Entry} (hJ : x.journal = e :: J)
    (hy : x.logged = .ok y) : (∀ i, Journaled x e y i) ∧ ∀ c, Unmapped x e y c := by
  simp only [logged, hJ, bind_ok] at hy
  obtain ⟨z, hz, hy⟩ := hy
  cases e with
  | session i q o pv inos piv =>
    simp only [applySessions, bind_ok, pure_ok] at hy
    obtain ⟨w, hw, rfl⟩ := hy
    have hM : o = false → (x.sessions i).stateSeq = q → x.Mapped i :=
      fun hof hq => (h.ordered.closes hJ ⟨rfl, hq.symm, hof⟩).1
    rcases releaseInos_ok.mp hz with ⟨-, table, -, -, rfl⟩ | ⟨-, rfl⟩
    · have hj := enterState_journaled (x := { x with journal := J, table }) pv piv inos hM hw
      exact ⟨hj.1, hj.2⟩
    · have hj := enterState_journaled (x := { x with journal := J }) pv piv inos hM hw
      exact ⟨hj.1, hj.2⟩
  | update i alloc used ids sv iv =>
    cases pure_ok.mp hy
    simp only [applyNumbers, applyAllocatedInos, bind_ok] at hz
    obtain ⟨u, hu, w, hw, hz⟩ := hz
    have hus : u.sessions = x.sessions ∧ u.sessionmap = x.sessionmap := by
      rcases applyAllocIno_ok.mp hu with ⟨_, _, -, -, rfl⟩ | ⟨-, rfl⟩ <;> exact ⟨rfl, rfl⟩
    have hws : (∀ j, (w.sessions j).state = (x.sessions j).state) ∧ w.sessionmap = x.sessionmap := by
      rcases applyPrealloc_ok.mp hw with ⟨-, -, -, table, -, rfl⟩ | ⟨-, rfl⟩
      · refine ⟨fun j => ?_, hus.2⟩
        rw [← hus.1]
        by_cases hj : j = i
        · subst hj
          simp only [put, Function.update_self]
        · simp only [put, Function.update_of_ne hj]
      · exact ⟨fun j => by rw [hus.1], hus.2⟩
    have hys : (∀ j, (y.sessions j).state = (w.sessions j).state) ∧ y.sessionmap = w.sessionmap := by
      rcases applyUsed_ok.mp hz with ⟨ino, -, -, rfl⟩ | ⟨-, rfl⟩
      · refine ⟨fun j => ?_, rfl⟩
        by_cases hj : j = i
        · subst hj
          simp only [put, Function.update_self]
        · simp only [put, Function.update_of_ne hj]
      · exact ⟨fun j => rfl, rfl⟩
    exact ⟨fun j => .inl ((hys.1 j).trans (hws.1 j)), fun c => .inl (by rw [hys.2, hws.2])⟩
  | imports clients m b pv =>
    cases pure_ok.mp hz
    simp only [applySessions, finishForceOpenSessions, bind_ok, pure_ok] at hy
    obtain ⟨w, hw, rfl⟩ := hy
    have hwf : w.sessionmap = x.sessionmap ∧ ∀ i, Finishing x (.imports clients m b pv) w i :=
      foldlM_invariant (P := fun w : State => w.sessionmap = x.sessionmap ∧ ∀ i, Finishing x (.imports clients m b pv) w i)
        (fun u c w hc hu hw => finishing_step h.tracks h.ordered.reg hJ hc hu.1 hu.2 hw)
        (s := { x with journal := J }) ⟨rfl, fun i => ⟨rfl, .inl ⟨rfl, rfl⟩⟩⟩ hw
    refine ⟨fun i => ?_, fun c => .inl (by rw [← hwf.1])⟩
    rcases (hwf.2 i).2 with ⟨hs, -⟩ | hs
    · exact .inl hs
    · exact .inr (.inl hs)

/-! ## Runs -/

/-- The sessions of a state, and what the operations on them do next. -/
structure Safe (conf : ℕ) (x : State) : Prop where
  /-- No assertion fails. -/
  returns : ∀ a, x.Enabled conf a → x.Undisturbed a → x.OfSessions a → ∃ y, x.act conf a = .ok y
  /-- A completion acts only on the transition that it was journaled for. -/
  journaled : ∀ e J y, x.journal = e :: J → x.logged = .ok y → (∀ i, Journaled x e y i) ∧ ∀ c, Unmapped x e y c
  /-- A session that is being imported is in the map, and neither closed nor about to be. -/
  importing : ∀ c, inFlight x.journal x.holding c ≠ 0 → ∃ i, x.sessionmap c = some i ∧
    (x.sessions i).importing = inFlight x.journal x.holding c ∧ (x.sessions i).shut = false
  /-- With nothing in flight, the version is the projected one. -/
  version : x.journal = [] → x.version = x.projected

theorem Kept.safe (h : x.Kept) : Safe conf x where
  returns _ := h.returns
  journaled _ _ _ := h.logged_journaled
  importing _ hc := h.tracks.session h.ordered.reg hc
  version hJ := by
    have hr := h.replays
    unfold Replays at hr
    rw [hJ] at hr
    exact (Prod.mk.inj (Except.ok.inj hr)).1

/-- In a run from an idle state that terminates no session that is being imported, and in which no client opens a
second session, the functions on sessions return, their completions act on the transitions that they were journaled
for, and the sessions of an import stay until it is finished. -/
theorem sessions_safe (conf : ℕ) {init x : State} {as : List Action} (h : init.Idle)
    (hu : Meets (step conf) Undisturbed init as) (hr : run (step conf) init as = some x) : Safe conf x :=
  (run_invariant_of (P := Kept) (fun _ _ _ hk hu hy => hk.step hu hy) h.kept hu hr).safe

/-- A session is closed, opened by an import, and closed again when that is finished. -/
theorem sessions_safe_oneSession : ∃ x,
    run (step 2) oneSession [.requestClose 0 0, .forceOpen [0] true, .kill 0, .logged, .logged, .terminate [0], .logged] =
      some x ∧ Safe 2 x := by
  obtain ⟨x, hx⟩ : ∃ x, run (step 2) oneSession
      [.requestClose 0 0, .forceOpen [0] true, .kill 0, .logged, .logged, .terminate [0], .logged] = some x :=
    Option.isSome_iff_exists.mp (by decide +kernel)
  exact ⟨x, hx, sessions_safe 2 oneSession_idle (by decide +kernel) hx⟩

/-- The session of an import is terminated: the completion of the import finds it closing. -/
theorem not_safe : ¬ ∀ (conf : ℕ) (init x : State) (as : List Action), init.Idle →
    run (step conf) init as = some x → Safe conf x := by
  intro hall
  obtain ⟨x, hx⟩ : ∃ x, run (step 2) oneSession [.forceOpen [0] true, .terminate [0]] = some x :=
    Option.isSome_iff_exists.mp (by decide +kernel)
  have hfail : (run (step 2) oneSession [.forceOpen [0] true, .terminate [0]]).map (fun x =>
      (decide (x.Enabled 2 .logged), x.journal.head?.any Entry.isUpdate, (x.act 2 .logged).isOk)) =
      some (true, false, false) := by
    decide +kernel
  rw [hx, Option.map_some, Option.some.injEq, Prod.mk.injEq, Prod.mk.injEq, decide_eq_true_eq] at hfail
  obtain ⟨hen, hupd, hact⟩ := hfail
  obtain ⟨y, hy⟩ := (hall 2 oneSession x _ oneSession_idle hx).returns .logged hen trivial hupd
  rw [hy] at hact
  cases hact

end CephMds.Sessions.State
