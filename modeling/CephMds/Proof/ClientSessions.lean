import CephMds.Model.ClientSessions

/-!
# The sessions of a client follow the MDS map

`State.FollowsMap`: the session of a rank that is up, and in reconnect or
later, has the instance of the map and a connection to it that has not been
marked down; and the requests that were last sent to an active rank were sent
on that connection.

The second half holds in every run (`Tidy.sent`). The first one does not:
`handle_mds_map` replaces a connection only where the rank enters reconnect, so
a map that skips this state leaves the session of a new instance with the
connection to the old one, marked down. `Steady` is the condition on a map that
excludes it: a rank in reconnect or later is in reconnect, with another
instance or another state than before, or the session is connected to its
instance already.

`holder` is the rank that an instance holds; an instance never changes its rank.
What the turn of the loop for one rank may do to the others is `Moves`.
-/

namespace CephMds.Client

/-- Every instance of the map holds the rank it is listed for. -/
def MdsMap.Assigned (holder : ℕ → ℕ) (m : MdsMap) : Prop := ∀ r info, m.info r = some info → holder info.inst = r

/-- The session has the instance, and a connection to it that is not marked down. -/
def MetaSession.Live (s : MetaSession) (cons : List Connection) (inst : ℕ) : Prop :=
  s.inst = inst ∧ cons[s.con]? = some ⟨inst, false⟩

/-- `handle_mds_map` gets the session a new connection. -/
def Reconnects (oldmap : MdsMap) (r : ℕ) (s : MetaSession) (info : MdsInfo) : Prop :=
  info.state = .reconnect ∧ (info.inst ≠ s.inst ∨ oldmap.getState r ≠ .reconnect)

namespace State

/-- The session of rank `r`, if the rank is in reconnect or later, is live or as in `ok`. -/
def Follows (ok : MetaSession → MdsInfo → Prop) (x : State) (r : ℕ) : Prop :=
  ∀ s info, x.sessions r = some s → x.mdsmap.info r = some info → DaemonState.reconnect ≤ info.state →
    ok s info ∨ s.Live x.cons info.inst

/-- The session of rank `r` is live, if the rank is in reconnect or later. -/
abbrev Good (x : State) (r : ℕ) : Prop := x.Follows (fun _ _ => False) r

/-- What holds after each map. -/
structure FollowsMap (x : State) : Prop where
  inst : ∀ r s info, x.sessions r = some s → x.mdsmap.info r = some info →
    DaemonState.reconnect ≤ info.state → s.inst = info.inst
  con : ∀ r s info, x.sessions r = some s → x.mdsmap.info r = some info →
    DaemonState.reconnect ≤ info.state → ∃ c, x.cons[s.con]? = some c ∧ c.inst = info.inst ∧ c.down = false
  sent : ∀ t q r s info, x.requests t = some q → q.mds = some r → x.sessions r = some s →
    x.mdsmap.info r = some info → DaemonState.active ≤ info.state → s.con ∈ q.sentOn

/-- The connection of the session of rank `r` is to an instance that holds it, or held it. -/
def Owned (holder : ℕ → ℕ) (x : State) (r : ℕ) : Prop :=
  ∀ s, x.sessions r = some s → ∃ c, x.cons[s.con]? = some c ∧ holder c.inst = r

/-- A request whose `mds` is `r` has been sent on the session of `r`, but on its connection only if `p r`. -/
def SentIf (p : ℕ → Prop) (x : State) : Prop :=
  ∀ t q r, x.requests t = some q → q.mds = some r → q.retryAttempt ≠ 0 ∧
    (q.gotUnsafe = true → q.unsafeItem = some r) ∧ ∃ s, x.sessions r = some s ∧ (p r → s.con ∈ q.sentOn)

abbrev Sent (x : State) : Prop := x.SentIf fun _ => True

/-- What holds in every run. -/
structure Tidy (holder : ℕ → ℕ) (x : State) : Prop where
  assigned : x.mdsmap.Assigned holder
  owned : ∀ r, x.Owned holder r
  sent : x.Sent

/-- The condition on a map. -/
def Steady (holder : ℕ → ℕ) (x : State) : Action → Prop
  | .mdsmap m => m.Assigned holder ∧ (∀ r, m.info r ≠ none → r < x.ranks) ∧
    ∀ r s info, x.sessions r = some s → m.info r = some info → DaemonState.reconnect ≤ info.state →
      Reconnects x.mdsmap r s info ∨ s.Live x.cons info.inst
  | _ => True

/-- For the ranks in `p`, sessions are opened and nothing else is changed. -/
structure Moves (holder : ℕ → ℕ) (p : ℕ → Prop) (x y : State) : Prop where
  mdsmap : y.mdsmap = x.mdsmap
  ranks : y.ranks = x.ranks
  cons : ∀ (i : ℕ) (c : Connection), p (holder c.inst) → x.cons[i]? = some c → y.cons[i]? = some c
  sessions : ∀ r, p r → y.sessions r = x.sessions r ∨ (x.sessions r = none ∧
    ∃ s info, y.sessions r = some s ∧ y.mdsmap.info r = some info ∧ s.Live y.cons info.inst)

section Moves

variable {holder : ℕ → ℕ} {p p' : ℕ → Prop} {x y z : State} {r : ℕ} {s : MetaSession}

theorem Moves.refl (x : State) : Moves holder p x x := ⟨rfl, rfl, fun _ _ _ h => h, fun _ _ => .inl rfl⟩

theorem Moves.mono (h : Moves holder p x y) (hp : ∀ r, p' r → p r) : Moves holder p' x y :=
  ⟨h.mdsmap, h.ranks, fun i c hc => h.cons i c (hp _ hc), fun r hr => h.sessions r (hp r hr)⟩

theorem Moves.live (h : Moves holder p x y) (hm : x.mdsmap.Assigned holder) (hr : p r) {info : MdsInfo}
    (hi : x.mdsmap.info r = some info) (hs : s.Live x.cons info.inst) : s.Live y.cons info.inst := by
  refine ⟨hs.1, h.cons _ _ ?_ hs.2⟩
  show p (holder info.inst)
  rw [hm r info hi]
  exact hr

theorem Moves.trans (h : Moves holder p x y) (h' : Moves holder p y z) (hm : x.mdsmap.Assigned holder) :
    Moves holder p x z := by
  refine ⟨h'.mdsmap.trans h.mdsmap, h'.ranks.trans h.ranks, fun i c hc hi => h'.cons i c hc (h.cons i c hc hi), ?_⟩
  intro r hr
  obtain h₂ | ⟨h₂, h₃⟩ := h'.sessions r hr
  · obtain h₁ | ⟨h₁, s, info, hs, hi, hl⟩ := h.sessions r hr
    · exact .inl (h₂.trans h₁)
    · refine .inr ⟨h₁, s, info, h₂.trans hs, by rw [h'.mdsmap, hi], ?_⟩
      rw [h.mdsmap] at hi
      exact h'.live (by rw [h.mdsmap]; exact hm) hr (by rw [h.mdsmap]; exact hi) hl
  · obtain h₁ | ⟨-, s, info, hs, -, -⟩ := h.sessions r hr
    · exact .inr ⟨h₁.symm.trans h₂, h₃⟩
    · rw [hs] at h₂
      cases h₂

theorem Moves.assigned (h : Moves holder p x y) (hm : x.mdsmap.Assigned holder) : y.mdsmap.Assigned holder := by
  rw [h.mdsmap]
  exact hm

/-- An open session of another rank is kept. -/
theorem Moves.session (h : Moves holder p x y) (hr : p r) (hs : x.sessions r = some s) : y.sessions r = some s := by
  obtain h' | ⟨h', -⟩ := h.sessions r hr
  · exact h'.trans hs
  · rw [hs] at h'
    cases h'

theorem Moves.follows {ok : MetaSession → MdsInfo → Prop} (h : Moves holder p x y) (hm : x.mdsmap.Assigned holder)
    (hr : p r) (hf : x.Follows ok r) : y.Follows ok r := by
  intro s info hs hi hst
  rw [h.mdsmap] at hi
  obtain h' | ⟨-, s', info', hs', hi', hl⟩ := h.sessions r hr
  · exact (hf s info (h' ▸ hs) hi hst).imp id (h.live hm hr hi)
  · rw [h.mdsmap, hi] at hi'
    rw [hs] at hs'
    cases hi'
    cases hs'
    exact .inr hl

theorem Moves.owned (h : Moves holder p x y) (hm : x.mdsmap.Assigned holder) (hr : p r)
    (ho : x.Owned holder r) : y.Owned holder r := by
  intro s hs
  obtain h' | ⟨-, s', info, hs', hi, hl⟩ := h.sessions r hr
  · obtain ⟨c, hc, hh⟩ := ho s (h' ▸ hs)
    exact ⟨c, h.cons _ _ (hh ▸ hr) hc, hh⟩
  · rw [hs] at hs'
    cases hs'
    rw [h.mdsmap] at hi
    exact ⟨_, hl.2, hm r info hi⟩

theorem Moves.sentIf {ok : ℕ → Prop} (h : Moves holder (fun _ => True) x y) (hq : y.requests = x.requests)
    (hs : x.SentIf ok) : y.SentIf ok := by
  intro t q r ht hr
  rw [hq] at ht
  obtain ⟨h₁, h₂, s, hs, h₃⟩ := hs t q r ht hr
  exact ⟨h₁, h₂, s, h.session trivial hs, h₃⟩

end Moves

/-! ## Connections -/

section Connections

variable {holder : ℕ → ℕ} {p : ℕ → Prop} {x : State} {r inst : ℕ} {s : MetaSession}

@[simp] theorem getConnection_mdsmap : (x.getConnection inst).1.mdsmap = x.mdsmap := by
  unfold getConnection
  split <;> rfl

@[simp] theorem getConnection_ranks : (x.getConnection inst).1.ranks = x.ranks := by
  unfold getConnection
  split <;> rfl

@[simp] theorem getConnection_sessions : (x.getConnection inst).1.sessions = x.sessions := by
  unfold getConnection
  split <;> rfl

@[simp] theorem getConnection_requests : (x.getConnection inst).1.requests = x.requests := by
  unfold getConnection
  split <;> rfl

theorem getConnection_cons {i : ℕ} {c : Connection} (h : x.cons[i]? = some c) :
    (x.getConnection inst).1.cons[i]? = some c := by
  unfold getConnection
  split
  · exact h
  · rw [List.getElem?_append_left (List.getElem?_eq_some_iff.mp h).1]
    exact h

theorem getConnection_get : (x.getConnection inst).1.cons[(x.getConnection inst).2]? = some ⟨inst, false⟩ := by
  unfold getConnection
  split
  · rename_i con h
    obtain ⟨hlt, hp, -⟩ := List.findIdx?_eq_some_iff_getElem.mp h
    simp only [Bool.and_eq_true, decide_eq_true_eq, Bool.not_eq_true'] at hp
    rw [List.getElem?_eq_getElem hlt, ← hp.1, ← hp.2]
  · simp

/-- The session that `connectSession` puts. -/
theorem connectSession_self :
    (x.connectSession r inst).sessions r = some { inst, con := (x.getConnection inst).2 } := by
  simp [connectSession, putSession]

theorem connectSession_live :
    MetaSession.Live { inst, con := (x.getConnection inst).2 } (x.connectSession r inst).cons inst :=
  ⟨rfl, getConnection_get⟩

@[simp] theorem connectSession_requests : (x.connectSession r inst).requests = x.requests := by
  simp [connectSession, putSession]

theorem connectSession_moves {info : MdsInfo} (h : p r → x.sessions r = none ∧ x.mdsmap.info r = some info)
    (hi : info.inst = inst) : Moves holder p x (x.connectSession r inst) := by
  refine ⟨by simp [connectSession, putSession], by simp [connectSession, putSession],
    fun i c _ hc => getConnection_cons hc, fun r' hr => ?_⟩
  by_cases hj : r' = r
  · rw [hj] at hr ⊢
    obtain ⟨h₁, h₂⟩ := h hr
    refine .inr ⟨h₁, _, info, connectSession_self, by simpa [connectSession, putSession] using h₂, ?_⟩
    rw [hi]
    exact connectSession_live
  · refine .inl ?_
    simp [connectSession, putSession, hj]

theorem openMdsSession_moves (h : x.sessions r = none) : Moves holder p x (x.openMdsSession r) := by
  unfold openMdsSession
  split
  · rename_i inst hi
    obtain ⟨info, hi, hinst⟩ := Option.map_eq_some_iff.mp hi
    exact connectSession_moves (fun _ => ⟨h, hi⟩) hinst
  · exact .refl x

theorem openMdsSession_requests : (x.openMdsSession r).requests = x.requests := by
  unfold openMdsSession
  split
  · exact connectSession_requests
  · rfl

theorem connectTarget_moves (r : ℕ) : Moves holder p x (x.connectTarget r) := by
  unfold connectTarget
  split
  · rename_i h
    exact openMdsSession_moves h.1
  · exact .refl x

theorem connectTarget_requests (r : ℕ) : (x.connectTarget r).requests = x.requests := by
  unfold connectTarget
  split
  · exact openMdsSession_requests
  · rfl

/-- A loop of turns that each open sessions only, and leave the requests. -/
theorem connectMdsTargets_moves (hm : x.mdsmap.Assigned holder) : Moves holder p x (x.connectMdsTargets r) := by
  unfold connectMdsTargets
  generalize ((x.mdsmap.info r).map MdsInfo.exportTargets).getD [] = qs
  induction qs generalizing x with
  | nil => exact .refl x
  | cons q qs ih =>
    have h : Moves holder p x (x.connectTarget q) := connectTarget_moves q
    exact h.trans (ih (h.assigned hm)) hm

theorem connectMdsTargets_requests : (x.connectMdsTargets r).requests = x.requests := by
  unfold connectMdsTargets
  generalize ((x.mdsmap.info r).map MdsInfo.exportTargets).getD [] = qs
  induction qs generalizing x with
  | nil => rfl
  | cons q qs ih => exact ih.trans (connectTarget_requests q)

end Connections

/-! ## Requests -/

section Requests

variable {holder : ℕ → ℕ} {p : ℕ → Prop} {x : State} {r con : ℕ} {s : MetaSession}

theorem sendAll_moves (f : MetaRequest → Bool) : Moves holder p x (x.sendAll r con f) :=
  ⟨rfl, rfl, fun _ _ _ h => h, fun _ _ => .inl rfl⟩

/-- Sending requests, of which the unsafe ones are on the list of the session. -/
theorem sendAll_sentIf {ok : ℕ → Prop} {f : MetaRequest → Bool} (hs : x.sessions r = some s)
    (hf : ∀ q, f q = true → q.gotUnsafe = true → q.unsafeItem = some r) (h : x.SentIf ok) :
    (x.sendAll r s.con f).SentIf ok := by
  intro t q r' ht hr
  obtain ⟨q₀, hq₀, rfl⟩ := Option.map_eq_some_iff.mp ht
  by_cases hq : f q₀ = true
  · rw [if_pos hq] at hr ⊢
    cases hr
    exact ⟨Nat.succ_ne_zero _, hf q₀ hq, s, hs, fun _ => List.mem_cons_self⟩
  · rw [if_neg hq] at hr ⊢
    exact h t q₀ r' hq₀ hr

/-- `resend_unsafe_requests` sends every request of the rank. -/
theorem resendUnsafeRequests_sent (hs : x.sessions r = some s) (h : x.SentIf (· ≠ r)) :
    (x.resendUnsafeRequests r s.con).Sent := by
  intro t q r' ht hr
  have h₀ : (x.sendAll r s.con fun q => q.unsafeItem = some r).SentIf (· ≠ r) :=
    sendAll_sentIf hs (fun q hq _ => by simpa using hq) h
  have h' : (x.resendUnsafeRequests r s.con).SentIf (· ≠ r) :=
    sendAll_sentIf hs (fun q hq hg => by simp [hg] at hq) h₀
  obtain ⟨h₁, h₂, s', hs', h₃⟩ := h' t q r' ht hr
  refine ⟨h₁, h₂, s', hs', fun _ => ?_⟩
  by_cases hj : r' = r
  · -- a request that neither loop sends has another rank
    rw [hj] at hs' hr
    cases hs.symm.trans hs'
    obtain ⟨q₁, hq₁, rfl⟩ := Option.map_eq_some_iff.mp ht
    obtain ⟨q₀, hq₀, rfl⟩ := Option.map_eq_some_iff.mp hq₁
    by_cases hu : q₀.unsafeItem = some r
    · simp only [hu, decide_true, if_true]
      split
      · exact List.mem_cons_self
      · exact List.mem_cons_self
    · simp only [hu, decide_false, Bool.false_eq_true, if_false] at hr ⊢
      have hr₀ : q₀.mds = some r := by
        split at hr
        · simp_all
        · exact hr
      obtain ⟨hn, hg, -⟩ := h t q₀ r hq₀ hr₀
      have hg' : q₀.gotUnsafe = false := by
        by_contra hc
        exact hu (hg (by simpa using hc))
      simp only [hg', hn, hr₀, Bool.not_false, decide_true, Bool.and_self, ne_eq, not_false_eq_true, if_true]
      exact List.mem_cons_self
  · exact h₃ hj

end Requests

/-! ## One turn of the loop -/

section Turn

variable {holder : ℕ → ℕ} {x y : State} {r inst : ℕ} {s : MetaSession} {oldmap : MdsMap} {oldstate : DaemonState}

theorem Moves.tidy (h : Moves holder (fun _ => True) x y) (hs : y.Sent) (ht : x.Tidy holder) : y.Tidy holder :=
  ⟨h.assigned ht.assigned, fun r => h.owned ht.assigned trivial (ht.owned r), hs⟩

/-- A turn that moves the session of `r`, to a connection of its own. -/
theorem Moves.tidy_of_ne (h : Moves holder (· ≠ r) x y) (ho : y.Owned holder r) (hs : y.Sent) (ht : x.Tidy holder) :
    y.Tidy holder := by
  refine ⟨h.assigned ht.assigned, fun r' => ?_, hs⟩
  by_cases hj : r' = r
  · rw [hj]
    exact ho
  · exact h.owned ht.assigned hj (ht.owned r')

theorem markDown_get {i con : ℕ} {c : Connection} (h : x.cons[i]? = some c) :
    (x.markDown con).cons[i]? = some (if con = i then { c with down := true } else c) := by
  simp only [markDown, List.getElem?_modify, h]
  split <;> simp_all

theorem resetSession_session (hs : x.sessions r = some s) :
    ∃ inst, (x.resetSession r s).sessions r = some { s with inst } := by
  unfold resetSession
  split
  · rename_i inst hi
    exact ⟨inst, by simp [putSession]⟩
  · exact ⟨s.inst, hs⟩

theorem resetSession_get {i : ℕ} {c : Connection} (h : x.cons[i]? = some c) :
    (x.resetSession r s).cons[i]? = some (if s.con = i then { c with down := true } else c) := by
  unfold resetSession
  split <;> exact markDown_get h

theorem resetSession_moves (hs : x.sessions r = some s) (ho : x.Owned holder r) :
    Moves holder (· ≠ r) x (x.resetSession r s) := by
  obtain ⟨c₀, hc₀, hh⟩ := ho s hs
  refine ⟨?_, ?_, fun i c hc hi => ?_, fun r' hr => .inl ?_⟩
  · unfold resetSession
    split <;> rfl
  · unfold resetSession
    split <;> rfl
  · rw [resetSession_get hi, if_neg]
    intro he
    rw [he, hi] at hc₀
    cases hc₀
    exact hc hh
  · unfold resetSession
    split
    · simp [putSession, hr, markDown]
    · rfl

theorem resetSession_tidy (hs : x.sessions r = some s) (ht : x.Tidy holder) : (x.resetSession r s).Tidy holder := by
  obtain ⟨inst, hs'⟩ := resetSession_session hs
  have hq : (x.resetSession r s).requests = x.requests := by
    unfold resetSession
    split <;> rfl
  have hm := resetSession_moves hs (ht.owned r)
  refine hm.tidy_of_ne ?_ ?_ ht
  · intro s' h'
    obtain ⟨c, hc, hh⟩ := ht.owned r s hs
    cases hs'.symm.trans h'
    refine ⟨_, resetSession_get hc, ?_⟩
    split <;> exact hh
  · intro t q r' htq hr
    rw [hq] at htq
    obtain ⟨h₁, h₂, s₁, hs₁, h₃⟩ := ht.sent t q r' htq hr
    by_cases hj : r' = r
    · rw [hj] at hs₁ ⊢
      cases hs.symm.trans hs₁
      exact ⟨h₁, by rwa [hj] at h₂, _, hs', h₃⟩
    · exact ⟨h₁, h₂, s₁, hm.session hj hs₁, h₃⟩

/-- What `enterReconnect` and `enterActive` do: the session of `r` may move too. -/
structure Turn (holder : ℕ → ℕ) (r : ℕ) (x y : State) : Prop where
  moves : Moves holder (· ≠ r) x y
  tidy : y.Tidy holder
  session : y.sessions r ≠ none

theorem Turn.trans {z : State} (h : Turn holder r x y) (h' : Turn holder r y z) (hm : x.mdsmap.Assigned holder) :
    Turn holder r x z := ⟨h.moves.trans h'.moves hm, h'.tidy, h'.session⟩

theorem reconnectSession_turn {info : MdsInfo} (hi : x.mdsmap.info r = some info)
    (ht : x.Tidy holder) : Turn holder r x (x.reconnectSession r info.inst) ∧
      (x.reconnectSession r info.inst).Good r := by
  have h₁ : Moves holder (· ≠ r) x (x.connectSession r info.inst) :=
    connectSession_moves (fun h => absurd rfl h) (rfl : info.inst = info.inst)
  have hm := h₁.assigned ht.assigned
  have h₂ : Moves holder (fun _ => True) _ _ := connectMdsTargets_moves (r := r) hm
  have hs₂ := h₂.session trivial connectSession_self
  have h₃ : ((x.connectSession r info.inst).connectMdsTargets r).SentIf (· ≠ r) := by
    apply h₂.sentIf connectMdsTargets_requests
    intro t q r' htq hr
    rw [connectSession_requests] at htq
    obtain ⟨e₁, e₂, s₁, hs₁, e₃⟩ := ht.sent t q r' htq hr
    by_cases hj : r' = r
    · rw [hj] at e₂ ⊢
      exact ⟨e₁, e₂, _, connectSession_self, fun h => absurd rfl h⟩
    · exact ⟨e₁, e₂, s₁, h₁.session hj hs₁, fun _ => e₃ trivial⟩
  have h₄ : Moves holder (fun _ => True) ((x.connectSession r info.inst).connectMdsTargets r)
      (x.reconnectSession r info.inst) := ⟨rfl, rfl, fun _ _ _ h => h, fun _ _ => .inl rfl⟩
  have hmv := (h₁.trans ((h₂.trans h₄ hm).mono fun _ _ => trivial) ht.assigned)
  have hl := (h₂.trans h₄ hm).live hm trivial (r := r) (by rw [h₁.mdsmap]; exact hi) connectSession_live
  have hs₄ := h₄.session trivial hs₂
  refine ⟨⟨hmv, ?_, ?_⟩, ?_⟩
  · apply hmv.tidy_of_ne ?_ (resendUnsafeRequests_sent hs₂ h₃) ht
    intro s' hs'
    cases hs₄.symm.trans hs'
    exact ⟨_, hl.2, ht.assigned r info hi⟩
  · intro h
    rw [hs₄] at h
    cases h
  · intro s' info' hs' hi' _
    rw [hmv.mdsmap, hi] at hi'
    cases hi'
    cases hs₄.symm.trans hs'
    exact .inr hl

theorem Turn.refl (hs : x.sessions r ≠ none) (ht : x.Tidy holder) : Turn holder r x x := ⟨.refl x, ht, hs⟩

theorem enterReconnect_turn (hs : x.sessions r ≠ none) (ht : x.Tidy holder) :
    Turn holder r x (x.enterReconnect r) := by
  unfold enterReconnect
  split
  · rename_i inst hi
    obtain ⟨info, hinfo, rfl⟩ := Option.map_eq_some_iff.mp hi
    split
    · exact (reconnectSession_turn hinfo ht).1
    · exact .refl hs ht
  · exact .refl hs ht

/-- A session that is live unless its rank is in reconnect is live after it. -/
theorem enterReconnect_good (ht : x.Tidy holder)
    (h : x.Follows (fun _ info => info.state = .reconnect) r) : (x.enterReconnect r).Good r := by
  unfold enterReconnect
  split
  · rename_i inst hi
    obtain ⟨info, hinfo, rfl⟩ := Option.map_eq_some_iff.mp hi
    split
    · exact (reconnectSession_turn hinfo ht).2
    · rename_i hn
      intro s' info' hs' hi' hst
      refine (h s' info' hs' hi' hst).imp (fun he => hn ?_) id
      simp [MdsMap.getState, hi', he]
  · rename_i hi
    intro s' info' hs' hi'
    simp [MdsMap.getInst, hi'] at hi

theorem activeSession_moves (hm : x.mdsmap.Assigned holder) (con : ℕ) :
    Moves holder (fun _ => True) x (x.activeSession oldstate r con) := by
  unfold activeSession
  split
  · exact (sendAll_moves _).trans (connectMdsTargets_moves hm) hm
  · exact connectMdsTargets_moves hm

theorem activeSession_sent (hs : x.sessions r = some s) (ht : x.Tidy holder) :
    (x.activeSession oldstate r s.con).Sent := by
  unfold activeSession
  split
  · have hk : (x.kickRequests r s.con).Sent := sendAll_sentIf hs (fun q hq hg => by simp [hg] at hq) ht.sent
    have hm : (x.kickRequests r s.con).mdsmap.Assigned holder := ht.assigned
    exact (connectMdsTargets_moves hm).sentIf connectMdsTargets_requests hk
  · exact (connectMdsTargets_moves ht.assigned).sentIf connectMdsTargets_requests ht.sent

theorem enterActive_moves (hm : x.mdsmap.Assigned holder) :
    Moves holder (fun _ => True) x (x.enterActive oldstate r) := by
  unfold enterActive
  split
  · split
    · exact activeSession_moves hm _
    · exact .refl x
  · exact .refl x

theorem enterActive_tidy (ht : x.Tidy holder) : (x.enterActive oldstate r).Tidy holder := by
  apply (enterActive_moves ht.assigned).tidy ?_ ht
  unfold enterActive
  split
  · rename_i s hs
    split
    · exact activeSession_sent hs ht
    · exact ht.sent
  · exact ht.sent

theorem enterState_turn (hs : x.sessions r ≠ none) (ht : x.Tidy holder) :
    Turn holder r x (x.enterState oldstate r) := by
  have h := enterReconnect_turn hs ht
  have h' : Moves holder (fun _ => True) _ ((x.enterReconnect r).enterActive oldstate r) :=
    enterActive_moves h.tidy.assigned
  refine h.trans ⟨h'.mono fun _ _ => trivial, enterActive_tidy h.tidy, ?_⟩ ht.assigned
  obtain ⟨s, hs⟩ := Option.ne_none_iff_exists'.mp h.session
  rw [enterState, h'.session trivial hs]
  exact Option.some_ne_none s

theorem enterState_good (hs : x.sessions r ≠ none) (ht : x.Tidy holder)
    (h : x.Follows (fun _ info => info.state = .reconnect) r) : (x.enterState oldstate r).Good r := by
  have h' := enterReconnect_turn hs ht
  exact (enterActive_moves h'.tidy.assigned).follows h'.tidy.assigned trivial (enterReconnect_good ht h)

/-- The session of a rank with another instance: only reconnect gets it a connection. -/
theorem resetSession_follows (hs : x.sessions r = some s) (hn : x.mdsmap.getInst r ≠ some s.inst)
    (ht : x.Tidy holder) (h : x.Follows (Reconnects oldmap r) r) :
    (x.resetSession r s).Follows (fun _ info => info.state = .reconnect) r := by
  intro s' info hs' hi hst
  rw [(resetSession_moves hs (ht.owned r)).mdsmap] at hi
  obtain h' | h' := h s info hs hi hst
  · exact .inl h'.1
  · refine absurd ?_ hn
    simp [MdsMap.getInst, hi, h'.1]

theorem resetRank_turn (hs : x.sessions r ≠ none) (ht : x.Tidy holder) :
    Turn holder r x (resetRank oldmap x r) := by
  obtain ⟨s, hs'⟩ := Option.ne_none_iff_exists'.mp hs
  simp only [resetRank, hs']
  split
  · obtain ⟨inst, hr⟩ := resetSession_session hs'
    have hr : (x.resetSession r s).sessions r ≠ none := by simp [hr]
    have h : Turn holder r x (x.resetSession r s) := ⟨resetSession_moves hs' (ht.owned r), resetSession_tidy hs' ht, hr⟩
    exact h.trans (enterState_turn hr h.tidy) ht.assigned
  · split
    · exact .refl hs ht
    · exact enterState_turn hs ht

theorem resetRank_good (hs : x.sessions r ≠ none) (ht : x.Tidy holder)
    (h : x.Follows (Reconnects oldmap r) r) : (resetRank oldmap x r).Good r := by
  obtain ⟨s, hs'⟩ := Option.ne_none_iff_exists'.mp hs
  simp only [resetRank, hs']
  split
  · rename_i hn
    obtain ⟨inst, hr⟩ := resetSession_session hs'
    exact enterState_good (by simp [hr]) (resetSession_tidy hs' ht) (resetSession_follows hs' hn ht h)
  · rename_i hn
    split
    · rename_i he
      intro s₁ info hs₁ hi hst
      refine (h s₁ info hs₁ hi hst).imp (fun hr => ?_) id
      cases hs'.symm.trans hs₁
      simp only [MdsMap.getInst, hi, Option.map_some, ne_eq, Option.some.injEq, not_not] at hn
      -- nothing has changed
      refine hr.2.elim (· hn) (· ?_)
      rw [he]
      simp [MdsMap.getState, hi, hr.1]
    · refine enterState_good hs ht fun s₁ info hs₁ hi hst => ?_
      exact (h s₁ info hs₁ hi hst).imp (fun hr => hr.1) id

end Turn

/-! ## The loop -/

section Loop

variable {holder : ℕ → ℕ} {x : State}

/-- One turn: every rank keeps what it has, and `r` is live after it. -/
theorem resetRank_step (oldmap : MdsMap) (ht : x.Tidy holder) (r : ℕ) :
    (resetRank oldmap x r).Tidy holder ∧ (resetRank oldmap x r).mdsmap = x.mdsmap ∧
      (resetRank oldmap x r).ranks = x.ranks ∧ ∀ r', x.Follows (Reconnects oldmap r') r' →
        (resetRank oldmap x r).Follows (Reconnects oldmap r') r' ∧
        (r' = r ∨ x.Good r' → (resetRank oldmap x r).Good r') := by
  by_cases hs : x.sessions r = none
  · have he : resetRank oldmap x r = x := by simp [resetRank, hs]
    rw [he]
    refine ⟨ht, rfl, rfl, fun r' h => ⟨h, ?_⟩⟩
    rintro (rfl | h)
    · intro s info hs'
      rw [hs] at hs'
      cases hs'
    · exact h
  · have hturn : Turn holder r x (resetRank oldmap x r) := resetRank_turn hs ht
    refine ⟨hturn.tidy, hturn.moves.mdsmap, hturn.moves.ranks, fun r' h => ?_⟩
    by_cases hj : r' = r
    · rw [hj] at h ⊢
      have hg := resetRank_good hs ht h
      exact ⟨fun s info hs hi hst => .inr ((hg s info hs hi hst).resolve_left id), fun _ => hg⟩
    · refine ⟨hturn.moves.follows ht.assigned hj h, fun hg => ?_⟩
      exact hturn.moves.follows ht.assigned hj (hg.resolve_left hj)

/-- The loop of `handle_mds_map`. -/
theorem foldl_resetRank (oldmap : MdsMap) (rs : List ℕ) (ht : x.Tidy holder) :
    (rs.foldl (resetRank oldmap) x).Tidy holder ∧ (rs.foldl (resetRank oldmap) x).mdsmap = x.mdsmap ∧
      (rs.foldl (resetRank oldmap) x).ranks = x.ranks ∧ ∀ r, x.Follows (Reconnects oldmap r) r →
        (r ∈ rs ∨ x.Good r → (rs.foldl (resetRank oldmap) x).Good r) := by
  induction rs generalizing x with
  | nil =>
    refine ⟨ht, rfl, rfl, fun r _ h => h.resolve_left (by simp)⟩
  | cons r rs ih =>
    obtain ⟨h₁, h₂, h₃, h₄⟩ := resetRank_step oldmap ht r
    obtain ⟨e₁, e₂, e₃, e₄⟩ := ih h₁
    refine ⟨e₁, e₂.trans h₂, e₃.trans h₃, fun r' h hr => ?_⟩
    obtain ⟨h₅, h₆⟩ := h₄ r' h
    refine e₄ r' h₅ ?_
    by_cases hm : r' ∈ rs
    · exact .inl hm
    · refine .inr (h₆ (hr.imp (fun h => ?_) id))
      exact (List.mem_cons.mp h).resolve_right hm

/-- `handle_mds_map` keeps what holds in every run. -/
theorem handleMdsMap_tidy {m : MdsMap} (ht : x.Tidy holder) (hm : m.Assigned holder) :
    (x.handleMdsMap m).Tidy holder := by
  unfold handleMdsMap
  split
  · exact ht
  · have ht' : Tidy holder { x with mdsmap := m } := ⟨hm, ht.owned, ht.sent⟩
    exact (foldl_resetRank _ _ ht').1

/-- A steady map leaves every session live. -/
theorem handleMdsMap_good {m : MdsMap} (ht : x.Tidy holder) (hg : ∀ r, x.Good r) (h : x.Steady holder (.mdsmap m)) :
    ∀ r, (x.handleMdsMap m).Good r := by
  obtain ⟨hm, hlt, hsteady⟩ := h
  unfold handleMdsMap
  split
  · exact hg
  · intro r
    have ht' : Tidy holder { x with mdsmap := m } := ⟨hm, ht.owned, ht.sent⟩
    obtain ⟨-, h₂, -, h₄⟩ := foldl_resetRank x.mdsmap (List.range x.ranks) ht'
    by_cases hr : r < x.ranks
    · exact h₄ r (fun s info => hsteady r s info) (.inl (List.mem_range.mpr hr))
    · -- no rank of the map
      intro s info _ hi
      rw [h₂] at hi
      exact absurd (hlt r (by rw [hi]; exact Option.some_ne_none info)) hr

end Loop

/-! ## Runs -/

section Runs

variable {holder : ℕ → ℕ} {x y : State} {a : Action} {as : List Action}

/-- What holds in every run of steady maps. -/
structure Sound (holder : ℕ → ℕ) (x : State) : Prop where
  tidy : x.Tidy holder
  good : ∀ r, x.Good r

theorem putRequest_sound {t : ℕ} {q : Option MetaRequest} (h : x.Sound holder)
    (hq : ∀ q', q = some q' → ∀ r, q'.mds = some r → q'.retryAttempt ≠ 0 ∧
      (q'.gotUnsafe = true → q'.unsafeItem = some r) ∧ ∃ s, x.sessions r = some s ∧ s.con ∈ q'.sentOn) :
    (x.putRequest t q).Sound holder := by
  refine ⟨⟨h.tidy.assigned, h.tidy.owned, fun t' q' r ht hr => ?_⟩, h.good⟩
  by_cases hj : t' = t
  · rw [hj] at ht
    obtain ⟨h₁, h₂, s, hs, h₃⟩ := hq q' (by simpa [putRequest] using ht) r hr
    exact ⟨h₁, h₂, s, hs, fun _ => h₃⟩
  · exact h.tidy.sent t' q' r (by simpa [putRequest, hj] using ht) hr

theorem Moves.sound (h : Moves holder (fun _ => True) x y) (hq : y.requests = x.requests) (hx : x.Sound holder) :
    y.Sound holder :=
  ⟨h.tidy (h.sentIf hq hx.tidy.sent) hx.tidy, fun r => h.follows hx.tidy.assigned trivial (hx.good r)⟩

theorem step_sound (hx : x.Sound holder) (hok : x.Steady holder a) (h : x.step a = some y) : y.Sound holder := by
  cases a with
  | mdsmap m =>
    cases h
    exact ⟨handleMdsMap_tidy hx.tidy hok.1, handleMdsMap_good hx.tidy hx.good hok⟩
  | openSession r =>
    obtain ⟨hg, ⟨⟩⟩ := Option.ite_none_right_eq_some.mp h
    exact (openMdsSession_moves hg.1).sound openMdsSession_requests hx
  | sessionOpen r =>
    obtain ⟨-, ⟨⟩⟩ := Option.ite_none_right_eq_some.mp h
    exact (connectMdsTargets_moves hx.tidy.assigned).sound connectMdsTargets_requests hx
  | send t r =>
    simp only [step] at h
    split at h
    · rename_i s hs
      obtain ⟨hg, ⟨⟩⟩ := Option.ite_none_left_eq_some.mp h
      apply putRequest_sound hx
      rintro q' ⟨⟩ r' ⟨⟩
      exact ⟨Nat.succ_ne_zero _, fun hc => absurd hc hg, s, hs, List.mem_cons_self⟩
    · cases h
  | forward t =>
    obtain ⟨q, -, rfl⟩ := Option.map_eq_some_iff.mp h
    apply putRequest_sound hx
    rintro q' ⟨⟩ r ⟨⟩
  | replyUnsafe t =>
    obtain ⟨q, hq, rfl⟩ := Option.map_eq_some_iff.mp h
    split
    · exact hx
    · apply putRequest_sound hx
      rintro q' ⟨⟩ r hr
      obtain ⟨h₁, -, s, hs, h₃⟩ := hx.tidy.sent t q r hq hr
      exact ⟨h₁, fun _ => hr, s, hs, h₃ trivial⟩
  | finish t =>
    cases h
    exact putRequest_sound hx fun q' h => by cases h

theorem Sound.followsMap (h : x.Sound holder) : x.FollowsMap := by
  refine ⟨fun r s info hs hi hst => ?_, fun r s info hs hi hst => ?_, fun t q r s info hq hr hs _ _ => ?_⟩
  · exact ((h.good r s info hs hi hst).resolve_left id).1
  · exact ⟨_, ((h.good r s info hs hi hst).resolve_left id).2, rfl, rfl⟩
  · obtain ⟨-, -, s', hs', hc⟩ := h.tidy.sent t q r hq hr
    cases hs.symm.trans hs'
    exact hc trivial

/-- The sessions follow the map in every run of steady maps, from any sessions
that follow it and any requests that have been sent on them. -/
theorem follows_mdsmap (hx : x.Sound holder) (hok : Meets step (Steady holder) x as)
    (h : run step x as = some y) : y.FollowsMap :=
  (run_invariant_of (fun _ _ _ => step_sound) hx hok h).followsMap

/-! ## A map that skips reconnect -/

/-- A rank with one instance, to which the client has a session, and a request in flight. -/
def oneSession : State where
  mdsmap := ⟨1, fun r => if r = 0 then some ⟨1, .active, []⟩ else none⟩
  cons := [⟨1, false⟩]
  ranks := 1
  sessions r := if r = 0 then some ⟨1, 0⟩ else none
  requests t := if t = 0 then some { mds := some 0, retryAttempt := 1, item := some 0, sentOn := [0] } else none

/-- The maps in which another instance takes the rank over, with the state `st`. -/
def takeover (epoch : ℕ) (st : DaemonState) : MdsMap := ⟨epoch, fun r => if r = 0 then some ⟨2, st, []⟩ else none⟩

theorem oneSession_sound : oneSession.Sound fun _ => 0 := by
  refine ⟨⟨fun r info hi => ?_, fun r s hs => ?_, fun t q r ht hr => ?_⟩, fun r s info hs hi _ => ?_⟩
  · obtain ⟨rfl, -⟩ := Option.ite_none_right_eq_some.mp hi
    rfl
  · obtain ⟨rfl, hs⟩ := Option.ite_none_right_eq_some.mp hs
    cases hs
    exact ⟨⟨1, false⟩, rfl, rfl⟩
  · obtain ⟨-, ht⟩ := Option.ite_none_right_eq_some.mp ht
    cases ht
    cases hr
    exact ⟨by decide, by decide, ⟨1, 0⟩, rfl, fun _ => List.mem_cons_self⟩
  · obtain ⟨-, hs⟩ := Option.ite_none_right_eq_some.mp hs
    obtain ⟨-, hi⟩ := Option.ite_none_right_eq_some.mp hi
    cases hs
    cases hi
    exact .inr ⟨rfl, rfl⟩

theorem takeover_info {epoch r : ℕ} {st : DaemonState} {info : MdsInfo}
    (h : (takeover epoch st).info r = some info) : r = 0 ∧ info = ⟨2, st, []⟩ := by
  obtain ⟨rfl, h⟩ := Option.ite_none_right_eq_some.mp h
  exact ⟨rfl, (Option.some.inj h).symm⟩

theorem takeover_assigned (epoch : ℕ) (st : DaemonState) : (takeover epoch st).Assigned fun _ => 0 :=
  fun _ _ hi => (takeover_info hi).1.symm

theorem takeover_lt {epoch r : ℕ} {st : DaemonState} (h : (takeover epoch st).info r ≠ none) : r < 1 := by
  obtain ⟨info, hi⟩ := Option.ne_none_iff_exists'.mp h
  rw [(takeover_info hi).1]
  exact Nat.one_pos

/-- The takeover through replay and reconnect. -/
theorem follows_mdsmap_takeover : ∃ y, run step oneSession
    [.mdsmap (takeover 2 .replay), .mdsmap (takeover 3 .reconnect), .mdsmap (takeover 5 .active)] = some y ∧
      y.FollowsMap := by
  have hrun : run step oneSession [.mdsmap (takeover 2 .replay), .mdsmap (takeover 3 .reconnect),
      .mdsmap (takeover 5 .active)] = some _ := rfl
  refine ⟨_, hrun, follows_mdsmap oneSession_sound ?_ hrun⟩
  refine ⟨⟨takeover_assigned _ _, fun _ => takeover_lt, fun r s info _ hi hst => ?_⟩, ?_⟩
  · obtain ⟨rfl, rfl⟩ := takeover_info hi
    exact absurd hst (by decide)
  rintro _ ⟨⟩
  refine ⟨⟨takeover_assigned _ _, fun _ => takeover_lt, fun r s info _ hi hst => .inl ?_⟩, ?_⟩
  · obtain ⟨rfl, rfl⟩ := takeover_info hi
    exact ⟨rfl, .inr (by decide +kernel)⟩
  rintro _ ⟨⟩
  refine ⟨⟨takeover_assigned _ _, fun _ => takeover_lt, fun r s info hs hi hst => .inr ?_⟩, fun _ _ => trivial⟩
  obtain ⟨rfl, rfl⟩ := takeover_info hi
  have h : ((oneSession.handleMdsMap (takeover 2 .replay)).handleMdsMap (takeover 3 .reconnect)).sessions 0 =
      some ⟨2, 1⟩ := by decide +kernel
  cases h.symm.trans hs
  exact ⟨rfl, by decide +kernel⟩

/-- The map in which the other instance is active already: the session keeps
the connection that was marked down. -/
theorem not_follows_mdsmap : ¬ ∀ (holder : ℕ → ℕ) (x y : State) (as : List Action), x.Sound holder →
    Meets step (fun x a => ∀ m, a = .mdsmap m → m.Assigned holder ∧ (∀ r, m.info r ≠ none → r < x.ranks) ∧
      x.mdsmap.epoch < m.epoch) x as →
    run step x as = some y → y.FollowsMap := by
  intro h
  have hf := h (fun _ => 0) oneSession _ [.mdsmap (takeover 3 .active)] oneSession_sound
    ⟨by rintro _ ⟨⟩; exact ⟨takeover_assigned _ _, fun _ => takeover_lt, by decide⟩, fun _ _ => trivial⟩ rfl
  have hs : (oneSession.handleMdsMap (takeover 3 .active)).sessions 0 = some ⟨2, 0⟩ := by decide +kernel
  have hc : (oneSession.handleMdsMap (takeover 3 .active)).cons = [⟨1, true⟩] := by decide +kernel
  obtain ⟨c, hc', -, hd⟩ := hf.con 0 ⟨2, 0⟩ ⟨2, .active, []⟩ hs rfl (by decide)
  rw [hc] at hc'
  cases hc'
  cases hd

end Runs

end State

end CephMds.Client
