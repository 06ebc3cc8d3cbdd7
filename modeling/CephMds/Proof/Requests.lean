import CephMds.Model.Requests
import Mathlib

/-!
# A retried request takes effect at most once

A request that has been journaled is in `active_requests` until its reply, and
then in the completed requests, so a message that comes again is dropped or
answered. `Ordered` says of the messages that are to come, and of those that
are kept back, that a tid is not trimmed while one of them may still ask for
it; `Tables` says what the two tables and the messages kept back have in
common. The contexts of the finished queue run while `advancing`, and no
completion of the journal comes between them (`quiet`).

A message that is deferred while the beacon is laggy is still to come. One
that is handled before it may trim what it asks for, so that it is executed
again (`not_run_atMostOnce`); where none is (`InOrder`) the messages are
handled as they have been sent.
-/

namespace CephMds.Requests.State

variable {requests : ℕ → Request} {s s' : State} {m m' : MClientRequest} {t c : ℕ}

/-- The messages that have not been handled yet: those that are deferred, and the channel. -/
def coming (s : State) : List MClientRequest := s.waitingForNolaggy ++ s.channel

/-- A message that is kept back. -/
def Kept (s : State) (m : MClientRequest) : Prop :=
  m ∈ s.waitingForOpen ∨ m ∈ s.finishedQueue ∨ ∃ t w, s.activeRequests t = some (.slave w) ∧ m ∈ w

def Held (s : State) (m : MClientRequest) : Prop := m ∈ s.coming ∨ s.Kept m

def Master (s : State) (t : ℕ) : Prop := ∃ req has committing c, s.activeRequests t = some (.client req has committing c)

def Committing (s : State) (t : ℕ) : Prop := ∃ req has c, s.activeRequests t = some (.client req has true c)

def Journaled (s : State) (t : ℕ) : Prop := ∃ e ∈ s.executed, e.tid = t ∧ e.journaled = true

/-- The request is done, with this inode. -/
def Took (s : State) (t c : ℕ) : Prop :=
  ∃ e ∈ s.executed, e.tid = t ∧ e.created = c ∧ (e.journaled = true → t ∈ s.applied)

def Reached (s : State) (t : ℕ) : Prop := s.Master t ∨ ∃ e ∈ s.executed, e.tid = t

/-! ## The order of the messages -/

/-- A message may be handled before another: it is not of the request that the
other is the first message of, and trims nothing that the other asks for. -/
def Before (m m' : MClientRequest) : Prop :=
  (m'.retryAttempt = 0 → m.tid ≠ m'.tid) ∧ (m'.retryAttempt ≠ 0 → m.oldestClientTid ≤ m'.tid)

structure Ordered (s : State) : Prop where
  known (m : MClientRequest) : s.Held m → m.tid ≤ s.lastTid ∧ m.oldestClientTid ≤ s.lastTid
  waiting (t : ℕ) : t ∈ s.waiting → t ≤ s.lastTid ∧ ∀ m, s.Held m → m.oldestClientTid ≤ t
  reached (t : ℕ) : s.Reached t → t ≤ s.lastTid
  coming : s.coming.Pairwise Before
  kept (m : MClientRequest) : s.Kept m → ∀ m' ∈ s.coming, Before m m'
  fresh (m : MClientRequest) : m ∈ s.coming → m.retryAttempt = 0 → ∀ t, s.Reached t → t ≠ m.tid

/-- A message that is being handled. -/
structure InHand (s : State) (m : MClientRequest) : Prop where
  known : m.tid ≤ s.lastTid ∧ m.oldestClientTid ≤ s.lastTid
  waiting (t : ℕ) : t ∈ s.waiting → m.oldestClientTid ≤ t
  before (m' : MClientRequest) : m' ∈ s.coming → Before m m'

/-- The MDS keeps messages back, or registers requests, of those in hand. -/
theorem Ordered.mono (h : s.Ordered) (hand : MClientRequest → Prop) (hand_ok : ∀ m, hand m → s.InHand m)
    (hch : s'.coming = s.coming) (hw : s'.waiting = s.waiting) (hl : s'.lastTid = s.lastTid)
    (hk : ∀ m, s'.Kept m → s.Kept m ∨ hand m)
    (hr : ∀ t, s'.Reached t → s.Reached t ∨ ∃ m, hand m ∧ m.tid = t) : s'.Ordered := by
  have hheld : ∀ m, s'.Held m → s.Held m ∨ hand m := by
    rintro m (hm | hm)
    · exact .inl (.inl (hch ▸ hm))
    · rcases hk m hm with hm | hm
      · exact .inl (.inr hm)
      · exact .inr hm
  constructor
  · intro m hm
    rw [hl]
    rcases hheld m hm with hm | hm
    · exact h.known m hm
    · exact (hand_ok m hm).known
  · intro t ht
    rw [hw] at ht
    rw [hl]
    refine ⟨(h.waiting t ht).1, fun m hm => ?_⟩
    rcases hheld m hm with hm | hm
    · exact (h.waiting t ht).2 m hm
    · exact (hand_ok m hm).waiting t ht
  · intro t ht
    rw [hl]
    rcases hr t ht with ht | ⟨m, hm, rfl⟩
    · exact h.reached t ht
    · exact (hand_ok m hm).known.1
  · rw [hch]
    exact h.coming
  · intro m hm m' hm'
    rw [hch] at hm'
    rcases hk m hm with hm | hm
    · exact h.kept m hm m' hm'
    · exact (hand_ok m hm).before m' hm'
  · intro m' hm' hfirst t ht
    rw [hch] at hm'
    rcases hr t ht with ht | ⟨m, hm, rfl⟩
    · exact h.fresh m' hm' hfirst t ht
    · exact ((hand_ok m hm).before m' hm').1 hfirst

/-- Nothing that was not there is kept back or registered. -/
theorem Ordered.shrink (h : s.Ordered) (hch : s'.coming = s.coming) (hw : s'.waiting = s.waiting)
    (hl : s'.lastTid = s.lastTid) (hk : ∀ m, s'.Kept m → s.Kept m) (hr : ∀ t, s'.Reached t → s.Reached t) :
    s'.Ordered :=
  h.mono (fun _ => False) nofun hch hw hl (fun m hm => .inl (hk m hm)) fun t ht => .inl (hr t ht)

/-- One of the messages that are to come is handled, before the others. -/
theorem Ordered.take (h : s.Ordered) (hm : m ∈ s.coming) (hsub : s'.coming.Sublist s.coming)
    (hbefore : ∀ x ∈ s'.coming, Before m x) (hw : s'.waiting = s.waiting) (hl : s'.lastTid = s.lastTid)
    (hk : ∀ x, s'.Kept x → s.Kept x) (hr : ∀ t, s'.Reached t → s.Reached t) : s'.Ordered ∧ s'.InHand m := by
  have hheld : ∀ x, s'.Held x → s.Held x := fun x hx => hx.imp (hsub.subset ·) (hk x)
  refine ⟨⟨fun x hx => hl ▸ h.known x (hheld x hx), fun t ht => ?_, fun t ht => hl ▸ h.reached t (hr t ht),
    h.coming.sublist hsub, fun x hx y hy => h.kept x (hk x hx) y (hsub.subset hy),
    fun x hx h₀ t ht => h.fresh x (hsub.subset hx) h₀ t (hr t ht)⟩,
    hl ▸ h.known m (.inl hm), fun t ht => (h.waiting t (hw ▸ ht)).2 m (.inl hm), hbefore⟩
  obtain ⟨hle, hold⟩ := h.waiting t (hw ▸ ht)
  exact ⟨hl ▸ hle, fun x hx => hold x (hheld x hx)⟩

theorem Ordered.inHand (h : s.Ordered) (hm : s.Kept m) : s.InHand m :=
  ⟨h.known m (.inr hm), fun t ht => (h.waiting t ht).2 m (.inr hm), h.kept m hm⟩

/-- The client sends a message, of a new request or of one that it waits for. -/
theorem Ordered.push (h : s.Ordered) (hch : s'.coming = s.coming ++ [m]) (hl : s.lastTid ≤ s'.lastTid)
    (hm : m.tid ≤ s'.lastTid ∧ m.oldestClientTid ≤ s'.lastTid)
    (hw : ∀ t ∈ s'.waiting, (t ∈ s.waiting ∨ s.lastTid < t ∧ t ≤ s'.lastTid) ∧ m.oldestClientTid ≤ t)
    (hk : ∀ x, s'.Kept x ↔ s.Kept x) (hr : ∀ t, s'.Reached t ↔ s.Reached t)
    (hfirst : m.retryAttempt = 0 → s.lastTid < m.tid) (hagain : m.retryAttempt ≠ 0 → m.tid ∈ s.waiting) :
    s'.Ordered := by
  have hheld : ∀ x, s'.Held x → s.Held x ∨ x = m := by
    rintro x (hx | hx)
    · rw [hch, List.mem_append, List.mem_singleton] at hx
      exact hx.imp_left .inl
    · exact .inl (.inr ((hk x).mp hx))
  have hbefore : ∀ x, s.Held x → Before x m := by
    intro x hx
    refine ⟨fun h₀ => ?_, fun h₀ => (h.waiting m.tid (hagain h₀)).2 x hx⟩
    exact ((h.known x hx).1.trans_lt (hfirst h₀)).ne
  constructor
  · intro x hx
    rcases hheld x hx with hx | rfl
    · exact ⟨(h.known x hx).1.trans hl, (h.known x hx).2.trans hl⟩
    · exact hm
  · intro t ht
    obtain ⟨hold, hmt⟩ := hw t ht
    have hle : t ≤ s'.lastTid ∧ ∀ x, s.Held x → x.oldestClientTid ≤ t := by
      rcases hold with hold | ⟨hlt, hle⟩
      · exact ⟨(h.waiting t hold).1.trans hl, (h.waiting t hold).2⟩
      · exact ⟨hle, fun x hx => (h.known x hx).2.trans hlt.le⟩
    refine ⟨hle.1, fun x hx => ?_⟩
    rcases hheld x hx with hx | rfl
    · exact hle.2 x hx
    · exact hmt
  · intro t ht
    exact (h.reached t ((hr t).mp ht)).trans hl
  · rw [hch]
    refine List.pairwise_append.mpr ⟨h.coming, List.pairwise_singleton _ _, fun x hx y hy => ?_⟩
    rw [List.mem_singleton.mp hy]
    exact hbefore x (.inl hx)
  · intro x hx y hy
    rw [hch, List.mem_append, List.mem_singleton] at hy
    rcases hy with hy | rfl
    · exact h.kept x ((hk x).mp hx) y hy
    · exact hbefore x (.inr ((hk x).mp hx))
  · intro x hx h₀ t ht
    rw [hch, List.mem_append, List.mem_singleton] at hx
    rcases hx with hx | rfl
    · exact h.fresh x hx h₀ t ((hr t).mp ht)
    · exact ((h.reached t ((hr t).mp ht)).trans_lt (hfirst h₀)).ne

/-! ## The tables -/

/-- A mutating request other than OPEN and CREATE. -/
def Mutates (requests : ℕ → Request) (t : ℕ) : Prop := (requests t).op.mutates = true

/-- A message asks for what the client wants; or for a lookup, when the request is done. -/
structure Fits (requests : ℕ → Request) (s : State) (m : MClientRequest) : Prop where
  op : m.op.mayWrite = true → m.op = (requests m.tid).op
  took : Mutates requests m.tid → m.op.mayWrite = false → ∃ c, s.Took m.tid c

/-- A reply that reports success stands for an execution, with its inode where the list of completed requests is asked. -/
def Answered (requests : ℕ → Request) (s : State) (r : MClientReply) : Prop :=
  (r.fromCompleted = true → r.result = 0 ∧ r.unsafeReply = false) ∧
  (r.result = 0 → Mutates requests r.tid ∨ r.fromCompleted = true → ∃ e ∈ s.executed, e.tid = r.tid ∧
    (r.unsafeReply = false → e.journaled = true → r.tid ∈ s.applied) ∧
    (r.fromCompleted = true → r.extra = extraBl e.created))

/-- A request may still be asked for. -/
def Asked (s : State) (t : ℕ) : Prop := t ∈ s.waiting ∨ ∃ m ∈ s.coming, m.tid = t ∧ m.retryAttempt ≠ 0

/-- What holds of one tid. -/
structure Row (requests : ℕ → Request) (s : State) (t : ℕ) : Prop where
  fits (m : MClientRequest) : s.Held m → m.tid = t → Fits requests s m
  found : s.Asked t → s.Journaled t → s.Committing t ∨ (s.completedRequests t).isSome = true
  slave (w : List MClientRequest) : s.activeRequests t = some (.slave w) → ∀ m ∈ w, m.tid = t
  quiet (m : MClientRequest) : s.Kept m → m.tid = t → Mutates requests t → m.op.mayWrite = true →
    (s.Master t → s.advancing = true) ∧ (s.Journaled t → s.advancing = true ∧ s.Committing t)
  client {req : MClientRequest} {has committing : Bool} {c : ℕ} :
    s.activeRequests t = some (.client req has committing c) → req.tid = t ∧ Fits requests s req
  idle {req : MClientRequest} {has : Bool} {c : ℕ} : s.activeRequests t = some (.client req has false c) →
    c = 0 ∧ (req.op.mayWrite = true → Mutates requests t → ¬ s.Journaled t)
  committing {req : MClientRequest} {has : Bool} {c : ℕ} : s.activeRequests t = some (.client req has true c) →
    req.op.mayWrite = true ∧ ⟨t, c, true⟩ ∈ s.executed ∧ (Mutates requests t → t ∉ s.applied)
  completed {c : ℕ} : s.completedRequests t = some c → s.Took t c
  applied : t ∈ s.applied → s.Journaled t
  once : Mutates requests t → (s.executed.filter fun e => e.tid = t ∧ e.journaled = true).length ≤ 1
  appliedOnce : Mutates requests t → s.applied.count t ≤ 1
  replied (r : MClientReply) : r ∈ s.replied → r.tid = t → Answered requests s r

structure Tables (requests : ℕ → Request) (s : State) : Prop where
  row (t : ℕ) : Row requests s t
  closed : s.isOpen = false → s.executed = [] ∧ ∀ t, ¬ s.Master t
  opened : s.isOpen = true → s.waitingForOpen = []

theorem Answered.mono {r : MClientReply} (h : Answered requests s r) (he : s.executed ⊆ s'.executed)
    (ha : s.applied ⊆ s'.applied) : Answered requests s' r := by
  refine ⟨h.1, fun hr hm => ?_⟩
  obtain ⟨e, hmem, ht, happ, hx⟩ := h.2 hr hm
  exact ⟨e, he hmem, ht, fun hu hj => ha (happ hu hj), hx⟩

theorem Took.mono (h : s.Took t c) (he : s.executed ⊆ s'.executed) (ha : s.applied ⊆ s'.applied) : s'.Took t c := by
  obtain ⟨e, hmem, ht, hc, happ⟩ := h
  exact ⟨e, he hmem, ht, hc, fun hj => ha (happ hj)⟩

theorem Fits.mono (h : Fits requests s m) (he : s.executed ⊆ s'.executed) (ha : s.applied ⊆ s'.applied) :
    Fits requests s' m := by
  refine ⟨h.op, fun hm hw => ?_⟩
  obtain ⟨c, hc⟩ := h.took hm hw
  exact ⟨c, hc.mono he ha⟩

theorem Fits.congr (h : Fits requests s m) (he : s'.executed = s.executed) (ha : s'.applied = s.applied) :
    Fits requests s' m :=
  h.mono (he ▸ List.Subset.refl _) (ha ▸ List.Subset.refl _)

theorem Committing.master (h : s.Committing t) : s.Master t := by
  obtain ⟨req, has, c, h⟩ := h
  exact ⟨req, has, true, c, h⟩

/-- Two states say the same of a tid, but for messages that are there no more, and for `advancing`. -/
structure Agree (s s' : State) (t : ℕ) : Prop where
  active : s'.activeRequests t = s.activeRequests t
  completed : s'.completedRequests t = s.completedRequests t
  executed (e : Execution) : e.tid = t → (e ∈ s'.executed ↔ e ∈ s.executed)
  executed_filter : (s'.executed.filter fun e => e.tid = t ∧ e.journaled = true) =
    s.executed.filter fun e => e.tid = t ∧ e.journaled = true
  applied : s'.applied.count t = s.applied.count t
  replied (r : MClientReply) : r.tid = t → r ∈ s'.replied → r ∈ s.replied
  held (m : MClientRequest) : m.tid = t → s'.Held m → s.Held m
  kept (m : MClientRequest) : m.tid = t → s'.Kept m → s.Kept m
  asked : s'.Asked t → s.Asked t
  advancing : s.advancing = true → s'.advancing = true

namespace Agree

variable (h : Agree s s' t)
include h

theorem journaled : s'.Journaled t ↔ s.Journaled t := by
  constructor
  · rintro ⟨e, he, ht, hj⟩
    exact ⟨e, (h.executed e ht).mp he, ht, hj⟩
  · rintro ⟨e, he, ht, hj⟩
    exact ⟨e, (h.executed e ht).mpr he, ht, hj⟩

theorem mem_applied : t ∈ s'.applied ↔ t ∈ s.applied := by
  rw [← List.count_pos_iff, ← List.count_pos_iff, h.applied]

theorem took (hc : s.Took t c) : s'.Took t c := by
  obtain ⟨e, he, ht, hc, ha⟩ := hc
  exact ⟨e, (h.executed e ht).mpr he, ht, hc, fun hj => h.mem_applied.mpr (ha hj)⟩

theorem fits (hm : m.tid = t) (hf : Fits requests s m) : Fits requests s' m := by
  subst hm
  refine ⟨hf.op, fun hmut hw => ?_⟩
  obtain ⟨c, hc⟩ := hf.took hmut hw
  exact ⟨c, h.took hc⟩

theorem row (hr : Row requests s t) : Row requests s' t := by
  have hcom : s'.Committing t ↔ s.Committing t := by
    unfold Committing
    rw [h.active]
  have hmas : s'.Master t ↔ s.Master t := by
    unfold Master
    rw [h.active]
  constructor
  · exact fun m hm ht => h.fits ht (hr.fits m (h.held m ht hm) ht)
  · intro ha hj
    rw [hcom, h.completed]
    exact hr.found (h.asked ha) (h.journaled.mp hj)
  · rw [h.active]
    exact hr.slave
  · intro m hm ht hmut hw
    obtain ⟨h₁, h₂⟩ := hr.quiet m (h.kept m ht hm) ht hmut hw
    rw [hcom, hmas, h.journaled]
    exact ⟨fun hm => h.advancing (h₁ hm), fun hj => ⟨h.advancing (h₂ hj).1, (h₂ hj).2⟩⟩
  · intro req has committing c hreq
    rw [h.active] at hreq
    exact ⟨(hr.client hreq).1, h.fits (hr.client hreq).1 (hr.client hreq).2⟩
  · intro req has c hreq
    rw [h.active] at hreq
    rw [h.journaled]
    exact hr.idle hreq
  · intro req has c hreq
    rw [h.active] at hreq
    obtain ⟨hw, he, ha⟩ := hr.committing hreq
    exact ⟨hw, (h.executed _ rfl).mpr he, fun hm ht => ha hm (h.mem_applied.mp ht)⟩
  · intro c hc
    rw [h.completed] at hc
    exact h.took (hr.completed hc)
  · rw [h.mem_applied, h.journaled]
    exact hr.applied
  · rw [h.executed_filter]
    exact hr.once
  · rw [h.applied]
    exact hr.appliedOnce
  · intro r hmem ht
    have hans := hr.replied r (h.replied r ht hmem) ht
    refine ⟨hans.1, fun hres hm => ?_⟩
    obtain ⟨e, he, het, ha, hx⟩ := hans.2 hres hm
    refine ⟨e, (h.executed e (het.trans ht)).mpr he, het, fun hu hj => ?_, hx⟩
    have := ha hu hj
    rw [ht] at this ⊢
    exact h.mem_applied.mpr this

end Agree

theorem Agree.refl : Agree s s t :=
  ⟨rfl, rfl, fun _ _ => .rfl, rfl, rfl, fun _ _ h => h, fun _ _ h => h, fun _ _ h => h, id, id⟩

theorem Agree.trans {u : State} (h : Agree s s' t) (h' : Agree s' u t) : Agree s u t where
  active := h'.active.trans h.active
  completed := h'.completed.trans h.completed
  executed e he := (h'.executed e he).trans (h.executed e he)
  executed_filter := h'.executed_filter.trans h.executed_filter
  applied := h'.applied.trans h.applied
  replied r hr hm := h.replied r hr (h'.replied r hr hm)
  held m hm hh := h.held m hm (h'.held m hm hh)
  kept m hm hk := h.kept m hm (h'.kept m hm hk)
  asked ha := h.asked (h'.asked ha)
  advancing ha := h'.advancing (h.advancing ha)

/-! ## What the pieces change -/

theorem kept_setRequest {x : Option Mdr} :
    (s.setRequest t x).Kept m → s.Kept m ∨ ∃ w, x = some (.slave w) ∧ m ∈ w := by
  rintro (hm | hm | ⟨t', w, hw, hm⟩)
  · exact .inl (.inl hm)
  · exact .inl (.inr (.inl hm))
  · by_cases ht : t' = t
    · subst ht
      exact .inr ⟨w, by simpa [setRequest] using hw, hm⟩
    · exact .inl (.inr (.inr ⟨t', w, by simpa [setRequest, Function.update_of_ne ht] using hw, hm⟩))

theorem agree_setRequest {x : Option Mdr} {u : ℕ} (hx : ∀ w, x = some (.slave w) → ∀ m ∈ w, m.tid = u ∨ s.Kept m)
    (hne : t ≠ u) : Agree s (s.setRequest u x) t := by
  have hkept : ∀ m : MClientRequest, m.tid = t → (s.setRequest u x).Kept m → s.Kept m := by
    intro m ht hm
    rcases kept_setRequest hm with hm | ⟨w, hw, hm⟩
    · exact hm
    · exact (hx w hw m hm).resolve_left fun hu => hne (ht.symm.trans hu)
  refine ⟨Function.update_of_ne hne _ _, rfl, fun _ _ => .rfl, rfl, rfl, fun _ _ h => h, fun m ht hm => ?_, hkept, id, id⟩
  exact hm.imp_right (hkept m ht)

theorem agree_addCompletedRequest {u c : ℕ} (hne : t ≠ u) : Agree s (s.addCompletedRequest u c) t :=
  ⟨rfl, Function.update_of_ne hne _ _, fun _ _ => .rfl, rfl, rfl, fun _ _ h => h, fun _ _ h => h, fun _ _ h => h, id, id⟩

theorem agree_sendMessage {r : MClientReply} (hne : t ≠ r.tid) : Agree s (s.sendMessage r) t := by
  refine ⟨rfl, rfl, fun _ _ => .rfl, rfl, rfl, fun r' hr' hm => ?_, fun _ _ h => h, fun _ _ h => h, id, id⟩
  rcases List.mem_append.mp hm with hm | hm
  · exact hm
  · rw [List.mem_singleton.mp hm] at hr'
    exact absurd hr'.symm hne

theorem agree_executed {e : Execution} (hne : t ≠ e.tid) : Agree s { s with executed := s.executed ++ [e] } t := by
  refine ⟨rfl, rfl, fun e' he' => ?_, ?_, rfl, fun _ _ h => h, fun _ _ h => h, fun _ _ h => h, id, id⟩
  · have : e' ≠ e := fun h => hne (he'.symm.trans (congrArg Execution.tid h))
    simp [this]
  · have : ¬ (e.tid = t ∧ e.journaled = true) := fun h => hne h.1.symm
    simp [this]

theorem agree_applied {u : ℕ} (hne : t ≠ u) : Agree s { s with applied := s.applied ++ [u] } t := by
  refine ⟨rfl, rfl, fun _ _ => .rfl, rfl, ?_, fun _ _ h => h, fun _ _ h => h, fun _ _ h => h, id, id⟩
  simp [hne.symm]

theorem trim_row {o : ℕ} (h : Row requests s t) (ho : s.Asked t → o ≤ t) : Row requests (s.trimCompletedRequests o) t := by
  by_cases hlt : t < o
  · have hc : (s.trimCompletedRequests o).completedRequests t = none := if_pos hlt
    have hno : ¬ s.Asked t := fun ha => absurd (ho ha) (not_le.mpr hlt)
    exact ⟨fun m hm ht => (h.fits m hm ht).congr rfl rfl, fun ha => absurd ha hno, h.slave, h.quiet,
      fun hreq => ⟨(h.client hreq).1, (h.client hreq).2.congr rfl rfl⟩, fun hreq => h.idle hreq,
      fun hreq => h.committing hreq, fun hc' => by (cases hc.symm.trans hc'), h.applied, h.once, h.appliedOnce, h.replied⟩
  · refine Agree.row ?_ h
    exact ⟨rfl, if_neg hlt, fun _ _ => .rfl, rfl, rfl, fun _ _ h => h, fun _ _ h => h, fun _ _ h => h, id, id⟩

theorem InHand.asked (h : s.InHand m) (ha : s.Asked t) : m.oldestClientTid ≤ t := by
  rcases ha with ha | ⟨m', hm', rfl, hre⟩
  · exact h.waiting t ha
  · exact (h.before m' hm').2 hre

/-- The finished queue runs, or has no message of the tid. -/
def Clear (s : State) (t : ℕ) : Prop := s.advancing = true ∨ ∀ x ∈ s.finishedQueue, x.tid ≠ t

/-- What is kept back then waits for its turn in the finished queue that runs, or for a slave request. -/
theorem Tables.clear {x : MClientRequest} (h : Tables requests s) (hopen : s.isOpen = true) (hc : s.Clear t)
    (hx : s.Kept x) (hxt : x.tid = t) : s.advancing = true ∨ ∃ w, s.activeRequests t = some (.slave w) := by
  refine hc.imp_right fun hc => ?_
  rcases hx with hx | hx | ⟨u, w, hw, hx⟩
  · rw [h.opened hopen] at hx
    cases hx
  · exact absurd hxt (hc x hx)
  · obtain rfl : u = t := ((h.row u).slave w hw x hx).symm.trans hxt
    exact ⟨w, hw⟩

/-- `request_start`, of a message that is not to be answered. -/
theorem Tables.requestStart {has : Bool} (h : Tables requests s) (hopen : s.isOpen = true) (hadv : s.Clear m.tid)
    (hf : Fits requests s m)
    (hq : Mutates requests m.tid → m.op.mayWrite = true → s.Journaled m.tid → s.Committing m.tid) :
    Tables requests (s.requestStart m has) := by
  have hr := h.row m.tid
  unfold State.requestStart
  split
  · -- the message waits until the slave request is finished
    rename_i w hw
    have hnot : ¬ s.Master m.tid := by
      rintro ⟨req, has, b, c, hact⟩
      cases hw.symm.trans hact
    refine ⟨fun t => ?_, fun hc => absurd (hopen.symm.trans hc) (by decide), h.opened⟩
    by_cases ht : t = m.tid
    · subst ht
      have hact : (s.setRequest m.tid (some (.slave (w ++ [m])))).activeRequests m.tid = some (.slave (w ++ [m])) :=
        Function.update_self _ _ _
      have hmaster : ¬ (s.setRequest m.tid (some (.slave (w ++ [m])))).Master m.tid := by
        rintro ⟨req, has, b, c, hact'⟩
        cases hact.symm.trans hact'
      have hkept : ∀ x, (s.setRequest m.tid (some (.slave (w ++ [m])))).Kept x → s.Kept x ∨ x = m := by
        intro x hx
        rcases kept_setRequest hx with hx | ⟨w', hw', hx⟩
        · exact .inl hx
        · cases hw'
          rcases List.mem_append.mp hx with hx | hx
          · exact .inl (.inr (.inr ⟨m.tid, w, hw, hx⟩))
          · exact .inr (List.mem_singleton.mp hx)
      have hjournaled : Mutates requests m.tid → ∀ x, s.Kept x ∨ x = m → x.tid = m.tid → x.op.mayWrite = true →
          ¬ s.Journaled m.tid := by
        rintro hmut x (hx | rfl) hxt hxw hj
        · exact hnot ((hr.quiet x hx hxt hmut hxw).2 hj).2.master
        · exact hnot (hq hmut hxw hj).master
      refine ⟨fun x hx hxt => ?_, fun ha hj => ?_, fun w' hw' x hx => ?_, fun x hx hxt hmut hxw => ?_,
        fun hreq => ?_, fun hreq => ?_, fun hreq => ?_, hr.completed, hr.applied, hr.once, hr.appliedOnce, hr.replied⟩
      · refine Fits.congr (s := s) ?_ rfl rfl
        rcases hx with hx | hx
        · exact hr.fits x (.inl hx) hxt
        · rcases hkept x hx with hx | rfl
          · exact hr.fits x (.inr hx) hxt
          · exact hf
      · refine .inr ((hr.found ha hj).resolve_left fun hc => hnot hc.master)
      · cases hact.symm.trans hw'
        rcases List.mem_append.mp hx with hx | hx
        · exact hr.slave w hw x hx
        · rw [List.mem_singleton.mp hx]
      · exact ⟨fun hm => absurd hm hmaster, fun hj => absurd hj (hjournaled hmut x (hkept x hx) hxt hxw)⟩
      · cases hact.symm.trans hreq
      · cases hact.symm.trans hreq
      · cases hact.symm.trans hreq
    · refine (agree_setRequest (fun w' hw' x hx => ?_) ht).row (h.row t)
      cases hw'
      rcases List.mem_append.mp hx with hx | hx
      · exact .inl (hr.slave w hw x hx)
      · exact .inl (congrArg MClientRequest.tid (List.mem_singleton.mp hx))
  · exact h
  · -- a new request
    rename_i hnone
    have hnot : ¬ s.Committing m.tid := by
      rintro ⟨req, has, c, hact⟩
      cases hnone.symm.trans hact
    refine ⟨fun t => ?_, fun hc => absurd (hopen.symm.trans hc) (by decide), h.opened⟩
    by_cases ht : t = m.tid
    · subst ht
      have hact : (s.setRequest m.tid (some (.client m has false 0))).activeRequests m.tid =
          some (.client m has false 0) := Function.update_self _ _ _
      have hkept : ∀ x, (s.setRequest m.tid (some (.client m has false 0))).Kept x → s.Kept x := by
        intro x hx
        rcases kept_setRequest hx with hx | ⟨w', hw', hx⟩
        · exact hx
        · cases hw'
      refine ⟨fun x hx hxt => (hr.fits x (hx.imp_right (hkept x)) hxt).congr rfl rfl, fun ha hj => ?_, fun w' hw' => ?_,
        fun x hx hxt hmut hxw => ?_, fun hreq => ?_, fun hreq => ?_, fun hreq => ?_, hr.completed, hr.applied, hr.once,
        hr.appliedOnce, hr.replied⟩
      · exact .inr ((hr.found ha hj).resolve_left hnot)
      · cases hact.symm.trans hw'
      · refine ⟨fun _ => ?_, fun hj => absurd ((hr.quiet x (hkept x hx) hxt hmut hxw).2 hj).2 hnot⟩
        refine (h.clear hopen hadv (hkept x hx) hxt).resolve_right ?_
        rintro ⟨w, hw⟩
        cases hnone.symm.trans hw
      · cases hact.symm.trans hreq
        exact ⟨rfl, hf.congr rfl rfl⟩
      · cases hact.symm.trans hreq
        exact ⟨rfl, fun hw hmut hj => hnot (hq hmut hw hj)⟩
      · cases hact.symm.trans hreq
    · exact (agree_setRequest (fun w' hw' => by cases hw') ht).row (h.row t)

theorem reached_setRequest {x : Option Mdr} {u : ℕ} (h : (s.setRequest u x).Reached t) :
    s.Reached t ∨ t = u ∧ ∃ req has b c, x = some (.client req has b c) := by
  rcases h with ⟨req, has, b, c, h⟩ | h
  · by_cases ht : t = u
    · subst ht
      exact .inr ⟨rfl, req, has, b, c, by simpa [setRequest] using h⟩
    · exact .inl (.inl ⟨req, has, b, c, by simpa [setRequest, Function.update_of_ne ht] using h⟩)
  · exact .inl (.inr h)

theorem toLookup_same : (toLookup m).tid = m.tid ∧ (toLookup m).oldestClientTid = m.oldestClientTid := by
  unfold toLookup
  split <;> exact ⟨rfl, rfl⟩

theorem InHand.toLookup (h : s.InHand m) : s.InHand (toLookup m) := by
  obtain ⟨ht, ho⟩ := toLookup_same (m := m)
  refine ⟨by rw [ht, ho]; exact h.known, fun t hw => ho ▸ h.waiting t hw, fun m' hm' => ?_⟩
  unfold Before
  rw [ht, ho]
  exact h.before m' hm'

theorem Ordered.register {has : Bool} (h : s.Ordered) (hm : s.InHand m) : (s.register m has).Ordered := by
  obtain ⟨u, hu⟩ : ∃ u, u = if m.oldestClientTid > 0 then s.trimCompletedRequests m.oldestClientTid else s := ⟨_, rfl⟩
  have hs : u.Ordered ∧ u.InHand m := by
    rw [hu]
    split
    · exact ⟨h.shrink rfl rfl rfl (fun _ hx => hx) fun _ hx => hx, hm.known, hm.waiting, hm.before⟩
    · exact ⟨h, hm⟩
  have hreg : s.register m has = u.requestStart m has := by
    rw [hu]
    rfl
  rw [hreg]
  unfold State.requestStart
  split
  · rename_i w hw
    refine hs.1.mono (fun x => x = m) (fun x hx => hx ▸ hs.2) rfl rfl rfl (fun x hx => ?_) fun t ht => ?_
    · rcases kept_setRequest hx with hx | ⟨w', hw', hx⟩
      · exact .inl hx
      · cases hw'
        rcases List.mem_append.mp hx with hx | hx
        · exact .inl (.inr (.inr ⟨_, w, hw, hx⟩))
        · exact .inr (List.mem_singleton.mp hx)
    · exact .inl ((reached_setRequest ht).resolve_right fun ⟨_, _, _, _, _, hc⟩ => by cases hc)
  · exact hs.1
  · refine hs.1.mono (fun x => x = m) (fun x hx => hx ▸ hs.2) rfl rfl rfl (fun x hx => ?_) fun t ht => ?_
    · rcases kept_setRequest hx with hx | ⟨w', hw', hx⟩
      · exact .inl hx
      · cases hw'
    · exact (reached_setRequest ht).imp_right fun hx => ⟨m, rfl, hx.1.symm⟩

theorem Ordered.handle (h : s.Ordered) (hm : s.InHand m) : (s.handleClientRequest m).Ordered := by
  unfold State.handleClientRequest
  split
  · split
    · split
      · split
        · exact h.shrink rfl rfl rfl (fun _ hx => hx) fun _ hx => hx
        · exact h.register hm.toLookup
      · exact h.register hm
    · exact h.register hm
  · refine h.mono (fun x => x = m) (fun x hx => hx ▸ hm) rfl rfl rfl (fun x hx => ?_) fun t ht => .inl ht
    rcases hx with hx | hx
    · rcases List.mem_append.mp hx with hx | hx
      · exact .inl (.inl hx)
      · exact .inr (List.mem_singleton.mp hx)
    · exact .inl (.inr hx)

theorem Tables.register {has : Bool} (h : Tables requests s) (hin : s.InHand m) (hopen : s.isOpen = true)
    (hadv : s.Clear m.tid) (hf : Fits requests s m)
    (hq : Mutates requests m.tid → m.op.mayWrite = true → s.Journaled m.tid → s.Committing m.tid) :
    Tables requests (s.register m has) := by
  unfold State.register
  split
  · refine Tables.requestStart ?_ hopen hadv (hf.congr rfl rfl) hq
    exact ⟨fun t => trim_row (h.row t) hin.asked, h.closed, h.opened⟩
  · exact h.requestStart hopen hadv hf hq

theorem fits_toLookup (hf : Fits requests s m) (hc : s.Took m.tid c) : Fits requests s (toLookup m) := by
  unfold toLookup
  split
  · exact hf
  · refine ⟨fun hw => ?_, fun _ _ => ⟨c, hc⟩⟩
    cases hd : m.dentryWanted <;> simp [hd, Op.mayWrite] at hw

/-- What is looked up does not change anything. -/
theorem mayWrite_toLookup (hf : Fits requests s m) (hm : Mutates requests m.tid) : (toLookup m).op.mayWrite = false := by
  unfold toLookup
  split
  · rename_i ho
    by_contra hw
    have hop := hf.op (Bool.not_eq_false _ ▸ hw)
    unfold Mutates Op.mutates at hm
    rw [← hop, ho] at hm
    simp at hm
  · cases hd : m.dentryWanted <;> simp [Op.mayWrite]

theorem Tables.handle (h : Tables requests s) (hin : s.InHand m) (hadv : s.Clear m.tid) (hf : Fits requests s m)
    (hq : Mutates requests m.tid → m.op.mayWrite = true → s.Journaled m.tid → s.Committing m.tid ∨
      (s.completedRequests m.tid).isSome = true ∧ (m.isReplay || m.retryAttempt ≠ 0) = true) :
    Tables requests (s.handleClientRequest m) := by
  unfold State.handleClientRequest
  split
  · rename_i hopen
    split
    · rename_i hre
      split
      · rename_i created hc
        have htook : s.Took m.tid created := (h.row m.tid).completed hc
        split
        · -- answered
          refine ⟨fun t => ?_, h.closed, h.opened⟩
          by_cases ht : t = m.tid
          · subst ht
            have hr := h.row m.tid
            refine ⟨fun x hx hxt => (hr.fits x hx hxt).congr rfl rfl, hr.found, hr.slave, hr.quiet,
              fun hreq => ⟨(hr.client hreq).1, (hr.client hreq).2.congr rfl rfl⟩, fun hreq => hr.idle hreq,
              fun hreq => hr.committing hreq, fun hc => hr.completed hc, hr.applied, hr.once, hr.appliedOnce,
              fun r hrm hrt => ?_⟩
            rcases List.mem_append.mp hrm with hrm | hrm
            · exact hr.replied r hrm hrt
            · rw [List.mem_singleton.mp hrm]
              obtain ⟨e, he, het, hec, hea⟩ := htook
              exact ⟨fun _ => ⟨rfl, rfl⟩, fun _ _ => ⟨e, he, het, fun _ => hea, fun _ => hec ▸ rfl⟩⟩
          · exact (agree_sendMessage ht).row (h.row t)
        · have hsame := (toLookup_same (m := m)).1
          refine h.register hin.toLookup hopen (hsame ▸ hadv) (fits_toLookup hf htook) fun hm hw => ?_
          rw [hsame] at hm
          exact absurd ((mayWrite_toLookup hf hm).symm.trans hw) (by decide)
      · rename_i hc
        refine h.register hin hopen hadv hf fun hm hw hj => (hq hm hw hj).resolve_right fun hs => ?_
        rw [show s.completedRequests m.tid = none from hc] at hs
        cases hs.1
    · rename_i hre
      exact h.register hin hopen hadv hf fun hm hw hj => (hq hm hw hj).resolve_right fun hs => hre hs.2
  · -- nothing has been done yet
    rename_i hopen
    have hopen : s.isOpen = false := Bool.not_eq_true _ ▸ hopen
    obtain ⟨hexec, hmaster⟩ := h.closed hopen
    refine ⟨fun t => ?_, fun hc => ⟨hexec, hmaster⟩, fun ho => absurd (ho.symm.trans hopen) (by decide)⟩
    have hr := h.row t
    have hno : ¬ s.Journaled t := by
      rintro ⟨e, he, -⟩
      rw [hexec] at he
      cases he
    have hkept : ∀ x, ({ s with waitingForOpen := s.waitingForOpen ++ [m] } : State).Kept x → s.Kept x ∨ x = m := by
      rintro x (hx | hx)
      · rcases List.mem_append.mp hx with hx | hx
        · exact .inl (.inl hx)
        · exact .inr (List.mem_singleton.mp hx)
      · exact .inl (.inr hx)
    refine ⟨fun x hx hxt => Fits.congr (s := s) ?_ rfl rfl, hr.found, hr.slave,
      fun x _ _ _ _ => ⟨fun hm => absurd hm (hmaster t), fun hj => absurd hj hno⟩,
      fun hreq => ⟨(hr.client hreq).1, (hr.client hreq).2.congr rfl rfl⟩, fun hreq => hr.idle hreq,
      fun hreq => hr.committing hreq, fun hc => hr.completed hc, hr.applied, hr.once, hr.appliedOnce, hr.replied⟩
    rcases hx with hx | hx
    · exact hr.fits x (.inl hx) hxt
    · rcases hkept x hx with hx | rfl
      · exact hr.fits x (.inr hx) hxt
      · exact hf

/-! ## The steps -/

structure Inv (requests : ℕ → Request) (s : State) : Prop where
  ordered : s.Ordered
  tables : Tables requests s

theorem inv_initial {mdsEarlyReply isOpen isClientreplay : Bool} :
    Inv requests (initial mdsEarlyReply isOpen isClientreplay) := by
  have hkept : ∀ m, ¬ (initial mdsEarlyReply isOpen isClientreplay).Kept m := by
    rintro m (hm | hm | ⟨t, w, hw, -⟩)
    · cases hm
    · cases hm
    · cases hw
  have hheld : ∀ m, ¬ (initial mdsEarlyReply isOpen isClientreplay).Held m := by
    rintro m (hm | hm)
    · cases hm
    · exact hkept m hm
  have hmaster : ∀ t, ¬ (initial mdsEarlyReply isOpen isClientreplay).Master t := by
    rintro t ⟨_, _, _, _, h⟩
    cases h
  refine ⟨⟨fun m hm => absurd hm (hheld m), fun t ht => absurd ht (Finset.notMem_empty t), ?_, .nil,
    fun m hm => absurd hm (hkept m), nofun⟩, ⟨fun t => ?_, fun _ => ⟨rfl, hmaster⟩, fun _ => rfl⟩⟩
  · rintro t (ht | ⟨e, he, -⟩)
    · exact absurd ht (hmaster t)
    · cases he
  · exact ⟨fun m hm => absurd hm (hheld m), fun _ hj => by (obtain ⟨e, he, -⟩ := hj; cases he), nofun,
      fun m hm => absurd hm (hkept m), nofun, nofun, nofun, nofun, nofun, fun _ => Nat.zero_le _, fun _ => Nat.zero_le _,
      nofun⟩

/-- Nothing is lost that was there: for steps that change no table. -/
theorem Tables.agree (h : Tables requests s) (ha : ∀ t, Agree s s' t) (he : s'.executed = s.executed)
    (hc : s'.isOpen = false → s.isOpen = false) (ho : s'.isOpen = true → s'.waitingForOpen = []) : Tables requests s' := by
  refine ⟨fun t => (ha t).row (h.row t), fun hopen => ?_, ho⟩
  obtain ⟨hexec, hmaster⟩ := h.closed (hc hopen)
  refine ⟨he.trans hexec, fun t => ?_⟩
  unfold Master
  rw [(ha t).active]
  exact hmaster t

/-- The channel grows at its end. -/
theorem coming_push {n : ℕ} {w : Finset ℕ} :
    ({ s with lastTid := n, waiting := w, channel := s.channel ++ [m] } : State).coming = s.coming ++ [m] :=
  (List.append_assoc _ _ _).symm

theorem Tables.push {n : ℕ} {w : Finset ℕ} (h : Tables requests s) (hm : m.op = (requests m.tid).op)
    (ha : ∀ t, ({ s with lastTid := n, waiting := w, channel := s.channel ++ [m] } : State).Asked t →
      s.Journaled t → s.Asked t) :
    Tables requests { s with lastTid := n, waiting := w, channel := s.channel ++ [m] } := by
  refine ⟨fun t => ?_, h.closed, h.opened⟩
  have hr := h.row t
  refine ⟨fun x hx hxt => Fits.congr (s := s) ?_ rfl rfl, fun hask hj => hr.found (ha t hask hj) hj, hr.slave, hr.quiet,
    fun hreq => ⟨(hr.client hreq).1, (hr.client hreq).2.congr rfl rfl⟩, fun hreq => hr.idle hreq,
    fun hreq => hr.committing hreq, fun hc => hr.completed hc, hr.applied, hr.once, hr.appliedOnce, hr.replied⟩
  rcases hx with hx | hx
  · rw [coming_push] at hx
    rcases List.mem_append.mp hx with hx | hx
    · exact hr.fits x (.inl hx) hxt
    · rw [List.mem_singleton.mp hx]
      refine ⟨fun _ => hm, fun hmut hw => ?_⟩
      unfold Mutates Op.mutates at hmut
      rw [← hm, hw] at hmut
      cases hmut
  · exact hr.fits x (.inr hx) hxt

theorem Inv.send {o : ℕ} (h : Inv requests s) (hs : s.step requests (.send o) = some s') : Inv requests s' := by
  simp only [State.step] at hs
  split at hs
  case isFalse => cases hs
  rename_i hc
  obtain ⟨ho, hle⟩ := hc
  cases hs
  refine ⟨h.ordered.push coming_push (Nat.le_succ _) ⟨le_rfl, hle⟩ (fun t ht => ?_) (fun _ => .rfl) (fun _ => .rfl)
    (fun _ => Nat.lt_succ_self _) (fun hre => absurd rfl hre), h.tables.push rfl fun t ha hj => ?_⟩
  · rcases Finset.mem_insert.mp ht with rfl | ht
    · exact ⟨.inr ⟨Nat.lt_succ_self _, le_rfl⟩, hle⟩
    · exact ⟨.inl ht, ho t ht⟩
  · -- the new tid has not been journaled
    have hlt : t ≠ s.lastTid + 1 := by
      rintro rfl
      obtain ⟨e, he, het, -⟩ := hj
      exact absurd (h.ordered.reached _ (.inr ⟨e, he, het⟩)) (by omega)
    rcases ha with ha | ⟨x, hx, hxt, hre⟩
    · exact .inl ((Finset.mem_insert.mp ha).resolve_left hlt)
    · rw [coming_push] at hx
      rcases List.mem_append.mp hx with hx | hx
      · exact .inr ⟨x, hx, hxt, hre⟩
      · rw [List.mem_singleton.mp hx] at hre
        exact absurd rfl hre

theorem Inv.resend {u n o : ℕ} {isReplay : Bool} (h : Inv requests s)
    (hs : s.step requests (.resend u n o isReplay) = some s') : Inv requests s' := by
  simp only [State.step] at hs
  split at hs
  case isFalse => cases hs
  rename_i hc
  obtain ⟨hu, hn, ho⟩ := hc
  cases hs
  have hle := (h.ordered.waiting u hu).1
  refine ⟨h.ordered.push coming_push le_rfl ⟨hle, (ho u hu).trans hle⟩ (fun t ht => ⟨.inl ht, ho t ht⟩) (fun _ => .rfl)
    (fun _ => .rfl) (fun h₀ => absurd h₀ hn) (fun _ => hu), h.tables.push rfl fun t ha _ => ?_⟩
  rcases ha with ha | ⟨x, hx, hxt, hre⟩
  · exact .inl ha
  · have hx : x ∈ ({ s with lastTid := s.lastTid, waiting := s.waiting,
                            channel := s.channel ++ [message requests u n isReplay o] } : State).coming := hx
    rw [coming_push] at hx
    rcases List.mem_append.mp hx with hx | hx
    · exact .inr ⟨x, hx, hxt, hre⟩
    · rw [List.mem_singleton.mp hx] at hxt
      exact .inl (hxt ▸ hu)

theorem Inv.receive (h : Inv requests s) (hs : s.step requests .receive = some s') : Inv requests s' := by
  simp only [State.step] at hs
  split at hs
  case h_2 => cases hs
  cases hs
  have ho := h.ordered
  refine ⟨⟨ho.known, fun t ht => ho.waiting t (Finset.mem_of_mem_erase ht), ho.reached, ho.coming, ho.kept, ho.fresh⟩,
    h.tables.agree (fun t => ?_) rfl id h.tables.opened⟩
  exact ⟨rfl, rfl, fun _ _ => .rfl, rfl, rfl, fun _ _ h => h, fun _ _ h => h, fun _ _ h => h,
    fun ha => ha.imp_left Finset.mem_of_mem_erase, id⟩

/-- Two states have the same tables, and the same messages kept back. -/
structure Alike (s s' : State) : Prop where
  waiting : s'.waiting = s.waiting
  lastTid : s'.lastTid = s.lastTid
  active : s'.activeRequests = s.activeRequests
  completed : s'.completedRequests = s.completedRequests
  executed : s'.executed = s.executed
  applied : s'.applied = s.applied
  replied : s'.replied = s.replied
  waitingForOpen : s'.waitingForOpen = s.waitingForOpen
  finishedQueue : s'.finishedQueue = s.finishedQueue
  isOpen : s'.isOpen = s.isOpen
  advancing : s.advancing = true → s'.advancing = true

theorem Alike.kept (hs : Alike s s') (hm : s'.Kept m) : s.Kept m := by
  unfold Kept at hm
  rwa [hs.waitingForOpen, hs.finishedQueue, hs.active] at hm

theorem Alike.reached (hs : Alike s s') (ht : s'.Reached t) : s.Reached t := by
  unfold Reached Master at ht
  rwa [hs.active, hs.executed] at ht

theorem Alike.tables (hs : Alike s s') (hsub : s'.coming ⊆ s.coming) (h : Tables requests s) : Tables requests s' := by
  refine h.agree (fun t => ?_) hs.executed (fun hc => hs.isOpen ▸ hc)
    fun ho => hs.waitingForOpen ▸ h.opened (hs.isOpen ▸ ho)
  refine ⟨congrFun hs.active t, congrFun hs.completed t, fun e _ => by rw [hs.executed], by rw [hs.executed],
    by rw [hs.applied], fun r _ hr => hs.replied ▸ hr, fun x _ hx => hx.imp (hsub ·) hs.kept, fun x _ hx => hs.kept hx,
    fun hask => ?_, hs.advancing⟩
  unfold Asked at hask ⊢
  rw [hs.waiting] at hask
  exact hask.imp_right fun ⟨x, hx, hxt⟩ => ⟨x, hsub hx, hxt⟩

/-- For steps that change nothing of what the invariant is about. -/
theorem Inv.alike (h : Inv requests s) (hs : Alike s s') (hch : s'.coming = s.coming) : Inv requests s' :=
  ⟨h.ordered.shrink hch hs.waiting hs.lastTid (fun _ => hs.kept) fun _ => hs.reached,
    hs.tables (hch ▸ List.Subset.refl _) h.tables⟩

/-- One of the messages that are to come is handled, before the others. -/
theorem Inv.take (h : Inv requests s) (hs : Alike s s') (hm : m ∈ s.coming) (hsub : s'.coming.Sublist s.coming)
    (hbefore : ∀ x ∈ s'.coming, Before m x) (hc : s'.Clear m.tid) : Inv requests (s'.handleClientRequest m) := by
  obtain ⟨ho, hin⟩ := h.ordered.take hm hsub hbefore hs.waiting hs.lastTid (fun _ => hs.kept) fun _ => hs.reached
  have ht : Tables requests s' := hs.tables hsub.subset h.tables
  have hrow := h.tables.row m.tid
  refine ⟨ho.handle hin, ht.handle hin hc ((hrow.fits m (.inl hm) rfl).congr hs.executed hs.applied) fun _ _ hj => ?_⟩
  have hj : s.Journaled m.tid := by
    unfold Journaled at hj
    rwa [hs.executed] at hj
  have hcom : s'.Committing m.tid ↔ s.Committing m.tid := by
    unfold Committing
    rw [hs.active]
  by_cases hre : m.retryAttempt = 0
  · -- the first message of a request that is not known
    obtain ⟨e, he, het, -⟩ := hj
    exact absurd rfl (h.ordered.fresh m hm hre m.tid (.inr ⟨e, he, het⟩))
  · rw [hcom, hs.completed]
    refine (hrow.found (.inr ⟨m, hm, rfl, hre⟩) hj).imp_right fun hs => ⟨hs, ?_⟩
    rw [Bool.or_eq_true]
    exact .inr (decide_eq_true hre)

/-- The head of the channel is handled, and may be handled before the deferred messages. -/
theorem Inv.arrive (h : Inv requests s) (hs : s.step requests .arrive = some s')
    (hw : ∀ m ∈ s.channel.head?, ∀ x ∈ s.waitingForNolaggy, Before m x) : Inv requests s' := by
  simp only [State.step] at hs
  split at hs
  · rename_i m rest hch
    split at hs
    · cases hs
    · cases hs
      have hw : ∀ x ∈ s.waitingForNolaggy, Before m x := hw m (by rw [hch]; rfl)
      have hcoming : s.coming = s.waitingForNolaggy ++ m :: rest := congrArg (s.waitingForNolaggy ++ ·) hch
      have hpair := h.ordered.coming
      rw [hcoming, List.pairwise_append, List.pairwise_cons] at hpair
      have hsame : Alike s { s with channel := rest, advancing := true } :=
        ⟨rfl, rfl, rfl, rfl, rfl, rfl, rfl, rfl, rfl, rfl, fun _ => rfl⟩
      refine h.take hsame ?_ ?_ (fun x hx => ?_) (.inl rfl)
      · rw [hcoming]
        exact List.mem_append_right _ List.mem_cons_self
      · rw [hcoming]
        exact (List.sublist_cons_self m rest).append_left _
      · exact (List.mem_append.mp hx).elim (hw x) (hpair.2.1.1 x)
  · cases hs

/-- The first of the deferred messages is handled, of a tid that no message of the finished queue has. -/
theorem Inv.undefer (h : Inv requests s) (hs : s.step requests .undefer = some s')
    (hq : ∀ m ∈ s.waitingForNolaggy.head?, ∀ x ∈ s.finishedQueue, x.tid ≠ m.tid) : Inv requests s' := by
  simp only [State.step] at hs
  split at hs
  · rename_i m rest hw
    split at hs
    · cases hs
      have hq : ∀ x ∈ s.finishedQueue, x.tid ≠ m.tid := hq m (by rw [hw]; rfl)
      have hcoming : s.coming = m :: (rest ++ s.channel) := congrArg (· ++ s.channel) hw
      have hpair := h.ordered.coming
      rw [hcoming, List.pairwise_cons] at hpair
      have hsame : Alike s { s with waitingForNolaggy := rest } :=
        ⟨rfl, rfl, rfl, rfl, rfl, rfl, rfl, rfl, rfl, rfl, id⟩
      refine h.take hsame ?_ ?_ hpair.1 (.inr hq)
      · rw [hcoming]
        exact List.mem_cons_self
      · rw [hcoming]
        exact List.sublist_cons_self m _
    · cases hs
  · cases hs

theorem Inv.defer (h : Inv requests s) (hs : s.step requests .defer = some s') : Inv requests s' := by
  simp only [State.step] at hs
  split at hs
  · rename_i m rest hch
    split at hs
    · cases hs
    · cases hs
      refine h.alike ⟨rfl, rfl, rfl, rfl, rfl, rfl, rfl, rfl, rfl, rfl, fun _ => rfl⟩ ?_
      unfold coming
      rw [hch]
      exact List.append_assoc _ _ _
  · cases hs

theorem Inv.advance (h : Inv requests s) (hs : s.step requests .advance = some s') : Inv requests s' := by
  simp only [State.step] at hs
  split at hs
  · cases hs
  · cases hs
    exact h.alike ⟨rfl, rfl, rfl, rfl, rfl, rfl, rfl, rfl, rfl, rfl, fun _ => rfl⟩ rfl

theorem Inv.done (h : Inv requests s) (hs : s.step requests .done = some s') : Inv requests s' := by
  simp only [State.step] at hs
  split at hs
  · cases hs
    exact h.alike ⟨rfl, rfl, rfl, rfl, rfl, rfl, rfl, rfl, rfl, rfl, id⟩ rfl
  · cases hs

theorem Inv.clientreplay {is : Bool} (h : Inv requests s) (hs : s.step requests (.clientreplay is) = some s') :
    Inv requests s' := by
  cases hs
  exact h.alike ⟨rfl, rfl, rfl, rfl, rfl, rfl, rfl, rfl, rfl, rfl, id⟩ rfl

/-- The first message of the finished queue is dispatched again. -/
theorem Inv.retry (h : Inv requests s) (hs : s.step requests .retry = some s') : Inv requests s' := by
  simp only [State.step] at hs
  split at hs
  case h_2 => cases hs
  rename_i m rest hq
  split at hs
  case isFalse => cases hs
  rename_i hadv
  cases hs
  have hkept : ∀ x, ({ s with finishedQueue := rest } : State).Kept x → s.Kept x := by
    rintro x (hx | hx | hx)
    · exact .inl hx
    · exact .inr (.inl (hq ▸ List.mem_cons_of_mem _ hx))
    · exact .inr (.inr hx)
  have hm : s.Kept m := .inr (.inl (hq ▸ List.mem_cons_self))
  have hin := h.ordered.inHand hm
  have hin' : ({ s with finishedQueue := rest } : State).InHand m := ⟨hin.known, hin.waiting, hin.before⟩
  have ho : ({ s with finishedQueue := rest } : State).Ordered := h.ordered.shrink rfl rfl rfl hkept fun _ ht => ht
  have hr := h.tables.row m.tid
  have ht : Tables requests { s with finishedQueue := rest } := by
    refine h.tables.agree (fun t => ?_) rfl id h.tables.opened
    exact ⟨rfl, rfl, fun _ _ => .rfl, rfl, rfl, fun _ _ h => h, fun x _ hx => hx.imp_right (hkept x),
      fun x _ hx => hkept x hx, id, id⟩
  refine ⟨ho.handle hin', ht.handle hin' (.inl hadv) ((hr.fits m (.inr hm) rfl).congr rfl rfl) fun hmut hw hj => ?_⟩
  exact .inl ((hr.quiet m hm rfl hmut hw).2 hj).2

/-- All messages of the finished queue have been dispatched, and the others wait for something else. -/
theorem Inv.drained (h : Inv requests s) (hs : s.step requests .drained = some s') : Inv requests s' := by
  simp only [State.step] at hs
  split at hs
  case isFalse => cases hs
  rename_i hc
  have hq : s.finishedQueue = [] := List.isEmpty_iff.mp (Bool.and_eq_true_iff.mp hc).2
  cases hs
  have ho := h.ordered
  refine ⟨⟨ho.known, ho.waiting, ho.reached, ho.coming, ho.kept, ho.fresh⟩, fun t => ?_, h.tables.closed, h.tables.opened⟩
  have hr := h.tables.row t
  refine ⟨fun x hx hxt => (hr.fits x hx hxt).congr rfl rfl, hr.found, hr.slave, fun x hx hxt hmut hxw => ?_,
    fun hreq => ⟨(hr.client hreq).1, (hr.client hreq).2.congr rfl rfl⟩, fun hreq => hr.idle hreq,
    fun hreq => hr.committing hreq, fun hc => hr.completed hc, hr.applied, hr.once, hr.appliedOnce, hr.replied⟩
  have hnone : ¬ s.Master t := by
    rcases hx with hx | hx | ⟨u, w, hw, hx⟩
    · cases hopen : s.isOpen with
      | false => exact (h.tables.closed hopen).2 t
      | true =>
        have hx : x ∈ s.waitingForOpen := hx
        rw [h.tables.opened hopen] at hx
        cases hx
    · have hx : x ∈ s.finishedQueue := hx
      rw [hq] at hx
      cases hx
    · obtain rfl : u = t := ((h.tables.row u).slave w hw x hx).symm.trans hxt
      rintro ⟨_, _, _, _, hact⟩
      cases hact.symm.trans hw
  exact ⟨fun hm => absurd hm hnone, fun hj => absurd ((hr.quiet x hx hxt hmut hxw).2 hj).2.master hnone⟩

theorem Inv.openRoot (h : Inv requests s) (hs : s.step requests .openRoot = some s') : Inv requests s' := by
  simp only [State.step] at hs
  split at hs
  case isTrue => cases hs
  cases hs
  have hkept : ∀ x, ({ s with isOpen := true, finishedQueue := s.finishedQueue ++ s.waitingForOpen,
                              waitingForOpen := [] } : State).Kept x → s.Kept x := by
    rintro x (hx | hx | hx)
    · cases hx
    · rcases List.mem_append.mp hx with hx | hx
      · exact .inr (.inl hx)
      · exact .inl hx
    · exact .inr (.inr hx)
  refine ⟨h.ordered.shrink rfl rfl rfl hkept fun _ ht => ht, h.tables.agree (fun t => ?_) rfl nofun fun _ => rfl⟩
  exact ⟨rfl, rfl, fun _ _ => .rfl, rfl, rfl, fun _ _ h => h, fun x _ hx => hx.imp_right (hkept x),
    fun x _ hx => hkept x hx, id, id⟩

/-! ## The requests -/

section Requests

variable (h : Inv requests s) {req : MClientRequest} {has b : Bool}
include h

theorem Inv.isOpen (hact : s.activeRequests t = some (.client req has b c)) : s.isOpen = true := by
  by_contra hopen
  exact (h.tables.closed (Bool.not_eq_true _ ▸ hopen)).2 t ⟨req, has, b, c, hact⟩

theorem Inv.slaveStart (hs : s.step requests (.slaveStart t) = some s') : Inv requests s' := by
  simp only [State.step] at hs
  split at hs
  case h_2 => cases hs
  rename_i hnone
  cases hs
  have hkept : ∀ x, (s.setRequest t (some (.slave []))).Kept x → s.Kept x := by
    intro x hx
    rcases kept_setRequest hx with hx | ⟨w, hw, hx⟩
    · exact hx
    · cases hw
      cases hx
  have hreached : ∀ u, (s.setRequest t (some (.slave []))).Reached u → s.Reached u :=
    fun u hu => (reached_setRequest hu).resolve_right fun ⟨_, _, _, _, _, hc⟩ => by cases hc
  have hact : (s.setRequest t (some (.slave []))).activeRequests t = some (.slave []) := Function.update_self _ _ _
  refine ⟨h.ordered.shrink rfl rfl rfl hkept hreached, fun u => ?_, fun hc => ?_, h.tables.opened⟩
  · by_cases hu : u = t
    · subst hu
      have hr := h.tables.row u
      have hnot : ¬ s.Committing u := by
        rintro ⟨_, _, _, hc⟩
        cases hnone.symm.trans hc
      refine ⟨fun x hx hxt => (hr.fits x (hx.imp_right (hkept x)) hxt).congr rfl rfl,
        fun ha hj => .inr ((hr.found ha hj).resolve_left hnot), fun w hw => ?_, fun x hx hxt hmut hxw => ⟨fun hm => ?_,
        fun hj => absurd ((hr.quiet x (hkept x hx) hxt hmut hxw).2 hj).2 hnot⟩, fun hreq => ?_, fun hreq => ?_,
        fun hreq => ?_, hr.completed, hr.applied, hr.once, hr.appliedOnce, hr.replied⟩
      · cases hact.symm.trans hw
        nofun
      · obtain ⟨_, _, _, _, hc⟩ := hm
        cases hact.symm.trans hc
      · cases hact.symm.trans hreq
      · cases hact.symm.trans hreq
      · cases hact.symm.trans hreq
    · refine (agree_setRequest (fun w hw x hx => ?_) hu).row (h.tables.row u)
      cases hw
      cases hx
  · obtain ⟨hexec, hmaster⟩ := h.tables.closed hc
    refine ⟨hexec, fun u hm => ?_⟩
    obtain ⟨_, _, _, _, hm⟩ := hm
    by_cases hu : u = t
    · subst hu
      cases hact.symm.trans hm
    · exact hmaster u ⟨_, _, _, _, by simpa [setRequest, Function.update_of_ne hu] using hm⟩

/-- The messages of a slave request are dispatched again. -/
theorem Inv.slaveFinish (hs : s.step requests (.slaveFinish t) = some s') : Inv requests s' := by
  simp only [State.step] at hs
  split at hs
  case h_2 => cases hs
  rename_i w hw
  have hs' : s' = { s.setRequest t none with finishedQueue := s.finishedQueue ++ w } := (Option.some.inj hs).symm
  have hact : s'.activeRequests t = none := by
    rw [hs']
    exact Function.update_self _ _ _
  have hother : ∀ u, u ≠ t → s'.activeRequests u = s.activeRequests u := by
    intro u hu
    rw [hs']
    exact Function.update_of_ne hu _ _
  have hkept : ∀ x, s'.Kept x → s.Kept x := by
    rintro x (hx | hx | ⟨u, w', hw', hx⟩)
    · rw [hs'] at hx
      exact .inl hx
    · rw [hs'] at hx
      rcases List.mem_append.mp hx with hx | hx
      · exact .inr (.inl hx)
      · exact .inr (.inr ⟨t, w, hw, hx⟩)
    · have hu : u ≠ t := by
        rintro rfl
        cases hact.symm.trans hw'
      exact .inr (.inr ⟨u, w', (hother u hu) ▸ hw', hx⟩)
  have hmaster : ∀ u, s'.Master u → s.Master u := by
    rintro u ⟨req, has, b, c, hm⟩
    have hu : u ≠ t := by
      rintro rfl
      cases hact.symm.trans hm
    exact ⟨req, has, b, c, (hother u hu) ▸ hm⟩
  have hcom : ¬ s.Committing t := by
    rintro ⟨_, _, _, hc⟩
    cases hw.symm.trans hc
  refine ⟨h.ordered.shrink (by rw [hs']; rfl) (by rw [hs']; rfl) (by rw [hs']; rfl) hkept fun u hu => ?_, fun u => ?_,
    fun hc => ?_, fun ho => ?_⟩
  · rw [hs'] at hu
    exact (reached_setRequest (x := none) hu).resolve_right fun ⟨_, _, _, _, _, hc⟩ => by cases hc
  · by_cases hu : u = t
    · subst hu
      have hr := h.tables.row u
      rw [hs'] at hact hkept hmaster ⊢
      refine ⟨fun x hx hxt => (hr.fits x (hx.imp_right (hkept x)) hxt).congr rfl rfl,
        fun ha hj => .inr ((hr.found ha hj).resolve_left hcom), fun w hw => ?_, fun x hx hxt hmut hxw =>
        ⟨fun hm => (hr.quiet x (hkept x hx) hxt hmut hxw).1 (hmaster u hm),
        fun hj => absurd ((hr.quiet x (hkept x hx) hxt hmut hxw).2 hj).2 hcom⟩, fun hreq => ?_, fun hreq => ?_,
        fun hreq => ?_, hr.completed, hr.applied, hr.once, hr.appliedOnce, hr.replied⟩
      · cases hact.symm.trans hw
      · cases hact.symm.trans hreq
      · cases hact.symm.trans hreq
      · cases hact.symm.trans hreq
    · refine Agree.row ?_ (h.tables.row u)
      refine ⟨hother u hu, by rw [hs']; rfl, fun _ _ => by rw [hs']; rfl, by rw [hs']; rfl, by rw [hs']; rfl,
        fun r _ hr => by rw [hs'] at hr; exact hr, fun x _ hx => ?_, fun x _ hx => hkept x hx,
        fun ha => by rw [hs'] at ha; exact ha, fun ha => by rw [hs']; exact ha⟩
      rcases hx with hx | hx
      · rw [hs'] at hx
        exact .inl hx
      · exact .inr (hkept x hx)
  · rw [hs'] at hc
    obtain ⟨hexec, hnot⟩ := h.tables.closed hc
    exact ⟨by rw [hs']; exact hexec, fun u hm => hnot u (hmaster u hm)⟩
  · rw [hs'] at ho ⊢
    exact h.tables.opened ho

/-- A step of the request `t`, by which the rest of the tables stays. -/
theorem Inv.change (hm : s.Master t) (hother : ∀ u, u ≠ t → Agree s s' u) (hl : s'.lastTid = s.lastTid)
    (hw : s'.waiting = s.waiting) (hch : s'.coming = s.coming) (hexec : ∀ e ∈ s'.executed, e ∈ s.executed ∨ e.tid = t)
    (hk : ∀ x, s'.Kept x → s.Kept x) (hopen : s'.isOpen = s.isOpen) (hwo : s'.waitingForOpen = s.waitingForOpen)
    (hrow : Row requests s' t) : Inv requests s' := by
  refine ⟨h.ordered.shrink hch hw hl hk fun u hu => ?_, fun u => ?_, fun hc => ?_, fun ho => ?_⟩
  · by_cases ht : u = t
    · exact .inl (ht ▸ hm)
    · rcases hu with ⟨req, has, b, c, hu⟩ | ⟨e, he, rfl⟩
      · exact .inl ⟨req, has, b, c, (hother u ht).active ▸ hu⟩
      · exact .inr ⟨e, (hexec e he).resolve_right ht, rfl⟩
  · by_cases ht : u = t
    · exact ht ▸ hrow
    · exact (hother u ht).row (h.tables.row u)
  · obtain ⟨req, has, b, c, hact⟩ := hm
    exact absurd ((h.isOpen hact).symm.trans (hopen ▸ hc)) (by decide)
  · rw [hwo]
    exact h.tables.opened (hopen ▸ ho)

omit h in
theorem row_journal {l rs : List MClientReply} (hr : Row requests s t)
    (hact : s.activeRequests t = some (.client req has false c)) (hw : req.op.mayWrite = true) {c' : ℕ}
    (hl : ∀ r ∈ l, r ∈ s.replied ∨ r = ⟨t, 0, true, none, false⟩)
    (hk : ∀ x, ({ s with activeRequests := Function.update s.activeRequests t (some (.client req has true c')),
                         executed := s.executed ++ [⟨t, c', true⟩], replies := rs, replied := l } : State).Kept x → s.Kept x) :
    Row requests { s with activeRequests := Function.update s.activeRequests t (some (.client req has true c')),
                          executed := s.executed ++ [⟨t, c', true⟩], replies := rs, replied := l } t := by
  obtain ⟨s', hs'⟩ : ∃ s', s' = ({ s with
    activeRequests := Function.update s.activeRequests t (some (.client req has true c')),
    executed := s.executed ++ [⟨t, c', true⟩], replies := rs, replied := l } : State) := ⟨_, rfl⟩
  rw [← hs'] at hk ⊢
  have hsub : s.executed ⊆ s'.executed := by
    rw [hs']
    exact List.subset_append_left _ _
  have happ : s'.applied = s.applied := by rw [hs']
  have hsubapp : s.applied ⊆ s'.applied := happ ▸ List.Subset.refl _
  have hnew : ⟨t, c', true⟩ ∈ s'.executed := by
    rw [hs']
    exact List.mem_append_right _ (List.mem_singleton_self _)
  have hact' : s'.activeRequests t = some (.client req has true c') := by
    rw [hs']
    exact Function.update_self _ _ _
  have hch : s'.coming = s.coming := by rw [hs']; rfl
  refine ⟨fun x hx hxt => ?_, fun _ _ => .inl ⟨_, _, _, hact'⟩, fun w hw' => ?_, fun x hx hxt hmut hxw => ?_, fun hreq => ?_,
    fun hreq => ?_, fun hreq => ?_, fun hc => ?_, fun _ => ⟨_, hnew, rfl, rfl⟩, fun hmut => ?_, fun hmut => ?_,
    fun r hrm hrt => ?_⟩
  · refine (hr.fits x ?_ hxt).mono hsub hsubapp
    rcases hx with hx | hx
    · exact .inl (hch ▸ hx)
    · exact .inr (hk x hx)
  · cases hact'.symm.trans hw'
  · have hadv : s'.advancing = true := by
      rw [hs']
      exact (hr.quiet x (hk x hx) hxt hmut hxw).1 ⟨_, _, _, _, hact⟩
    exact ⟨fun _ => hadv, fun _ => ⟨hadv, _, _, _, hact'⟩⟩
  · cases hact'.symm.trans hreq
    exact ⟨(hr.client hact).1, (hr.client hact).2.mono hsub hsubapp⟩
  · cases hact'.symm.trans hreq
  · cases hact'.symm.trans hreq
    refine ⟨hw, hnew, fun hmut ha => (hr.idle hact).2 hw hmut (hr.applied ?_)⟩
    rw [happ] at ha
    exact ha
  · rw [hs'] at hc
    exact (hr.completed hc).mono hsub hsubapp
  · -- it has not been journaled before
    have hnone : (s.executed.filter fun e => e.tid = t ∧ e.journaled = true) = [] := by
      refine List.filter_eq_nil_iff.mpr fun e he hj => (hr.idle hact).2 hw hmut ⟨e, he, ?_⟩
      exact of_decide_eq_true hj
    rw [hs']
    show ((s.executed ++ [(⟨t, c', true⟩ : Execution)]).filter fun e => e.tid = t ∧ e.journaled = true).length ≤ 1
    rw [List.filter_append, hnone]
    simp
  · rw [happ]
    exact hr.appliedOnce hmut
  · rw [hs'] at hrm
    rcases hl r hrm with hrm | rfl
    · exact (hr.replied r hrm hrt).mono hsub hsubapp
    · exact ⟨nofun, fun _ _ => ⟨_, hnew, rfl, nofun, nofun⟩⟩

theorem Inv.journal {a p : ℕ} {slaves : Bool} (hs : s.step requests (.journal t a p slaves) = some s') :
    Inv requests s' := by
  simp only [State.step] at hs
  split at hs
  case h_2 => cases hs
  rename_i req has c hact
  split at hs
  case isFalse => cases hs
  rename_i hw
  cases hs
  have hr := h.tables.row t
  obtain ⟨rfl, -⟩ := hr.client hact
  have hkept : ∀ u : State, u.waitingForOpen = s.waitingForOpen → u.finishedQueue = s.finishedQueue →
      (∃ c', u.activeRequests = Function.update s.activeRequests req.tid (some (.client req has true c'))) →
      ∀ x, u.Kept x → s.Kept x := by
    rintro u h₁ h₂ ⟨c', h₃⟩ x (hx | hx | ⟨v, w, hv, hx⟩)
    · exact .inl (h₁ ▸ hx)
    · exact .inr (.inl (h₂ ▸ hx))
    · rw [h₃] at hv
      by_cases ht : v = req.tid
      · rw [ht, Function.update_self] at hv
        cases hv
      · rw [Function.update_of_ne ht] at hv
        exact .inr (.inr ⟨v, w, hv, hx⟩)
  have hexec : ∀ (e e' : Execution) (l : List Execution), e' ∈ l ++ [e] → e.tid = req.tid → e' ∈ l ∨ e'.tid = req.tid := by
    intro e e' l he' ht
    rcases List.mem_append.mp he' with he' | he'
    · exact .inl he'
    · rw [List.mem_singleton.mp he']
      exact .inr ht
  have hset : ∀ u : ℕ, u ≠ req.tid → ∀ x v, Agree v (v.setRequest req.tid (some (.client req has true x))) u :=
    fun u hu x v => agree_setRequest (fun w hw => by cases hw) hu
  unfold State.journalAndReply
  dsimp only
  generalize (if a ≠ 0 then a else p) = created
  split
  · refine h.change ⟨_, _, _, _, hact⟩ (fun u hu => ?_) rfl rfl rfl (fun e he => hexec _ e _ he rfl)
      (hkept _ rfl rfl ⟨_, rfl⟩) rfl rfl ?_
    · exact ((agree_sendMessage hu).trans (hset u hu _ _)).trans (agree_executed hu)
    · refine row_journal (l := s.replied ++ [_]) hr hact hw (fun r hr => ?_) (hkept _ rfl rfl ⟨_, rfl⟩)
      exact (List.mem_append.mp hr).imp_right List.mem_singleton.mp
  · refine h.change ⟨_, _, _, _, hact⟩ (fun u hu => ?_) rfl rfl rfl (fun e he => hexec _ e _ he rfl)
      (hkept _ rfl rfl ⟨_, rfl⟩) rfl rfl ?_
    · exact (hset u hu _ _).trans (agree_executed hu)
    · exact row_journal (l := s.replied) hr hact hw (fun r hr => .inl hr) (hkept _ rfl rfl ⟨_, rfl⟩)

omit h in
/-- The request is over. -/
theorem Row.finished (hr : Row requests s t) (hact : s'.activeRequests t = none) (hch : s'.coming = s.coming)
    (hw : s'.waiting = s.waiting) (hk : ∀ x, s'.Kept x → s.Kept x) (hsub : s.executed ⊆ s'.executed)
    (hsubapp : s.applied ⊆ s'.applied) (hj : s'.Journaled t ↔ s.Journaled t)
    (hcomp : ∀ c, s'.completedRequests t = some c → s'.Took t c)
    (hfound : s.Asked t → s.Journaled t → (s'.completedRequests t).isSome = true)
    (hquiet : ∀ x, s.Kept x → x.tid = t → Mutates requests t → x.op.mayWrite = true → ¬ s.Journaled t)
    (happ : t ∈ s'.applied → s.Journaled t)
    (honce : (s'.executed.filter fun e => e.tid = t ∧ e.journaled = true) =
      s.executed.filter fun e => e.tid = t ∧ e.journaled = true)
    (hcount : Mutates requests t → s'.applied.count t ≤ 1)
    (hreplied : ∀ r ∈ s'.replied, r ∈ s.replied ∨ Answered requests s' r) : Row requests s' t := by
  have hasked : s'.Asked t → s.Asked t := by
    unfold Asked
    rw [hch, hw]
    exact id
  refine ⟨fun x hx hxt => (hr.fits x ?_ hxt).mono hsub hsubapp, fun ha hj' => .inr (hfound (hasked ha) (hj.mp hj')),
    fun w hw' => ?_, fun x hx hxt hmut hxw => ⟨fun hm => ?_, fun hj' => ?_⟩, fun hreq => ?_, fun hreq => ?_, fun hreq => ?_,
    fun hc => hcomp _ hc, fun ha => hj.mpr (happ ha), fun hmut => honce ▸ hr.once hmut, hcount, fun r hrm hrt => ?_⟩
  · rcases hx with hx | hx
    · exact .inl (hch ▸ hx)
    · exact .inr (hk x hx)
  · cases hact.symm.trans hw'
  · obtain ⟨_, _, _, _, hm⟩ := hm
    cases hact.symm.trans hm
  · exact absurd (hj.mp hj') (hquiet x (hk x hx) hxt hmut hxw)
  · cases hact.symm.trans hreq
  · cases hact.symm.trans hreq
  · cases hact.symm.trans hreq
  · rcases hreplied r hrm with hrm | hans
    · exact (hr.replied r hrm hrt).mono hsub hsubapp
    · exact hans

omit h in
theorem kept_finished {u : State} (h₁ : u.waitingForOpen = s.waitingForOpen) (h₂ : u.finishedQueue = s.finishedQueue)
    (h₃ : u.activeRequests = Function.update s.activeRequests t none) (x : MClientRequest) (hx : u.Kept x) : s.Kept x := by
  rcases hx with hx | hx | ⟨v, w, hv, hx⟩
  · exact .inl (h₁ ▸ hx)
  · exact .inr (.inl (h₂ ▸ hx))
  · rw [h₃] at hv
    by_cases ht : v = t
    · rw [ht, Function.update_self] at hv
      cases hv
    · rw [Function.update_of_ne ht] at hv
      exact .inr (.inr ⟨v, w, hv, hx⟩)

theorem Inv.logged (hs : s.step requests (.logged t) = some s') : Inv requests s' := by
  simp only [State.step] at hs
  split at hs
  case h_2 => cases hs
  rename_i req has c hact
  split at hs
  case isTrue => cases hs
  rename_i hbusy
  have hadv : s.advancing = false := by
    rw [Bool.not_eq_true, busy, Bool.or_eq_false_iff] at hbusy
    exact hbusy.1
  cases hs
  have hr := h.tables.row t
  obtain ⟨rfl, -⟩ := hr.client hact
  obtain ⟨hw, hexec, happ⟩ := hr.committing hact
  have hj : s.Journaled req.tid := ⟨_, hexec, rfl, rfl⟩
  unfold State.replyClientRequest
  rw [show (req.op.mayWrite && (0 : ℤ) == 0) = true by simp [hw]]
  simp only [if_true]
  have hadded : req.tid ∈ s.applied ++ [req.tid] := List.mem_append_right _ (List.mem_singleton_self _)
  refine h.change ⟨_, _, _, _, hact⟩ (fun u hu => ?_) rfl rfl rfl (fun e he => .inl he)
    (kept_finished rfl rfl rfl) rfl rfl ?_
  · exact (((agree_applied hu).trans (agree_addCompletedRequest hu)).trans (agree_sendMessage hu)).trans
      (agree_setRequest (fun w hw => by cases hw) hu)
  · refine hr.finished (Function.update_self _ _ _) rfl rfl (kept_finished rfl rfl rfl) (List.Subset.refl _)
      (List.subset_append_left _ _) .rfl (fun c' hc => ?_) (fun _ _ => ?_) (fun x hx hxt hmut hxw hj => ?_) (fun _ => hj)
      rfl (fun hmut => ?_) fun r hrm => ?_
    · have hc' : Function.update s.completedRequests req.tid (some c) req.tid = some c' := hc
      rw [Function.update_self] at hc'
      cases hc'
      exact ⟨_, hexec, rfl, rfl, fun _ => hadded⟩
    · exact congrArg Option.isSome (Function.update_self req.tid (some c) s.completedRequests)
    · exact absurd (((hr.quiet x hx hxt hmut hxw).2 hj).1.symm.trans hadv) (by decide)
    · show (s.applied ++ [req.tid]).count req.tid ≤ 1
      rw [List.count_append, List.count_eq_zero.mpr (happ hmut)]
      simp
    · rcases List.mem_append.mp hrm with hrm | hrm
      · exact .inl hrm
      · rw [List.mem_singleton.mp hrm]
        exact .inr ⟨nofun, fun _ _ => ⟨_, hexec, rfl, fun _ _ => hadded, nofun⟩⟩

/-- An answer with nothing journaled. What changes nothing but succeeds has been recorded by now. -/
theorem Inv.respond {r : ℤ} (hs : s.step requests (.respond t r) = some s') : Inv requests s' := by
  simp only [State.step] at hs
  split at hs
  case h_2 => cases hs
  rename_i req has c hact
  have hr := h.tables.row t
  obtain ⟨rfl, hfits⟩ := hr.client hact
  have hcom : ¬ s.Committing req.tid := by
    rintro ⟨_, _, _, hc⟩
    cases hact.symm.trans hc
  have hquiet : ∀ x, s.Kept x → x.tid = req.tid → Mutates requests req.tid → x.op.mayWrite = true → ¬ s.Journaled req.tid :=
    fun x hx hxt hmut hxw hj => hcom ((hr.quiet x hx hxt hmut hxw).2 hj).2
  have hset : ∀ u : ℕ, u ≠ req.tid → ∀ v : State, Agree v (v.setRequest req.tid none) u :=
    fun u hu v => agree_setRequest (fun w hw => by cases hw) hu
  unfold State.replyClientRequest at hs
  by_cases hok : (req.op.mayWrite && r == 0) = true
  · simp only [hok, if_true] at hs
    cases hs
    have hnew : ⟨req.tid, c, false⟩ ∈ s.executed ++ [(⟨req.tid, c, false⟩ : Execution)] :=
      List.mem_append_right _ (List.mem_singleton_self _)
    refine h.change ⟨_, _, _, _, hact⟩ (fun u hu => ?_) rfl rfl rfl (fun e he => ?_) (kept_finished rfl rfl rfl) rfl rfl ?_
    · exact (((agree_addCompletedRequest hu).trans (agree_sendMessage hu)).trans (hset u hu _)).trans (agree_executed hu)
    · exact (List.mem_append.mp he).imp_right fun he => congrArg Execution.tid (List.mem_singleton.mp he)
    · have hfilter : ((s.executed ++ [(⟨req.tid, c, false⟩ : Execution)]).filter fun e => e.tid = req.tid ∧ e.journaled = true) =
          s.executed.filter fun e => e.tid = req.tid ∧ e.journaled = true := by simp
      refine hr.finished (Function.update_self _ _ _) rfl rfl (kept_finished rfl rfl rfl) (List.subset_append_left _ _)
        (List.Subset.refl _) ⟨?_, ?_⟩ (fun c' hc => ?_) (fun _ _ => ?_) hquiet hr.applied hfilter hr.appliedOnce
        fun r' hrm => ?_
      · rintro ⟨e, he, het, hj⟩
        rcases List.mem_append.mp he with he | he
        · exact ⟨e, he, het, hj⟩
        · rw [List.mem_singleton.mp he] at hj
          cases hj
      · rintro ⟨e, he, het, hj⟩
        exact ⟨e, List.mem_append_left _ he, het, hj⟩
      · have hc' : Function.update s.completedRequests req.tid (some c) req.tid = some c' := hc
        rw [Function.update_self] at hc'
        cases hc'
        exact ⟨_, hnew, rfl, rfl, nofun⟩
      · exact congrArg Option.isSome (Function.update_self req.tid (some c) s.completedRequests)
      · rcases List.mem_append.mp hrm with hrm | hrm
        · exact .inl hrm
        · rw [List.mem_singleton.mp hrm]
          exact .inr ⟨nofun, fun _ _ => ⟨_, hnew, rfl, nofun, nofun⟩⟩
  · have hok : (req.op.mayWrite && r == 0) = false := Bool.not_eq_true _ ▸ hok
    simp only [hok] at hs
    cases hs
    refine h.change ⟨_, _, _, _, hact⟩ (fun u hu => ?_) rfl rfl rfl (fun e he => .inl he) (kept_finished rfl rfl rfl) rfl rfl ?_
    · exact (agree_sendMessage hu).trans (hset u hu _)
    · refine hr.finished (Function.update_self _ _ _) rfl rfl (kept_finished rfl rfl rfl) (List.Subset.refl _)
        (List.Subset.refl _) .rfl (fun c' hc => hr.completed hc) (fun ha hj => (hr.found ha hj).resolve_left hcom) hquiet
        hr.applied rfl hr.appliedOnce fun r' hrm => ?_
      rcases List.mem_append.mp hrm with hrm | hrm
      · exact .inl hrm
      · rw [List.mem_singleton.mp hrm]
        refine .inr ⟨nofun, fun hres hmut => ?_⟩
        have hw : req.op.mayWrite = false := by
          have hres : r = 0 := hres
          simpa [hres] using hok
        obtain ⟨c', e, he, het, -, ha⟩ := hfits.took (hmut.resolve_right nofun) hw
        exact ⟨e, he, het, fun _ => ha, nofun⟩

end Requests

/-- The messages are handled as they may be: one from the channel may be
handled before those that are deferred, and no message of the finished queue
has the tid of the deferred one that is handled. -/
def InOrder (s : State) : Action → Prop
  | .arrive => ∀ m ∈ s.channel.head?, ∀ x ∈ s.waitingForNolaggy, Before m x
  | .undefer => ∀ m ∈ s.waitingForNolaggy.head?, ∀ x ∈ s.finishedQueue, x.tid ≠ m.tid
  | _ => True

instance decidableBefore (m m' : MClientRequest) : Decidable (Before m m') :=
  inferInstanceAs (Decidable (_ ∧ _))

instance decidableInOrder (s : State) : ∀ a, Decidable (s.InOrder a)
  | .arrive => inferInstanceAs (Decidable (∀ m ∈ s.channel.head?, ∀ x ∈ s.waitingForNolaggy, Before m x))
  | .undefer => inferInstanceAs (Decidable (∀ m ∈ s.waitingForNolaggy.head?, ∀ x ∈ s.finishedQueue, x.tid ≠ m.tid))
  | .send _ | .resend .. | .receive | .defer | .advance | .retry | .drained | .done | .openRoot | .clientreplay _
  | .slaveStart _ | .slaveFinish _ | .journal .. | .logged _ | .respond .. => .isTrue trivial

theorem Inv.step {a : Action} (h : Inv requests s) (hok : s.InOrder a) (hs : s.step requests a = some s') :
    Inv requests s' := by
  cases a with
  | send o => exact h.send hs
  | resend u n o isReplay => exact h.resend hs
  | receive => exact h.receive hs
  | arrive => exact h.arrive hs hok
  | defer => exact h.defer hs
  | advance => exact h.advance hs
  | retry => exact h.retry hs
  | drained => exact h.drained hs
  | undefer => exact h.undefer hs hok
  | done => exact h.done hs
  | openRoot => exact h.openRoot hs
  | clientreplay is => exact h.clientreplay hs
  | slaveStart u => exact h.slaveStart hs
  | slaveFinish u => exact h.slaveFinish hs
  | journal u a p slaves => exact h.journal hs
  | logged u => exact h.logged hs
  | respond u r => exact h.respond hs

/-! ## The runs -/

/-- How often the request has been journaled. -/
def journalings (s : State) (t : ℕ) : ℕ := (s.executed.filter fun e => e.tid = t ∧ e.journaled = true).length

/-- A mutating request is journaled at most once and applied at most once.
Where it is reported as successful it has been executed, and what has been
journaled then is journaled exactly once, and with a safe reply also applied
exactly once. An answer from the completed requests reports success, with the
inode of the execution. -/
def AtMostOnce (requests : ℕ → Request) (s : State) : Prop :=
  (∀ t, Mutates requests t → s.journalings t ≤ 1 ∧ s.applied.count t ≤ 1) ∧
  (∀ r ∈ s.replied, Mutates requests r.tid → r.result = 0 → ∃ e ∈ s.executed, e.tid = r.tid ∧ (e.journaled = true →
    s.journalings r.tid = 1 ∧ (r.unsafeReply = false → s.applied.count r.tid = 1))) ∧
  (∀ r ∈ s.replied, r.fromCompleted = true → r.result = 0 ∧
    ∃ e ∈ s.executed, e.tid = r.tid ∧ r.extra = extraBl e.created)

theorem Inv.atMostOnce (h : Inv requests s) : AtMostOnce requests s := by
  refine ⟨fun t hm => ⟨(h.tables.row t).once hm, (h.tables.row t).appliedOnce hm⟩, fun r hr hm hres => ?_, fun r hr hc => ?_⟩
  · have hrow := h.tables.row r.tid
    obtain ⟨e, he, het, ha, -⟩ := (hrow.replied r hr rfl).2 hres (.inl hm)
    refine ⟨e, he, het, fun hj => ⟨le_antisymm (hrow.once hm) ?_, fun hu => le_antisymm (hrow.appliedOnce hm) ?_⟩⟩
    · exact List.length_pos_of_mem (List.mem_filter.mpr ⟨he, decide_eq_true ⟨het, hj⟩⟩)
    · exact List.count_pos_iff.mpr (ha hu hj)
  · obtain ⟨hc', hans⟩ := (h.tables.row r.tid).replied r hr rfl
    obtain ⟨e, he, het, -, hx⟩ := hans (hc' hc).1 (.inr hc)
    exact ⟨(hc' hc).1, e, he, het, hx hc⟩

/-- A request for a new inode that comes again before and after it is safe,
and is deferred the last time. -/
def sentThrice : List Action :=
  [.send 1, .arrive, .journal 1 5 0 false, .drained, .done, .resend 1 1 1 false, .resend 1 2 1 false, .arrive, .drained,
    .done, .logged 1, .defer, .drained, .done, .receive, .advance, .drained, .undefer, .done, .send 2, .arrive]

/-- The request comes again after it is safe and is deferred; the next one,
which the beacon does not hold up, trims it before it is handled. -/
def overtaken : List Action :=
  [.send 1, .arrive, .journal 1 5 0 false, .drained, .done, .logged 1, .resend 1 1 1 false, .defer, .drained, .done,
    .receive, .send 2, .arrive, .drained, .undefer, .journal 1 6 0 false]

end CephMds.Requests.State
