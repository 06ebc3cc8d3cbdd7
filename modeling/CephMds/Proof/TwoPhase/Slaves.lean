import CephMds.Framework.Writes
import CephMds.Model.TwoPhase

/-!
# A slave, request by request

What a slave has of a request (`View`), and what each of its functions makes of
it: only the request of a message or of a journal entry is touched
(`Elsewhere`), and what `request_finish` does goes by the request it is given
(`Finished`).
-/

namespace CephMds.TwoPhase

open Checked Writes

variable {r r' : ℕ} {s s' s'' : Slave} {v v' : View} {mdr : SlaveRequest} {st : State} {out : List ToMaster}

/-! ## Views -/

/-- The entries of a request. -/
def about (reqid : ℕ) (l : List ESlaveUpdate) : List SlaveOp :=
  (l.filter fun e => e.reqid = reqid).map ESlaveUpdate.op

@[simp] theorem about_nil : about r [] = [] := rfl

theorem about_append (r : ℕ) (l l' : List ESlaveUpdate) : about r (l ++ l') = about r l ++ about r l' := by
  simp [about]

theorem about_cons_self (op : SlaveOp) (l : List ESlaveUpdate) : about r (⟨op, r⟩ :: l) = op :: about r l := by
  simp [about]

theorem about_cons_of_ne (op : SlaveOp) (h : r' ≠ r) (l : List ESlaveUpdate) :
    about r' (⟨op, r⟩ :: l) = about r' l := by
  simp [about, h.symm]

theorem mem_about {op : SlaveOp} {l : List ESlaveUpdate} : op ∈ about r l ↔ ⟨op, r⟩ ∈ l := by
  simp only [about, List.mem_map, List.mem_filter, decide_eq_true_eq]
  constructor
  · rintro ⟨⟨op', r'⟩, ⟨he, rfl⟩, rfl⟩
    exact he
  · intro h
    exact ⟨⟨op, r⟩, ⟨h, rfl⟩, rfl⟩

/-- What a slave has of a request: what is in its journal and what is being written, and what it
remembers. -/
@[ext] structure View where
  state : State
  past : List SlaveOp
  records : List SlaveOp
  request : Option SlaveRequest
  uncommitted : Prop
  rollback : Prop

/-- What the journal says of the request. -/
def View.fate (v : View) : Option SlaveOp := v.past.getLast?

/-- It is told of in a resolve. -/
def View.Listed (v : View) (master : State) : Prop :=
  v.state = .resolve ∧ v.uncommitted ∨
    v.state ≠ .resolve ∧ master = .resolve ∧ ∃ mdr, v.request = some mdr ∧ mdr.slaveCommit = true

/-- Nothing is told of when both are active. -/
theorem View.not_listed (hs : v.state = .active) (hm : st ≠ .resolve) : ¬ v.Listed st := by
  rintro (⟨hs', -⟩ | ⟨-, hm', -⟩)
  · cases hs.symm.trans hs'
  · exact hm hm'

namespace Slave

def view (s : Slave) (r : ℕ) : View :=
  ⟨s.state, about r s.journal, about r s.writing, s.activeRequests[r]?, r ∈ s.uncommittedSlaveUpdates,
    r ∈ s.needResolveRollback⟩

theorem mem_slaveResolves : r ∈ s.slaveResolves st ↔ (s.view r).Listed st := by
  unfold slaveResolves View.Listed
  by_cases hs : s.state = .resolve
  · simp [view, hs]
  · by_cases hm : st = .resolve
    · simp [view, hs, hm, Std.ExtTreeMap.mem_toList_iff_getElem?_eq_some]
    · simp [view, hs, hm]

/-- What a function does not touch but for a request. -/
structure Elsewhere (r : ℕ) (s s' : Slave) : Prop where
  view : ∀ r' ≠ r, s'.view r' = s.view r'
  state : s'.state = s.state
  resolveAckGather : s'.resolveAckGather = s.resolveAckGather
  waitingForReplay : s'.waitingForReplay = s.waitingForReplay

theorem Elsewhere.refl (r : ℕ) (s : Slave) : Elsewhere r s s := ⟨fun _ _ => rfl, rfl, rfl, rfl⟩

theorem Elsewhere.trans (h : Elsewhere r s s') (h' : Elsewhere r s' s'') : Elsewhere r s s'' :=
  ⟨fun k hk => (h'.view k hk).trans (h.view k hk), h'.state.trans h.state,
    h'.resolveAckGather.trans h.resolveAckGather, h'.waitingForReplay.trans h.waitingForReplay⟩

theorem elsewhere_submit (s : Slave) (op : SlaveOp) (r : ℕ) : Elsewhere r s (s.submit op r) where
  view r' hr := by simp [view, submit, about_append, about_cons_of_ne _ hr]
  state := rfl
  resolveAckGather := rfl
  waitingForReplay := rfl

theorem elsewhere_setRequest (s : Slave) (r : ℕ) (mdr : SlaveRequest) : Elsewhere r s (s.setRequest r mdr) where
  view r' hr := by simp [view, setRequest, getElem?_insert, hr]
  state := rfl
  resolveAckGather := rfl
  waitingForReplay := rfl

theorem elsewhere_requestCleanup (s : Slave) (r : ℕ) : Elsewhere r s (s.requestCleanup r) where
  view r' hr := by simp [view, requestCleanup, getElem?_erase, hr]
  state := rfl
  resolveAckGather := rfl
  waitingForReplay := rfl

theorem view_submit (s : Slave) (op : SlaveOp) (r : ℕ) :
    (s.submit op r).view r = { s.view r with records := (s.view r).records ++ [op] } := by
  simp [view, submit, about_append, about_cons_self]

theorem view_setRequest (s : Slave) (r : ℕ) (mdr : SlaveRequest) :
    (s.setRequest r mdr).view r = { s.view r with request := some mdr } := by
  simp [view, setRequest]

theorem view_requestCleanup (s : Slave) (r : ℕ) : (s.requestCleanup r).view r = { s.view r with request := none } := by
  simp [view, requestCleanup]

theorem doRollback_ok (h : s.doRollback r = .ok s') : Elsewhere r s s' ∧ SlaveOp.rollback ∉ (s.view r).records ∧
    s'.view r = { s.view r with records := (s.view r).records ++ [.rollback], rollback := True } := by
  unfold doRollback at h
  simp only [bind_ok, assert_ok, pure_ok, Bool.not_eq_true', List.contains_eq_mem, decide_eq_false_iff_not] at h
  obtain ⟨-, hno, rfl⟩ := h
  refine ⟨⟨fun r' hr => ?_, rfl, rfl, rfl⟩, fun hmem => hno (mem_about.mp hmem), ?_⟩
  · simp [view, submit, about_append, about_cons_of_ne _ hr, hr]
  · simp [view, submit, about_append, about_cons_self]

end Slave

/-! ## `request_finish` -/

/-- What `request_finish` makes of a request. -/
inductive Finished (mdr : SlaveRequest) (v v' : View) : Prop
  | commit (slaveCommit : mdr.slaveCommit = true) (aborted : mdr.aborted = false)
      (view : v' = { v with
        records := v.records ++ [.commit]
        request := some { mdr with slaveCommit := false, aborted := false } })
  | rollback (slaveCommit : mdr.slaveCommit = true) (aborted : mdr.aborted = true)
      (view : v' = { v with
        records := v.records ++ [.rollback]
        request := some { mdr with slaveCommit := false, aborted := false }
        rollback := True })
  | cleanup (slaveCommit : mdr.slaveCommit = false) (view : v' = { v with request := none })

namespace Slave

theorem requestFinish_ok (h : s.requestFinish r mdr = .ok s') :
    Elsewhere r s s' ∧ Finished mdr (s.view r) (s'.view r) := by
  unfold requestFinish at h
  split at h
  case isTrue hc =>
    split at h
    case isTrue ha =>
      obtain ⟨he, -, hv⟩ := doRollback_ok h
      refine ⟨(elsewhere_setRequest s r _).trans he, .rollback hc ha ?_⟩
      rw [hv, view_setRequest]
    case isFalse ha =>
      cases h
      refine ⟨(elsewhere_setRequest s r _).trans (elsewhere_submit _ _ r), .commit hc (by simpa using ha) ?_⟩
      rw [view_submit, view_setRequest]
  case isFalse hc =>
    cases h
    exact ⟨elsewhere_requestCleanup s r, .cleanup (by simpa using hc) (view_requestCleanup s r)⟩

end Slave

/-! ## The messages of the master -/

/-- What a request of the master makes of an active slave. -/
inductive Requested (op : Opcode) (v v' : View) : Prop
  | unknown (request : v.request = none) (view : v' = v)
  | finished {mdr : SlaveRequest} (request : v.request = some mdr) (slaveRequest : mdr.slaveRequest = false)
      (asked : op = .prep → mdr.aborted = true) (finished : Finished { mdr with slaveRequest := true } v v')
  | prepares (op : op = .prep)
      (view : v' = { v with records := v.records ++ [.prepare], request := some ⟨true, true, false⟩ })

/-- What a "COMMIT" makes of a slave. -/
inductive AckedCommit (v v' : View) : Prop
  | replay (state : v.state = .resolve) (uncommitted : v.uncommitted)
      (view : v' = { v with records := v.records ++ [.commit], uncommitted := False })
  | finished {mdr : SlaveRequest} (state : v.state ≠ .resolve) (request : v.request = some mdr)
      (slaveRequest : mdr.slaveRequest = false)
      (finished : Finished mdr v v')

/-- What an "ABORT" makes of a slave. -/
inductive AckedAbort (v v' : View) : Prop
  | replay (state : v.state = .resolve) (uncommitted : v.uncommitted)
      (view : v' = { v with records := v.records ++ [.rollback], rollback := True })
  | marks {mdr : SlaveRequest} (state : v.state ≠ .resolve) (request : v.request = some mdr)
      (slaveRequest : mdr.slaveRequest = true)
      (view : v' = { v with
        request := some { mdr with aborted := true }
        rollback := v.rollback ∨ mdr.slaveCommit = true })
  | finished {mdr : SlaveRequest} (state : v.state ≠ .resolve) (request : v.request = some mdr)
      (slaveRequest : mdr.slaveRequest = false)
      (finished : Finished { mdr with aborted := true } v v')

/-- It is not told of any more. -/
theorem Finished.not_listed (h : Finished mdr v v') (hs : v.state ≠ .resolve) : ¬ v'.Listed st := by
  have hstate : v'.state = v.state := by
    cases h with
    | commit hc ha hv => rw [hv]
    | rollback hc ha hv => rw [hv]
    | cleanup hc hv => rw [hv]
  rintro (⟨hs', -⟩ | ⟨-, -, mdr', hreq, hc'⟩)
  · exact hs (hstate ▸ hs')
  · cases h with
    | commit hc ha hv =>
      rw [hv] at hreq
      cases hreq
      cases hc'
    | rollback hc ha hv =>
      rw [hv] at hreq
      cases hreq
      cases hc'
    | cleanup hc hv =>
      rw [hv] at hreq
      cases hreq

theorem AckedCommit.not_listed (h : AckedCommit v v') : ¬ v'.Listed st := by
  cases h with
  | replay hs hu hv =>
    rintro (⟨-, hu'⟩ | ⟨hs', -⟩)
    · rwa [hv] at hu'
    · rw [hv] at hs'
      exact hs' hs
  | finished hs hreq hnot hf => exact hf.not_listed hs

/-- What is aborted is told of until the rollback is in the journal. -/
theorem AckedAbort.rollback_of_listed (h : AckedAbort v v') (hl : v'.Listed st) : v.Listed st ∧ v'.rollback := by
  cases h with
  | replay hs hu hv =>
    rw [hv]
    exact ⟨.inl ⟨hs, hu⟩, trivial⟩
  | marks hs hreq hsr hv =>
    rcases hl with ⟨hs', -⟩ | ⟨-, hm, mdr', hreq', hc⟩
    · rw [hv] at hs'
      exact (hs hs').elim
    · rw [hv] at hreq' ⊢
      cases hreq'
      exact ⟨.inr ⟨hs, hm, _, hreq, hc⟩, .inr hc⟩
  | finished hs hreq hnot hf => exact (hf.not_listed hs hl).elim

/-- The request itself is replaced. -/
theorem Finished.of_setRequest {o : Option SlaveRequest} (h : Finished mdr { v with request := o } v') :
    Finished mdr v v' := by
  cases h with
  | commit hc ha hv => exact .commit hc ha hv
  | rollback hc ha hv => exact .rollback hc ha hv
  | cleanup hc hv => exact .cleanup hc hv

namespace Slave

theorem dispatchSlaveRequest_ok {op : Opcode}
    (h : s.dispatchSlaveRequest op r { mdr with slaveRequest := true } = .ok s')
    (hmdr : op = .finish → (s.view r).request = some mdr) (hnot : mdr.slaveRequest = false)
    (hget : (s.view r).request = some mdr ∨ mdr = ⟨false, false, false⟩) :
    Elsewhere r s s' ∧ Requested op (s.view r) (s'.view r) := by
  unfold dispatchSlaveRequest at h
  split at h
  case isTrue ha =>
    obtain ⟨he, hf⟩ := requestFinish_ok h
    rcases hget with hget | rfl
    · exact ⟨he, .finished hget hnot (fun _ => ha) hf⟩
    · cases ha
  case isFalse ha =>
    cases op with
    | prep =>
      cases h
      refine ⟨(elsewhere_setRequest s r _).trans (elsewhere_submit _ _ r), .prepares rfl ?_⟩
      rw [view_submit, view_setRequest, show mdr.aborted = false from by simpa using ha]
    | finish =>
      obtain ⟨he, hf⟩ := requestFinish_ok h
      exact ⟨he, .finished (hmdr rfl) hnot (fun h => by cases h) hf⟩

theorem handleSlaveRequest_ok {op : Opcode} (h : s.handleSlaveRequest op r = .ok s') (hs : s.state = .active) :
    Elsewhere r s s' ∧ Requested op (s.view r) (s'.view r) := by
  unfold handleSlaveRequest at h
  cases hreq : s.activeRequests[r]? with
  | none =>
    rw [hreq] at h
    cases op with
    | prep =>
      simp only [bind_ok, assert_ok, hs, ne_eq, not_true_eq_false, if_false] at h
      obtain ⟨-, -, h⟩ := h
      exact dispatchSlaveRequest_ok h (fun h => by cases h) rfl (.inr rfl)
    | finish =>
      cases h
      exact ⟨.refl r s, .unknown hreq rfl⟩
  | some mdr =>
    rw [hreq] at h
    simp only [bind_ok, assert_ok, Bool.not_eq_true', hs, ne_eq, not_true_eq_false, if_false] at h
    obtain ⟨-, hnot, h⟩ := h
    exact dispatchSlaveRequest_ok h (fun _ => hreq) hnot (.inl hreq)

theorem ackCommit_ok (h : ackCommit s r = .ok s') : Elsewhere r s s' ∧ AckedCommit (s.view r) (s'.view r) := by
  unfold ackCommit at h
  split at h
  case isTrue hs =>
    simp only [bind_ok, assert_ok, pure_ok, decide_eq_true_eq] at h
    obtain ⟨-, hmem, rfl⟩ := h
    refine ⟨⟨fun r' hr => ?_, rfl, rfl, rfl⟩, .replay hs hmem ?_⟩
    · simp [view, submit, about_append, about_cons_of_ne _ hr, hr]
    · simp [view, submit, about_append, about_cons_self]
  case isFalse hs =>
    simp only [bind_ok, assert_ok, deref_ok, Bool.not_eq_true'] at h
    obtain ⟨mdr, hreq, -, hnot, h⟩ := h
    obtain ⟨he, hf⟩ := requestFinish_ok h
    exact ⟨he, .finished hs hreq hnot hf⟩

theorem ackAbort_ok (h : ackAbort s r = .ok s') : Elsewhere r s s' ∧ AckedAbort (s.view r) (s'.view r) := by
  unfold ackAbort at h
  split at h
  case isTrue hs =>
    simp only [bind_ok, assert_ok, decide_eq_true_eq] at h
    obtain ⟨-, hmem, h⟩ := h
    obtain ⟨he, -, hv⟩ := doRollback_ok h
    exact ⟨he, .replay hs hmem hv⟩
  case isFalse hs =>
    simp only [bind_ok, deref_ok] at h
    obtain ⟨mdr, hreq, h⟩ := h
    have hset := elsewhere_setRequest s r { mdr with aborted := true }
    split at h
    case isTrue hsr =>
      split at h
      case isTrue hc =>
        cases h
        refine ⟨⟨fun r' hr => ?_, rfl, rfl, rfl⟩, .marks hs hreq hsr ?_⟩
        · simp [view, setRequest, getElem?_insert, hr]
        · simp [view, setRequest, hc]
      case isFalse hc =>
        cases h
        refine ⟨hset, .marks hs hreq hsr ?_⟩
        rw [view_setRequest]
        simp [hc]
    case isFalse hsr =>
      obtain ⟨he, hf⟩ := requestFinish_ok h
      rw [view_setRequest] at hf
      exact ⟨hset.trans he, .finished hs hreq (by simpa using hsr) hf.of_setRequest⟩

end Slave

/-! ## The journal -/

/-- What a slave is that has an entry in its journal now. -/
inductive Logged (v v' : View) (r : ℕ) : List ToMaster → Prop
  | aborted {mdr : SlaveRequest} {rest : List SlaveOp} (records : v.records = .prepare :: rest)
      (request : v.request = some mdr)
      (aborted : mdr.aborted = true)
      (finished :
        Finished { mdr with slaveRequest := false } { v with past := v.past ++ [.prepare], records := rest } v') :
      Logged v v' r []
  | prepare {mdr : SlaveRequest} {rest : List SlaveOp} (records : v.records = .prepare :: rest)
      (request : v.request = some mdr)
      (aborted : mdr.aborted = false)
      (view : v' = { v with
        past := v.past ++ [.prepare]
        records := rest
        request := some { mdr with slaveRequest := false } }) : Logged v v' r [.prepAck r]
  | commit {rest : List SlaveOp} (records : v.records = .commit :: rest)
      (view : v' = { v with past := v.past ++ [.commit], records := rest, request := none }) :
          Logged v v' r [.committed r]
  | rollback {out : List ToMaster} {rest : List SlaveOp} (records : v.records = .rollback :: rest)
      (rollback : v.rollback)
      (view : v' = { v with
        past := v.past ++ [.rollback]
        records := rest
        request := none
        uncommitted := v.uncommitted ∧ v.state ≠ .resolve
        rollback := False })
      (sent : out = [] ∨ out = [.resolve []]) : Logged v v' r out

/-- What is told of stays so until its rollback is in the journal. -/
theorem Logged.listed (h : Logged v v' r out) (hidle : v.state ≠ .active → v.request = none) (hl : v'.Listed st) :
    v.Listed st ∧ (v.rollback → v'.rollback) := by
  cases h with
  | aborted hrec hreq ha hf =>
    have hs : v.state ≠ .resolve := by
      intro hs
      rw [hidle (by simp [hs])] at hreq
      cases hreq
    exact (hf.not_listed hs hl).elim
  | prepare hrec hreq ha hv =>
    rw [hv] at hl ⊢
    refine ⟨hl.imp_right fun hl => ⟨hl.1, hl.2.1, ?_⟩, id⟩
    obtain ⟨-, -, mdr', hreq', hc⟩ := hl
    cases hreq'
    exact ⟨_, hreq, hc⟩
  | commit hrec hv =>
    rw [hv] at hl ⊢
    refine ⟨hl.imp_right fun hl => ?_, id⟩
    obtain ⟨-, -, mdr', hreq', -⟩ := hl
    cases hreq'
  | rollback hrec hroll hv =>
    rw [hv] at hl
    rcases hl with ⟨hs, -, hs'⟩ | ⟨-, -, mdr', hreq', -⟩
    · exact (hs' hs).elim
    · cases hreq'

theorem Logged.count_of_ne (h : Logged v v' r out) (hr : r' ≠ r) : out.count (.prepAck r') = 0 := by
  cases h with
  | aborted => rfl
  | prepare => simp [hr.symm]
  | commit => simp
  | rollback hrec hroll hv hout =>
    rcases hout with rfl | rfl
    · rfl
    · simp

namespace Slave

theorem resolvesIfDone_cases (s : Slave) (master : State) :
    s.resolvesIfDone master = [] ∨ s.resolvesIfDone master = [.resolve []] := by
  unfold resolvesIfDone sendSubtreeResolves
  split
  · split
    · exact .inr rfl
    · exact .inl rfl
  · exact .inl rfl

theorem mem_resolvesIfDone {msg : ToMaster} (h : msg ∈ s.resolvesIfDone st) :
    msg = .resolve [] ∧ s.resolveAckGather = false ∧ ∀ r, ¬ (s.view r).rollback := by
  unfold resolvesIfDone sendSubtreeResolves at h
  split at h
  case isTrue hdone =>
    simp only [Bool.not_eq_true'] at hdone
    split at h
    · exact ⟨List.mem_singleton.mp h, hdone.1, fun r hr => by simp [view, hdone.2] at hr⟩
    · cases h
  case isFalse => cases h

/-- What was written is in the journal. -/
def wrote (s : Slave) (e : ESlaveUpdate) (rest : List ESlaveUpdate) : Slave :=
  { s with journal := s.journal ++ [e], writing := rest }

theorem elsewhere_wrote {op : SlaveOp} {rest : List ESlaveUpdate} (hw : s.writing = ⟨op, r⟩ :: rest) :
    Elsewhere r s (s.wrote ⟨op, r⟩ rest) where
  view r' hr := by simp [view, wrote, hw, about_append, about_cons_of_ne _ hr]
  state := rfl
  resolveAckGather := rfl
  waitingForReplay := rfl

theorem view_wrote {op : SlaveOp} (s : Slave) (rest : List ESlaveUpdate) :
    (s.wrote ⟨op, r⟩ rest).view r = { s.view r with past := (s.view r).past ++ [op], records := about r rest } := by
  simp [view, wrote, about_append, about_cons_self]

theorem records_cons {op : SlaveOp} {rest : List ESlaveUpdate} (hw : s.writing = ⟨op, r⟩ :: rest) :
    (s.view r).records = op :: about r rest := by
  simp [view, hw, about_cons_self]

/-- The first entry is in the journal now: what it is about, and that a rollback can have been the last thing
to wait for. -/
theorem logged_ok {op : SlaveOp} {rest : List ESlaveUpdate} (hw : s.writing = ⟨op, r⟩ :: rest)
    (h : s.logged st = .ok (s', out)) : Elsewhere r s s' ∧ Logged (s.view r) (s'.view r) r out ∧
      (op = .rollback → out = s'.resolvesIfDone st) := by
  have hrec := records_cons hw
  have helse := elsewhere_wrote hw
  have hview : (s.wrote ⟨op, r⟩ rest).view r =
      { s.view r with past := (s.view r).past ++ [op], records := about r rest } :=
    view_wrote s rest
  unfold logged at h
  rw [hw] at h
  cases op with
  | prepare =>
    simp only [loggedPrepare, bind_ok, deref_ok] at h
    obtain ⟨mdr, hreq, h⟩ := h
    split at h
    case isTrue ha =>
      simp only [bind_ok, pure_ok, Prod.mk.injEq] at h
      obtain ⟨t, ht, rfl, rfl⟩ := h
      obtain ⟨he, hf⟩ := requestFinish_ok (s := s.wrote ⟨.prepare, r⟩ rest) ht
      rw [hview] at hf
      exact ⟨helse.trans he, .aborted hrec hreq ha hf, fun h => by cases h⟩
    case isFalse ha =>
      cases h
      refine ⟨helse.trans (elsewhere_setRequest (s.wrote ⟨.prepare, r⟩ rest) r _),
        .prepare hrec hreq (by simpa using ha) ?_, fun h => by cases h⟩
      refine (view_setRequest (s.wrote ⟨.prepare, r⟩ rest) r _).trans ?_
      rw [hview]
  | commit =>
    cases h
    refine ⟨helse.trans (elsewhere_requestCleanup (s.wrote ⟨.commit, r⟩ rest) r), .commit hrec ?_, fun h => by cases h⟩
    refine (view_requestCleanup (s.wrote ⟨.commit, r⟩ rest) r).trans ?_
    rw [hview]
  | rollback =>
    simp only [finishRollback, bind_ok, assert_ok, pure_ok, decide_eq_true_eq, Prod.mk.injEq] at h
    obtain ⟨-, hneed, -, -, rfl, rfl⟩ := h
    refine ⟨⟨fun r' hr => ?_, rfl, rfl, rfl⟩, .rollback hrec hneed ?_ (resolvesIfDone_cases _ st), fun _ => rfl⟩
    · have hv := (helse.trans (elsewhere_requestCleanup (s.wrote ⟨.rollback, r⟩ rest) r)).view r' hr
      rw [← hv]
      by_cases hs : s.state = .resolve
      · simp [view, requestCleanup, wrote, hs, hr]
      · simp [view, requestCleanup, wrote, hs, hr]
    · by_cases hs : s.state = .resolve
      · simp [view, requestCleanup, hs, about_append, about_cons_self]
      · simp [view, requestCleanup, hs, about_append, about_cons_self]

end Slave

end CephMds.TwoPhase
