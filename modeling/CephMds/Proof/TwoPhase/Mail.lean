import CephMds.Proof.TwoPhase.Links

/-!
# What is on its way

What each message between a master and a slave says (`InOk`, `OutOk`), and that
the slave's functions keep that (`Link`). A slave commits what it is told to,
which is in the master's journal; it is told to abort nothing that it has to
keep, as what it has prepared is in the resolve that the master answers
(`View.Listed`), and answers of an earlier resolve are ignored when both are
active.
-/

namespace CephMds.TwoPhase

open Checked Slave

variable {n : ℕ} {m : Master n} {i : Fin n} {r : ℕ} {s s' s'' : Slave} {inbox inbox' : List ToSlave}
  {outbox outbox' out : List ToMaster}

/-! ## Messages -/

/-- What a message of the master says. -/
inductive InOk (m : Master n) (i : Fin n) (s : Slave) : ToSlave → Prop
  | prep (r : ℕ) : InOk m i s (.request .prep r)
  | finish {r : ℕ} (durable : m.Durable r) (active : m.state = .active) : InOk m i s (.request .finish r)
  | resolveAck {commit abort : List ℕ}
      (commits : ∀ r ∈ commit, m.Durable r ∧ (m.Bound i r → (s.view r).fate = some .commit ∨ m.Credits i r))
      (aborts : ∀ r ∈ abort, m.Bound i r → (s.view r).Prepared → s.state = .active ∧ m.state = .active)
      (told : ∀ r, (s.view r).Listed m.state → (s.view r).rollback ∨ r ∈ commit ∨ r ∈ abort) :
      InOk m i s (.resolveAck commit abort)

/-- What a message of the slave says. -/
inductive OutOk (m : Master n) (i : Fin n) (s : Slave) : ToMaster → Prop
  | prepAck (r : ℕ) : OutOk m i s (.prepAck r)
  | committed {r : ℕ} (durable : m.Durable r) (fate : m.Bound i r → (s.view r).fate = some .commit) :
      OutOk m i s (.committed r)
  | resolve {slaveRequests : List ℕ}
      (told : ∀ r, (s.view r).Listed m.state → (s.view r).rollback ∨ r ∈ slaveRequests)
      (done : slaveRequests = [] → (∀ r, ¬ (s.view r).Listed m.state) ∧
        (m.state = .resolve → s.state = .active → s.resolveAckGather = false)) :
      OutOk m i s (.resolve slaveRequests)

/-- What the messages are about goes on only in this way. -/
structure Moves (m : Master n) (i : Fin n) (s s' : Slave) : Prop where
  state : s'.state = s.state
  forward : ∀ r, m.Bound i r → (s.view r).Forward (s'.view r)
  listed : ∀ r, (s'.view r).Listed m.state → (s.view r).Listed m.state ∧ ((s.view r).rollback → (s'.view r).rollback)
  resolveAckGather : s.resolveAckGather = false → s'.resolveAckGather = false

theorem Moves.refl (m : Master n) (i : Fin n) (s : Slave) : Moves m i s s :=
  ⟨rfl, fun _ _ => .refl _, fun _ h => ⟨h, id⟩, id⟩

theorem Moves.trans (h : Moves m i s s') (h' : Moves m i s' s'') : Moves m i s s'' where
  state := h'.state.trans h.state
  forward r hb := (h.forward r hb).trans (h'.forward r hb)
  listed r hl :=
    have hl' := h'.listed r hl
    have hl'' := h.listed r hl'.1
    ⟨hl''.1, fun hr => hl'.2 (hl''.2 hr)⟩
  resolveAckGather hg := h'.resolveAckGather (h.resolveAckGather hg)

/-- A step of a single request. -/
theorem Moves.of_elsewhere (he : Elsewhere r s s') (hf : m.Bound i r → (s.view r).Forward (s'.view r))
    (hl : (s'.view r).Listed m.state → (s.view r).Listed m.state ∧ ((s.view r).rollback → (s'.view r).rollback)) :
    Moves m i s s' where
  state := he.state
  forward r' hb := by
    by_cases hr : r' = r
    · subst hr
      exact hf hb
    · rw [he.view r' hr]
      exact .refl _
  listed r' h := by
    by_cases hr : r' = r
    · subst hr
      exact hl h
    · rw [he.view r' hr] at h ⊢
      exact ⟨h, id⟩
  resolveAckGather h := by rw [he.resolveAckGather, h]

theorem InOk.moves {msg : ToSlave} (h : InOk m i s msg) (hmv : Moves m i s s') : InOk m i s' msg := by
  cases h with
  | prep r => exact .prep r
  | finish hdur hactive => exact .finish hdur hactive
  | resolveAck hc ha ht =>
    refine .resolveAck (fun r hr => ⟨(hc r hr).1, fun hb => ?_⟩) (fun r hr hb hp => ?_) fun r hl => ?_
    · exact ((hc r hr).2 hb).imp_left (hmv.forward r hb).fate
    · rw [hmv.state]
      exact ha r hr hb ((hmv.forward r hb).prepared hp)
    · have hl' := hmv.listed r hl
      exact (ht r hl'.1).imp_left hl'.2

theorem OutOk.moves {msg : ToMaster} (h : OutOk m i s msg) (hmv : Moves m i s s') : OutOk m i s' msg := by
  cases h with
  | prepAck r => exact .prepAck r
  | committed hdur hf => exact .committed hdur fun hb => (hmv.forward _ hb).fate (hf hb)
  | resolve ht hd =>
    refine .resolve (fun r hl => ?_) fun hnil => ⟨fun r hl => (hd hnil).1 r (hmv.listed r hl).1, fun hm hs => ?_⟩
    · have hl' := hmv.listed r hl
      exact (ht r hl'.1).imp_left hl'.2
    · exact hmv.resolveAckGather ((hd hnil).2 hm (hmv.state ▸ hs))

/-- The messages of a slave that the master has yet to handle. -/
def Master.Gets (m : Master n) (i : Fin n) (outbox : List ToMaster) (msg : ToMaster) : Prop :=
  msg ∈ outbox ∨ (i, msg) ∈ m.waitingForReplay ∨ ∃ l, m.delayedResolve[i]? = some l ∧ msg = .resolve l

/-- What holds between a master and a slave. -/
structure Link (m : Master n) (i : Fin n) (s : Slave) (inbox : List ToSlave) (outbox : List ToMaster) : Prop where
  linkAt : ∀ r, LinkAt m i r (inbox.count (.request .prep r)) (outbox.count (.prepAck r)) (s.view r)
  waiting : s.waitingForReplay = []
  stage : s.state ≠ .rejoin
  lost : s.state = .down → s = .new .down s.journal
  silent : m.state = .down ∨ s.state = .down → inbox = [] ∧ outbox = []
  gone : s.state = .down → m.state ≠ .down → i ∈ m.resolveGather ∧ m.delayedResolve[i]? = none
  listed : m.state ≠ .down → ∀ r, (s.view r).Listed m.state →
    i ∈ m.resolveGather ∧ ((s.view r).rollback ∨ ∀ r', ¬ (s.view r').rollback)
  unasked : m.state = .resolve → s.state = .active → i ∉ m.resolveGather → s.resolveAckGather = false
  settled : m.state = .rejoin ∨ m.state = .active → s.state = .active →
    i ∉ m.resolveGather ∧ s.resolveAckGather = false
  inOk : ∀ msg ∈ inbox, InOk m i s msg
  outOk : ∀ msg, m.Gets i outbox msg → OutOk m i s msg

namespace Link

/-- A step of the slave. -/
theorem of_moves (h : Link m i s inbox outbox) (hmv : Moves m i s s')
    (hat : ∀ r, LinkAt m i r (inbox'.count (.request .prep r)) (outbox'.count (.prepAck r)) (s'.view r))
    (hwait : s'.waitingForReplay = s.waitingForReplay) (hlost : s.state = .down → s' = s)
    (hsilent : inbox = [] ∧ outbox = [] → m.state = .down ∨ s.state = .down → inbox' = [] ∧ outbox' = [])
    (hneed : m.state ≠ .down → ∀ r, (s'.view r).Listed m.state →
      (s'.view r).rollback ∨ ∀ r', ¬ (s'.view r').rollback)
    (hin : ∀ msg ∈ inbox', msg ∈ inbox) (hout : ∀ msg ∈ outbox', msg ∈ outbox ∨ OutOk m i s' msg) :
    Link m i s' inbox' outbox' where
  linkAt := hat
  waiting := hwait.trans h.waiting
  stage := hmv.state ▸ h.stage
  lost hs := by
    have hdown := hmv.state ▸ hs
    rw [hlost hdown]
    exact h.lost hdown
  silent hd := by
    rw [hmv.state] at hd
    exact hsilent (h.silent hd) hd
  gone hs := h.gone (hmv.state ▸ hs)
  listed hup r hl := ⟨(h.listed hup r (hmv.listed r hl).1).1, hneed hup r hl⟩
  unasked hm hs hg := hmv.resolveAckGather (h.unasked hm (hmv.state ▸ hs) hg)
  settled hm hs :=
    have hset := h.settled hm (hmv.state ▸ hs)
    ⟨hset.1, hmv.resolveAckGather hset.2⟩
  inOk msg hmem := (h.inOk msg (hin msg hmem)).moves hmv
  outOk msg hmem := by
    rcases hmem with hmem | hmem
    · rcases hout msg hmem with hmem | hok
      · exact (h.outOk msg (.inl hmem)).moves hmv
      · exact hok
    · exact (h.outOk msg (.inr hmem)).moves hmv


theorem not_down_of_mem {msg : ToSlave} (h : Link m i s inbox outbox) (hmem : msg ∈ inbox) :
    m.state ≠ .down ∧ s.state ≠ .down := by
  constructor
  · intro hd
    simp [(h.silent (.inl hd)).1] at hmem
  · intro hd
    simp [(h.silent (.inr hd)).1] at hmem

/-- When both are active, the master hears of what the slave commits. -/
theorem credits_of_active (h : Link m i s inbox outbox) (hm : m.state = .active) (hs : s.state = .active)
    (hb : m.Bound i r) : (s.view r).fate = some .commit ∨ m.Credits i r := by
  rcases (h.linkAt r).accounted (by simp [hm]) hb with hf | hc | ⟨⟨u, -, -, hg, -⟩, -⟩
  · exact .inl hf
  · exact .inr hc
  · exact ((h.settled (.inr hm) hs).1 hg).elim

/-- A slave is active when the master asks it to prepare, and so is the master. -/
theorem active_of_waits (hm : m.Ok) (h : Link m i s inbox outbox) (hw : m.Waits i r) :
    m.state = .active ∧ s.state = .active := by
  refine ⟨?_, (h.linkAt r).active (.inl hw)⟩
  by_contra hne
  obtain ⟨mdr, hreq, -⟩ := hw
  rw [hm.requests hne] at hreq
  simp at hreq

theorem active_of_witnessed (hm : m.Ok) (h : Link m i s inbox outbox) (hw : m.Witnessed i r) :
    m.state = .active ∧ s.state = .active := by
  refine ⟨?_, (h.linkAt r).active (.inr hw)⟩
  by_contra hne
  obtain ⟨mdr, hreq, -⟩ := hw
  rw [hm.requests hne] at hreq
  simp at hreq

/-- A request of the master. -/
theorem request {op : Opcode} (hm : m.Ok) (h : Link m i s (.request op r :: inbox) outbox)
    (hok : s.handleSlaveRequest op r = .ok s') : Link m i s' inbox outbox := by
  obtain ⟨hup, hsup⟩ := h.not_down_of_mem List.mem_cons_self
  have hsilent : ∀ {l : List ToSlave}, ToSlave.request op r :: inbox = [] ∧ outbox = [] →
      m.state = .down ∨ s.state = .down → l = [] ∧ outbox = [] := fun hnil => by cases hnil.1
  by_cases hs : s.state = .active
  case pos =>
    obtain ⟨he, hr⟩ := handleSlaveRequest_ok hok hs
    have hactive : m.state = .active := by
      cases op with
      | prep => exact (h.active_of_waits hm ((h.linkAt r).waits hup (by simp))).1
      | finish =>
        cases h.inOk _ List.mem_cons_self with
        | finish hdur hactive => exact hactive
    have hno : ∀ r, ¬ (s'.view r).Listed m.state :=
        fun r hl => View.not_listed (he.state.trans hs) (by simp [hactive]) hl
    refine h.of_moves (.of_elsewhere he (fun _ => .of_requested hr) fun hl => (hno r hl).elim) (fun r' => ?_)
      he.waitingForReplay (fun hd => (hsup hd).elim) hsilent (fun _ r hl => (hno r hl).elim)
          (fun _ => List.mem_cons_of_mem _) fun _ => .inl
    have hat := h.linkAt r'
    by_cases hr' : r' = r
    · subst hr'
      cases op with
      | prep =>
        rw [List.count_cons_self] at hat
        exact hat.prepares hm hup hr
      | finish =>
        rw [List.count_cons_of_ne (by simp)] at hat
        cases h.inOk _ List.mem_cons_self with
        | finish hdur => exact hat.finishes hr hdur (h.credits_of_active hactive hs)
    · rw [List.count_cons_of_ne (by simp [Ne.symm hr'])] at hat
      rwa [he.view r' hr']
  case neg =>
    cases op with
    | prep => exact (hs ((h.linkAt r).active (.inl ((h.linkAt r).waits hup (by simp))))).elim
    | finish =>
      have hreq : s.activeRequests[r]? = none := (h.linkAt r).idle hs
      unfold handleSlaveRequest at hok
      rw [hreq] at hok
      cases hok
      refine h.of_moves (.refl m i s) (fun r' => ?_) rfl (fun _ => rfl) hsilent (fun hup r hl => (h.listed hup r hl).2)
        (fun _ => List.mem_cons_of_mem _) fun _ => .inl
      simpa using h.linkAt r'

end Link

/-! ## Resolve acks -/

/-- A slave that goes through a resolve ack; `rest` is to come. -/
structure Acking (m : Master n) (i : Fin n) (asks acks : ℕ → ℕ) (s t : Slave) (rest : List ℕ) : Prop where
  linkAt : ∀ r, LinkAt m i r (asks r) (acks r) (t.view r)
  moves : Moves m i s t
  waiting : t.waitingForReplay = s.waitingForReplay
  told : ∀ r, (t.view r).Listed m.state → (t.view r).rollback ∨ r ∈ rest

namespace Acking

variable {asks acks : ℕ → ℕ} {t t' : Slave} {rest : List ℕ}

/-- One request of it. -/
theorem cons (h : Acking m i asks acks s t (r :: rest)) (he : Elsewhere r t t')
    (hat : LinkAt m i r (asks r) (acks r) (t'.view r)) (hf : (t.view r).Forward (t'.view r))
    (hl : (t'.view r).Listed m.state → (t.view r).Listed m.state ∧ (t'.view r).rollback) :
    Acking m i asks acks s t' rest where
  linkAt r' := by
    by_cases hr : r' = r
    · subst hr
      exact hat
    · rw [he.view r' hr]
      exact h.linkAt r'
  moves := h.moves.trans (.of_elsewhere he (fun _ => hf) fun hl' => ⟨(hl hl').1, fun _ => (hl hl').2⟩)
  waiting := he.waitingForReplay.trans h.waiting
  told r' hl' := by
    by_cases hr : r' = r
    · subst hr
      exact .inl (hl hl').2
    · rw [he.view r' hr] at hl' ⊢
      exact (h.told r' hl').imp_right fun hmem => List.mem_of_ne_of_mem hr hmem

theorem ackCommits {commit : List ℕ} (h : Acking m i asks acks s t (commit ++ rest)) (hup : m.state ≠ .down)
    (hc : ∀ r ∈ commit, m.Durable r ∧ (m.Bound i r → (s.view r).fate = some .commit ∨ m.Credits i r))
    (hok : commit.foldlM ackCommit t = .ok t') : Acking m i asks acks s t' rest := by
  induction commit generalizing t with
  | nil =>
    cases hok
    exact h
  | cons r commit ih =>
    rw [List.foldlM_cons, bind_ok] at hok
    obtain ⟨t₁, h₁, hok⟩ := hok
    obtain ⟨he, hr⟩ := ackCommit_ok h₁
    obtain ⟨hdur, hcredit⟩ := hc r List.mem_cons_self
    have hcredit' : m.Bound i r → (t.view r).fate = some .commit ∨ m.Credits i r := fun hb =>
      (hcredit hb).imp_left (h.moves.forward r hb).fate
    refine ih (h.cons he ((h.linkAt r).ackedCommit hr hup hdur hcredit') (.of_ackedCommit hr) fun hl => ?_)
      (fun r hr => hc r (List.mem_cons_of_mem _ hr)) hok
    exact (hr.not_listed hl).elim

theorem ackAborts {abort : List ℕ} (h : Acking m i asks acks s t (abort ++ rest)) (hup : m.state ≠ .down)
    (hno : ∀ r ∈ abort, m.Keeps i r (acks r) → m.Bound i r ∧ ¬ (s.view r).Prepared)
    (hok : abort.foldlM ackAbort t = .ok t') : Acking m i asks acks s t' rest := by
  induction abort generalizing t with
  | nil =>
    cases hok
    exact h
  | cons r abort ih =>
    rw [List.foldlM_cons, bind_ok] at hok
    obtain ⟨t₁, h₁, hok⟩ := hok
    obtain ⟨he, hr⟩ := ackAbort_ok h₁
    have hno' : m.Keeps i r (acks r) → ¬ (t.view r).Prepared := fun hk hp =>
      have hb := hno r List.mem_cons_self hk
      hb.2 ((h.moves.forward r hb.1).prepared hp)
    exact ih (h.cons he ((h.linkAt r).ackedAbort hr hup hno') (.of_ackedAbort hr) hr.rollback_of_listed)
      (fun r hr => hno r (List.mem_cons_of_mem _ hr)) hok

end Acking

namespace Link

/-- When nothing is waited for any more, there is nothing to be told of. -/
theorem outOk_resolvesIfDone {msg : ToMaster} (ht : ∀ r, (s.view r).Listed m.state → (s.view r).rollback)
    (hmem : msg ∈ s.resolvesIfDone m.state) : OutOk m i s msg := by
  obtain ⟨rfl, hg, hno⟩ := mem_resolvesIfDone hmem
  exact .resolve (fun r hl => .inl (ht r hl)) fun _ => ⟨fun r hl => hno r (ht r hl), fun _ _ => hg⟩

/-- An answer of the master. -/
theorem resolveAck {commit abort : List ℕ} (hm : m.Ok) (h : Link m i s (.resolveAck commit abort :: inbox) outbox)
    (hok : s.handleResolveAck m.state commit abort = .ok (s', out)) : Link m i s' inbox (outbox ++ out) := by
  obtain ⟨hup, hsup⟩ := h.not_down_of_mem List.mem_cons_self
  have hsilent : ∀ {l : List ToSlave} {l' : List ToMaster},
      ToSlave.resolveAck commit abort :: inbox = [] ∧ outbox = [] →
      m.state = .down ∨ s.state = .down → l = [] ∧ l' = [] := fun hnil => by cases hnil.1
  have hcount : ∀ r, (ToSlave.resolveAck commit abort :: inbox).count (.request .prep r) =
      inbox.count (.request .prep r) := fun r =>
    List.count_cons_of_ne (by simp)
  unfold handleResolveAck at hok
  split at hok
  case isTrue =>
    cases hok
    rw [List.append_nil]
    exact h.of_moves (.refl m i s) (fun r => hcount r ▸ h.linkAt r) rfl (fun _ => rfl) hsilent
        (fun hup r hl => (h.listed hup r hl).2)
      (fun _ => List.mem_cons_of_mem _) fun _ => .inl
  case isFalse hgather =>
    have hgather : s.resolveAckGather = true := by
      simp only [not_or, Bool.not_eq_true', Bool.not_eq_false] at hgather
      exact hgather.1
    simp only [bind_ok, pure_ok, Prod.mk.injEq] at hok
    obtain ⟨t₁, h₁, t₂, h₂, rfl, rfl⟩ := hok
    cases h.inOk _ List.mem_cons_self with
    | resolveAck hc ha ht =>
      have hidle : ¬ (m.state = .active ∧ s.state = .active) := by
        rintro ⟨hma, hsa⟩
        rw [(h.settled (.inr hma) hsa).2] at hgather
        cases hgather
      have hno : ∀ r ∈ abort, m.Keeps i r (outbox.count (.prepAck r)) → m.Bound i r ∧ ¬ (s.view r).Prepared := by
        rintro r hr (hb | hw | hpos)
        · exact ⟨hb, fun hp => hidle (ha r hr hb hp).symm⟩
        · exact (hidle (h.active_of_witnessed hm hw)).elim
        · exact (hidle (h.active_of_waits hm ((h.linkAt r).waits hup (by omega)))).elim
      have hack₀ : Acking m i (fun r => inbox.count (.request .prep r)) (fun r => outbox.count (.prepAck r)) s s
          (commit ++ abort) :=
        ⟨fun r => hcount r ▸ h.linkAt r, .refl m i s, rfl, fun r hl => by simpa using ht r hl⟩
      have hack₁ := hack₀.ackCommits hup hc h₁
      rw [← List.append_nil abort] at hack₁
      have hack := hack₁.ackAborts hup hno h₂
      have hmv : Moves m i s { t₂ with resolveAckGather := false } :=
        ⟨hack.moves.state, hack.moves.forward, hack.moves.listed, fun _ => rfl⟩
      have htold : ∀ r, (t₂.view r).Listed m.state → (t₂.view r).rollback := fun r hl =>
        (hack.told r hl).resolve_right List.not_mem_nil
      have hout : ∀ msg ∈ ({ t₂ with resolveAckGather := false } : Slave).resolvesIfDone m.state,
          OutOk m i { t₂ with resolveAckGather := false } msg := fun msg => outOk_resolvesIfDone htold
      refine h.of_moves hmv (fun r => ?_) hack.waiting (fun hd => (hsup hd).elim) hsilent
          (fun _ r hl => .inl (htold r hl))
        (fun _ => List.mem_cons_of_mem _) fun msg hmem => (List.mem_append.mp hmem).imp_right (hout msg)
      have hzero : (({ t₂ with resolveAckGather := false } : Slave).resolvesIfDone m.state).count (.prepAck r) = 0 := by
        refine List.count_eq_zero.mpr fun hmem => ?_
        cases (mem_resolvesIfDone hmem).1
      rw [List.count_append, hzero, add_zero]
      exact hack.linkAt r

/-! ## The journal -/

/-- An entry is in the journal. -/
theorem logged (hm : m.Ok) (h : Link m i s inbox outbox) (hok : s.logged m.state = .ok (s', out)) :
    Link m i s' inbox (if m.state = .down then outbox else outbox ++ out) := by
  cases hw : s.writing with
  | nil =>
    unfold Slave.logged at hok
    rw [hw] at hok
    cases hok
    rwa [List.append_nil, ite_self]
  | cons e rest =>
    obtain ⟨op, r⟩ := e
    obtain ⟨he, hl, hroll'⟩ := logged_ok hw hok
    have hup : s.state ≠ .down := by
      intro hd
      rw [h.lost hd] at hw
      cases hw
    have hdown : s.state = .down → s' = s := fun hd => (hup hd).elim
    have hmv : Moves m i s s' := .of_elsewhere he (fun hb => .of_logged ((h.linkAt r).kept (.inl hb)) hl)
      (hl.listed (h.linkAt r).idle)
    have hrollback : m.state ≠ .down → .rollback = op → ∀ r', (s'.view r').Listed m.state → (s'.view r').rollback := by
      rintro hup rfl r' hl'
      obtain ⟨hold, hkeep⟩ := hmv.listed r' hl'
      refine hkeep (((h.listed hup r' hold).2).resolve_right fun hnone => hnone r ?_)
      cases hl with
      | aborted hrec => simp [records_cons hw] at hrec
      | prepare hrec => simp [records_cons hw] at hrec
      | commit hrec => simp [records_cons hw] at hrec
      | rollback hrec hroll => exact hroll
    have hneed : m.state ≠ .down → ∀ r', (s'.view r').Listed m.state →
        (s'.view r').rollback ∨ ∀ r'', ¬ (s'.view r'').rollback := by
      intro hup r' hl'
      obtain ⟨hold, hkeep⟩ := hmv.listed r' hl'
      refine ((h.listed hup r' hold).2).imp hkeep fun hnone r'' => ?_
      by_cases hr : r'' = r
      · subst hr
        cases hl with
        | aborted hrec =>
          have hact := h.active_of_waits hm ((h.linkAt r'').waits hup (by simp [hrec]))
          exact (View.not_listed hact.2 (by simp [hact.1]) hold).elim
        | prepare hrec hreq ha hv =>
          rw [hv]
          exact hnone r''
        | commit hrec hv =>
          rw [hv]
          exact hnone r''
        | rollback hrec hroll => exact (hnone r'' hroll).elim
      · rw [he.view r'' hr]
        exact hnone r''
    have hout : m.state ≠ .down → ∀ msg ∈ out, OutOk m i s' msg := by
      intro hup msg hmem
      cases hl with
      | aborted => cases hmem
      | prepare => exact List.mem_singleton.mp hmem ▸ .prepAck r
      | commit hrec hv =>
        rw [List.mem_singleton.mp hmem]
        exact .committed ((h.linkAt r).durable (by simp [hrec])) fun _ => by simp [hv, View.fate]
      | rollback hrec hroll hv =>
        have hop : .rollback = op := by
          rw [records_cons hw] at hrec
          exact (List.cons.inj hrec).1.symm
        rw [(hroll' hop.symm)] at hmem
        exact outOk_resolvesIfDone (hrollback hup hop) hmem
    by_cases hd : m.state = .down
    case pos =>
      obtain ⟨hin, hnil⟩ := h.silent (.inl hd)
      subst hin hnil
      rw [if_pos hd]
      refine h.of_moves hmv (fun r' => ?_) he.waitingForReplay hdown (fun hsil _ => hsil) hneed (fun _ => id) fun _ =>
          .inl
      by_cases hr : r' = r
      · subst hr
        exact (h.linkAt r').logged hl (.inr ⟨hd, rfl⟩)
      · rw [he.view r' hr]
        exact h.linkAt r'
    case neg =>
      rw [if_neg hd]
      refine h.of_moves hmv (fun r' => ?_) he.waitingForReplay hdown (fun _ hd' => ?_) hneed (fun _ => id)
        fun msg hmem => (List.mem_append.mp hmem).imp_right (hout hd msg)
      · rw [List.count_append]
        by_cases hr : r' = r
        · subst hr
          exact (h.linkAt r').logged hl (.inl rfl)
        · rw [he.view r' hr, hl.count_of_ne hr]
          exact h.linkAt r'
      · exact (hd'.elim hd hup).elim

end Link

end CephMds.TwoPhase
