import CephMds.Proof.TwoPhase.Mail

/-!
# The master

What a step of the master leaves of what holds between it and a slave (`Shift`),
for each of its functions. An update is closed when all that it names have
committed: none is credited any more, and none is going to resolve.
-/

namespace CephMds.TwoPhase

open Checked Slave Writes

variable {n : ℕ} {m m' : Master n} {i src who : Fin n} {r asks acks : ℕ} {s : Slave} {v : View}
  {inbox inbox' : List ToSlave} {outbox outbox' : List ToMaster} {u : UMaster n} {mdr : Request n}

theorem getElem?_of_erase {κ β : Type*} [Ord κ] [Std.TransOrd κ] [Std.LawfulEqOrd κ] {t : Std.ExtTreeMap κ β}
    {a k : κ} {b : β} (h : (t.erase a)[k]? = some b) : t[k]? = some b := by
  classical
  rw [getElem?_erase] at h
  split at h
  · cases h
  · exact h

/-! ## Steps of the master -/

/-- What a step of the master leaves to a slave. -/
structure Shift (m m' : Master n) (i : Fin n) (s : Slave) : Prop where
  state : m'.state = m.state
  durable : ∀ r, m.Durable r → m'.Durable r
  bound : ∀ r, m'.Bound i r → m.Bound i r ∨ ¬ m.Durable r ∧ s.state = .active ∧ m.state = .active
  credits : ∀ r, m.Bound i r → m.Credits i r → (s.view r).fate = some .commit ∨ m'.Credits i r

theorem InOk.shift {msg : ToSlave} (h : InOk m i s msg) (hs : Shift m m' i s) : InOk m' i s msg := by
  cases h with
  | prep r => exact .prep r
  | finish hdur hactive => exact .finish (hs.durable _ hdur) (hs.state.trans hactive)
  | resolveAck hc ha ht =>
    refine .resolveAck (fun r hr => ⟨hs.durable r (hc r hr).1, fun hb => ?_⟩) (fun r hr hb hp => ?_) fun r hl => ?_
    · rcases hs.bound r hb with hb | ⟨hno, -⟩
      · exact ((hc r hr).2 hb).elim .inl (hs.credits r hb)
      · exact (hno (hc r hr).1).elim
    · rw [hs.state]
      rcases hs.bound r hb with hb | ⟨-, hboth⟩
      · exact ha r hr hb hp
      · exact hboth
    · rw [hs.state] at hl
      exact ht r hl

theorem OutOk.shift {msg : ToMaster} (h : OutOk m i s msg) (hs : Shift m m' i s) : OutOk m' i s msg := by
  cases h with
  | prepAck r => exact .prepAck r
  | committed hdur hf =>
    refine .committed (hs.durable _ hdur) fun hb => ?_
    rcases hs.bound _ hb with hb | ⟨hno, -⟩
    · exact hf hb
    · exact (hno hdur).elim
  | resolve ht hd => exact .resolve (by rwa [hs.state]) (by rwa [hs.state])

theorem LinkAt.shift (h : LinkAt m i r asks acks v) (hstate : m'.state ≠ .down → m.state ≠ .down)
    (hdur : m.Durable r → m'.Durable r)
    (hbound : m'.Bound i r → m.Bound i r) (hwit : m'.Witnessed i r → m.Witnessed i r)
    (hwaits : m'.Waits i r ↔ m.Waits i r)
        (hcredits : m.Bound i r → m.Credits i r → v.fate = some .commit ∨ m'.Credits i r)
    (hrecovers : m.Bound i r → m.Recovers i r → v.records = [] →
      v.fate = some .commit ∨ m'.Credits i r ∨ m'.Recovers i r)
   
    (hclosed : m'.Closed r → m.Bound i r → m.Closed r ∨ v.fate = some .commit) : LinkAt m' i r asks acks v where
  idle := h.idle
  durable hmem := hdur (h.durable hmem)
  kept hk := h.kept (hk.imp hbound fun hk => hk.imp_left hwit)
  active hw := h.active (hw.imp hwaits.mp hwit)
  single := h.single
  asked hup := h.asked (hstate hup)
  waits hup hpos := hwaits.mpr (h.waits (hstate hup) hpos)
  ends := h.ends
  accounted hup hb := by
    rcases h.accounted (hstate hup) (hbound hb) with hf | hc | ⟨hrec, hnil⟩
    · exact .inl hf
    · exact (hcredits (hbound hb) hc).imp_right .inl
    · exact (hrecovers (hbound hb) hrec hnil).imp_right fun h => h.imp_right fun hrec => ⟨hrec, hnil⟩
  closed hc hb := (hclosed hc (hbound hb)).elim (fun hc => h.closed hc (hbound hb)) id

/-- A step of the master. -/
theorem Link.shift (h : Link m i s inbox outbox) (hs : Shift m m' i s)
    (hat : ∀ r, LinkAt m' i r (inbox'.count (.request .prep r)) (outbox'.count (.prepAck r)) (s.view r))
    (hgather : i ∈ m'.resolveGather ↔ i ∈ m.resolveGather)
    (hgone : s.state = .down → m.delayedResolve[i]? = none → m'.delayedResolve[i]? = none)
    (hsilent : inbox = [] ∧ outbox = [] → m.state = .down ∨ s.state = .down → inbox' = [] ∧ outbox' = [])
    (hin : ∀ msg ∈ inbox', msg ∈ inbox ∨ InOk m' i s msg)
    (hout : ∀ msg, m'.Gets i outbox' msg → m.Gets i outbox msg ∨ OutOk m i s msg) : Link m' i s inbox' outbox' where
  linkAt := hat
  waiting := h.waiting
  stage := h.stage
  lost := h.lost
  silent hd := by
    rw [hs.state] at hd
    exact hsilent (h.silent hd) hd
  gone hd hup := by
    rw [hs.state] at hup
    obtain ⟨hg, hnone⟩ := h.gone hd hup
    exact ⟨hgather.mpr hg, hgone hd hnone⟩
  listed hup r hl := by
    rw [hs.state] at hup hl
    exact (h.listed hup r hl).imp_left hgather.mpr
  unasked hm hact hg := h.unasked (hs.state ▸ hm) hact (mt hgather.mpr hg)
  settled hm hact := by
    rw [hs.state] at hm
    exact (h.settled hm hact).imp_left (mt hgather.mp)
  inOk msg hmem := (hin msg hmem).elim (fun hmem => (h.inOk msg hmem).shift hs) id
  outOk msg hmem := ((hout msg hmem).elim (h.outOk msg) id).shift hs

/-- What is credited stays so, and what is going to resolve. -/
def Carries (m m' : Master n) (i : Fin n) : Prop :=
  ∀ (r : ℕ) (u : UMaster n), m.uncommittedMasters[r]? = some u → u.committing = false → ∃ u' : UMaster n,
      m'.uncommittedMasters[r]? = some u' ∧
    u'.committing = false ∧ (i ∈ u.slaves → i ∈ u'.slaves) ∧ (u.recovering = true → u'.recovering = true)

theorem Carries.credits (h : Carries m m' i) (hc : m.Credits i r) : m'.Credits i r := by
  obtain ⟨u, hu, hcom, hmem⟩ := hc
  obtain ⟨u', hu', hcom', hslaves, -⟩ := h r u hu hcom
  exact ⟨u', hu', hcom', hslaves hmem⟩

theorem Carries.recovers (h : Carries m m' i) (hstate : m'.state = m.state)
    (hgather : i ∈ m.resolveGather → i ∈ m'.resolveGather) (hc : m.Recovers i r) : m'.Recovers i r := by
  obtain ⟨u, hu, hcom, hmem, hrec⟩ := hc
  obtain ⟨u', hu', hcom', -, hrec'⟩ := h r u hu hcom
  exact ⟨u', hu', hcom', hgather hmem, hrec.imp hrec' fun hm => hstate.trans hm⟩

theorem Carries.of_eq (h : m'.uncommittedMasters = m.uncommittedMasters) : Carries m m' i := fun _ u hu hc =>
  ⟨u, h ▸ hu, hc, id, id⟩

/-- Only what the master waits for changes. -/
structure Quiet (m m' : Master n) : Prop where
  state : m'.state = m.state
  journal : m'.journal = m.journal
  writing : m'.writing = m.writing
  activeRequests : m'.activeRequests = m.activeRequests
  resolveGather : m'.resolveGather = m.resolveGather

theorem Quiet.shift (hq : Quiet m m') (hc : Carries m m' i) : Shift m m' i s where
  state := hq.state
  durable r hd := by rwa [Master.Durable, hq.journal]
  bound r hb := .inl (by rwa [Master.Bound, hq.journal, hq.writing] at hb)
  credits r _ h := .inr (hc.credits h)

theorem Quiet.trans {m'' : Master n} (h : Quiet m m') (h' : Quiet m' m'') : Quiet m m'' :=
  ⟨h'.state.trans h.state, h'.journal.trans h.journal, h'.writing.trans h.writing,
    h'.activeRequests.trans h.activeRequests, h'.resolveGather.trans h.resolveGather⟩

theorem Quiet.ok (hq : Quiet m m') (hm : m.Ok) (hup : m.state ≠ .down)
    (hmasters : ∀ (r : ℕ) (u' : UMaster n), m'.uncommittedMasters[r]? = some u' →
      ∃ u, m.uncommittedMasters[r]? = some u ∧ (u'.safe = true → u.safe = true ∨ m.Durable r))
    (hwait : ∀ p ∈ m'.waitingForReplay, ∃ r, p.2 = .committed r)
    (hdelayed : ∀ (i : Fin n) (l : List ℕ), m'.delayedResolve[i]? = some l → l ≠ []) : m'.Ok where
  down hd := (hup (hq.state ▸ hd)).elim
  safe r u' hu' hs := by
    obtain ⟨u, hu, hsafe⟩ := hmasters r u' hu'
    rw [Master.Durable, hq.journal]
    exact (hsafe hs).elim (hm.safe r u hu) id
  requests hne := hq.activeRequests.trans (hm.requests (hq.state ▸ hne))
  fresh r mdr hmdr hc := by
    rw [hq.journal, hq.writing]
    exact hm.fresh r mdr (hq.activeRequests ▸ hmdr) hc
  disjoint r mdr hmdr := hm.disjoint r mdr (hq.activeRequests ▸ hmdr)
  waiting := hwait
  delayed := hdelayed
  known r u' hu' := by
    obtain ⟨u, hu, -⟩ := hmasters r u' hu'
    rw [hq.journal, hq.writing]
    exact hm.known r u hu

theorem Link.carry (h : Link m i s inbox outbox) (hq : Quiet m m') (hc : Carries m m' i)
    (hgone : s.state = .down → m.delayedResolve[i]? = none → m'.delayedResolve[i]? = none)
    (hin : inbox' = inbox ∨ (m.state ≠ .down ∧ s.state ≠ .down) ∧
      ∃ msg, inbox' = inbox ++ [msg] ∧ InOk m' i s msg ∧ ∀ r, msg ≠ .request .prep r)
    (hcount : ∀ r, outbox'.count (.prepAck r) = outbox.count (.prepAck r)) (hnil : outbox = [] → outbox' = [])
    (hout : ∀ msg, m'.Gets i outbox' msg → m.Gets i outbox msg ∨ OutOk m i s msg) : Link m' i s inbox' outbox' := by
  have hs : Shift m m' i s := hq.shift hc
  have hat : ∀ r, LinkAt m' i r (inbox.count (.request .prep r)) (outbox'.count (.prepAck r)) (s.view r) := by
    intro r
    rw [hcount]
    refine (h.linkAt r).shift (by rw [hq.state]; exact id) (hs.durable r) (fun hb => ?_) (fun hw => ?_) ?_
        (fun _ h => .inr (hc.credits h))
      (fun _ h _ => .inr (.inr (hc.recovers hq.state (by rw [hq.resolveGather]; exact id) h))) fun hcl _ => .inl ?_
    · rwa [Master.Bound, hq.journal, hq.writing] at hb
    · rwa [Master.Witnessed, hq.activeRequests] at hw
    · rw [Master.Waits, Master.Waits, hq.activeRequests]
    · rwa [Master.Closed, hq.journal, hq.writing] at hcl
  rcases hin with rfl | ⟨⟨hup, hsup⟩, msg, rfl, hok, hprep⟩
  · exact h.shift hs hat (by rw [hq.resolveGather]) hgone (fun hsil _ => ⟨hsil.1, hnil hsil.2⟩) (fun _ => .inl) hout
  · refine h.shift hs (fun r => ?_) (by rw [hq.resolveGather]) hgone (fun _ hd => (hd.elim hup hsup).elim)
      (fun msg' hmem => ?_) hout
    · rw [List.count_append, List.count_eq_zero.mpr fun hmem => hprep r (List.mem_singleton.mp hmem).symm]
      exact hat r
    · refine (List.mem_append.mp hmem).imp_right fun hmem => ?_
      rwa [List.mem_singleton.mp hmem]

/-! ## Requests -/

theorem waits_setRequest (r' : ℕ) : (m.setRequest r mdr).Waits i r' ↔
    if r' = r then mdr.committing = false ∧ i ∈ mdr.waitingOnSlave else m.Waits i r' := by
  by_cases hr : r' = r
  · simp [Master.Waits, Master.setRequest, hr]
  · simp [Master.Waits, Master.setRequest, getElem?_insert, hr]

theorem witnessed_setRequest (r' : ℕ) : (m.setRequest r mdr).Witnessed i r' ↔
    if r' = r then mdr.committing = false ∧ i ∈ mdr.witnessed else m.Witnessed i r' := by
  by_cases hr : r' = r
  · simp [Master.Witnessed, Master.setRequest, hr]
  · simp [Master.Witnessed, Master.setRequest, getElem?_insert, hr]

theorem Master.Ok.setRequest (hm : m.Ok) (hactive : m.state = .active)
    (hfresh : mdr.committing = false → ∀ e ∈ m.journal ++ m.writing, e.reqid ≠ r)
    (hdisj : ∀ i ∈ mdr.witnessed, i ∉ mdr.waitingOnSlave) : (m.setRequest r mdr).Ok where
  down hd := by cases hactive.symm.trans hd
  safe := hm.safe
  requests hne := (hne hactive).elim
  fresh r' mdr' hreq hc := by
    simp only [Master.setRequest, getElem?_insert] at hreq
    split at hreq
    case isTrue hr =>
      cases hreq
      exact hr ▸ hfresh hc
    case isFalse => exact hm.fresh r' mdr' hreq hc
  disjoint r' mdr' hreq := by
    simp only [Master.setRequest, getElem?_insert] at hreq
    split at hreq
    case isTrue =>
      cases hreq
      exact hdisj
    case isFalse => exact hm.disjoint r' mdr' hreq
  waiting := hm.waiting
  delayed := hm.delayed
  known := hm.known

/-- A request changes. -/
theorem Link.setRequest (h : Link m i s inbox outbox)
    (hat : LinkAt (m.setRequest r mdr) i r (inbox'.count (.request .prep r)) (outbox'.count (.prepAck r)) (s.view r))
    (hin : ∀ msg ∈ inbox', msg ∈ inbox ∨ msg = .request .prep r) (hout : outbox' ⊆ outbox)
    (hsilent : inbox = [] ∧ outbox = [] → m.state = .down ∨ s.state = .down → inbox' = [] ∧ outbox' = [])
    (hinCount : ∀ r' ≠ r, inbox'.count (.request .prep r') = inbox.count (.request .prep r'))
    (houtCount : ∀ r' ≠ r, outbox'.count (.prepAck r') = outbox.count (.prepAck r')) :
    Link (m.setRequest r mdr) i s inbox' outbox' := by
  refine h.shift ⟨rfl, fun _ => id, fun _ => .inl, fun _ _ => .inr⟩ (fun r' => ?_) Iff.rfl (fun _ => id) hsilent
    (fun msg hmem => (hin msg hmem).imp_right fun hmsg => by rw [hmsg]; exact .prep r) fun msg hmsg => .inl
        (hmsg.imp_left fun hmem => hout hmem)
  by_cases hr : r' = r
  · subst hr
    exact hat
  · rw [hinCount r' hr, houtCount r' hr]
    refine (h.linkAt r').shift id id id (fun hw => ?_) ?_ (fun _ => .inr) (fun _ h _ => .inr (.inr h)) fun h _ => .inl h
    · rwa [witnessed_setRequest, if_neg hr] at hw
    · rw [waits_setRequest, if_neg hr]

/-- It goes on for a slave as before. -/
theorem Link.setRequest_same (h : Link m i s inbox outbox)
    (hwaits : mdr.committing = false ∧ i ∈ mdr.waitingOnSlave ↔ m.Waits i r)
    (hwit : mdr.committing = false → i ∈ mdr.witnessed → m.Witnessed i r) :
        Link (m.setRequest r mdr) i s inbox outbox := by
  refine h.setRequest ?_ (fun _ => .inl) (fun _ => id) (fun h _ => h) (fun _ _ => rfl) fun _ _ => rfl
  refine (h.linkAt r).shift id id id (fun hw => ?_) ?_ (fun _ => .inr) (fun _ h _ => .inr (.inr h)) fun h _ => .inl h
  · rw [witnessed_setRequest, if_pos rfl] at hw
    exact hwit hw.1 hw.2
  · rw [waits_setRequest, if_pos rfl]
    exact hwaits

/-! ## All slaves -/

/-- The messages of the master get to the slaves that are up. -/
def delivered (slaves : Fin n → Slave) (ins : Fin n → List ToSlave) (out : List (Fin n × ToSlave)) :
    Fin n → List ToSlave := fun who =>
  ins who ++ if (slaves who).state = .down then [] else (out.filter fun q => q.1 = who).map Prod.snd

section Delivered

variable (slaves : Fin n → Slave) (ins : Fin n → List ToSlave)

theorem delivered_nil : delivered slaves ins [] = ins := by
  funext who
  simp [delivered]

theorem delivered_append (out out' : List (Fin n × ToSlave)) :
    delivered slaves ins (out ++ out') = delivered slaves (delivered slaves ins out) out' := by
  funext who
  unfold delivered
  split
  · simp
  · simp

theorem delivered_self {msg : ToSlave} (hup : (slaves who).state ≠ .down) :
    delivered slaves ins [(who, msg)] who = ins who ++ [msg] := by
  simp [delivered, hup]

theorem delivered_of_ne {msg : ToSlave} (hne : i ≠ who) : delivered slaves ins [(who, msg)] i = ins i := by
  simp [delivered, hne.symm]

end Delivered

/-- What holds of a master and its slaves. -/
structure Linked (m : Master n) (slaves : Fin n → Slave) (ins : Fin n → List ToSlave) (outs : Fin n → List ToMaster) :
    Prop where
  ok : m.Ok
  link : ∀ i, Link m i (slaves i) (ins i) (outs i)

/-- The update that is submitted. -/
theorem LinkAt.submit {W : Finset (Fin n)} (h : LinkAt m i r asks acks v) (hup : m.state ≠ .down)
    (hfresh : ∀ e ∈ m.journal ++ m.writing, e.reqid ≠ r) (hno : ¬ m.Waits i r)
    (hreq : ∀ mdr, m.activeRequests[r]? = some mdr → mdr.committing = true) (hkept : i ∈ W → v.Kept) :
    LinkAt { m.setMaster r ⟨W, false, false, false⟩ with writing := m.writing ++ [.update r W] } i r asks acks v := by
  have hmem : ∀ e : LogEvent n, e ∈ m.journal ++ (m.writing ++ [.update r W]) ↔
      e ∈ m.journal ++ m.writing ∨ e = .update r W := by simp [or_assoc]
  have hzero : ¬ 0 < asks + v.records.count .prepare + acks := fun hpos => hno (h.waits hup hpos)
  have hnew : ∀ W', .update r W' ∈ m.journal ++ (m.writing ++ [.update r W]) → W' = W := fun W' he => by
    rcases (hmem _).mp he with he | heq
    · exact (hfresh _ he rfl).elim
    · cases heq
      rfl
  have hwit : ¬ m.Witnessed i r := by
    rintro ⟨mdr, hmdr, hc, -⟩
    rw [hreq mdr hmdr] at hc
    cases hc
  exact
    { idle := h.idle
      durable := h.durable
      kept := fun hk => by
        rcases hk with ⟨W', he, hi⟩ | hw | hpos
        · rw [hnew W' he] at hi
          exact hkept hi
        · exact (hwit hw).elim
        · exact (hzero (by omega)).elim
      active := h.active
      single := h.single
      asked := h.asked
      waits := h.waits
      ends := h.ends
      accounted := fun _ hb => by
        obtain ⟨W', he, hi⟩ := hb
        rw [hnew W' he] at hi
        refine .inr (.inl ⟨⟨W, false, false, false⟩, ?_, rfl, hi⟩)
        exact (getElem?_insert m.uncommittedMasters r r _).trans (if_pos rfl)
      closed := fun hc _ => by
        rcases (hmem _).mp hc with hc | heq
        · exact (hfresh _ hc rfl).elim
        · cases heq }

namespace Linked

variable {slaves : Fin n → Slave} {ins : Fin n → List ToSlave} {outs : Fin n → List ToMaster}

/-! ## Requests of clients -/

theorem start (h : Linked m slaves ins outs) (hactive : m.state = .active) (hnone : m.activeRequests[r]? = none)
    (hfresh : ∀ e ∈ m.journal ++ m.writing, e.reqid ≠ r) : Linked (m.start r) slaves ins outs where
  ok := h.ok.setRequest hactive (fun _ => hfresh) (by simp)
  link i := by
    refine (h.link i).setRequest_same ?_ (by simp)
    simp [Master.Waits, hnone]

theorem prepare (h : Linked m slaves ins outs) (hok : m.prepare r who = .ok m') (hactive : m.state = .active)
    (hs : (slaves who).state = .active) (hmdr : m.activeRequests[r]? = some mdr) (hc : mdr.committing = false)
    (hwit : who ∉ mdr.witnessed) (hwait : who ∉ mdr.waitingOnSlave) :
    Linked m' slaves (delivered slaves ins [(who, .request .prep r)]) outs := by
  simp only [Master.prepare, hmdr, bind_ok, deref_ok, assert_ok, pure_ok, Option.some.injEq] at hok
  obtain ⟨_, rfl, -, -, rfl⟩ := hok
  have hwaits : ∀ i, m.Waits i r ↔ i ∈ mdr.waitingOnSlave := fun i => by simp [Master.Waits, hmdr, hc]
  have hwits : ∀ i, m.Witnessed i r ↔ i ∈ mdr.witnessed := fun i => by simp [Master.Witnessed, hmdr, hc]
  refine ⟨h.ok.setRequest hactive (fun _ => h.ok.fresh r mdr hmdr hc) fun i hi hi' => ?_, fun i => ?_⟩
  · rcases Finset.mem_insert.mp hi' with rfl | hi'
    · exact hwit hi
    · exact h.ok.disjoint r mdr hmdr i hi hi'
  · by_cases hi : i = who
    case neg =>
      rw [delivered_of_ne slaves ins hi]
      refine (h.link i).setRequest_same ?_ fun _ hi' => (hwits i).mpr hi'
      simp [hwaits, hc, hi]
    case pos =>
      subst hi
      have hup : m.state ≠ .down := by simp [hactive]
      have hsup : (slaves i).state ≠ .down := by simp [hs]
      rw [delivered_self slaves ins hsup]
      have hat := (h.link i).linkAt r
      have hzero : (ins i).count (.request .prep r) + ((slaves i).view r).records.count .prepare +
          (outs i).count (.prepAck r) = 0 := by
        by_contra hne
        exact hwait ((hwaits i).mp (hat.waits hup (by omega)))
      have hwit' : ∀ {i}, (m.setRequest r { mdr with waitingOnSlave := insert i mdr.waitingOnSlave }).Witnessed i r →
          m.Witnessed i r := fun hw => by
        rw [witnessed_setRequest, if_pos rfl] at hw
        exact (hwits _).mpr hw.2
      refine (h.link i).setRequest ?_ (fun msg hmem => (List.mem_append.mp hmem).imp_right List.mem_singleton.mp)
        (fun _ => id) (fun _ hd => (hd.elim hup hsup).elim) (fun r' hr => ?_) fun _ _ => rfl
      · rw [List.count_append, List.count_singleton_self]
        exact
          { idle := hat.idle
            durable := hat.durable
            kept := fun hk => hat.kept (hk.imp_right fun hk => hk.imp_left hwit')
            active := fun _ => hs
            single := hat.single
            asked := fun _ => by omega
            waits := fun _ _ => by
              rw [waits_setRequest, if_pos rfl]
              exact ⟨hc, Finset.mem_insert_self i _⟩
            ends := hat.ends
            accounted := hat.accounted
            closed := hat.closed }
      · rw [List.count_append, List.count_singleton]
        simp [hr.symm]

/-- `OP_LINKPREPACK`. -/
theorem handlePrepAck {rest : List ToMaster} (h : Linked m slaves ins outs) (hsrc : outs src = .prepAck r :: rest)
    (hok : m.handlePrepAck r src = .ok m') : Linked m' slaves ins (Function.update outs src rest) := by
  have hlink := h.link src
  rw [hsrc] at hlink
  have hup : m.state ≠ .down := fun hd => by cases (hlink.silent (.inl hd)).2
  have hwaits := (hlink.linkAt r).waits hup (by simp)
  have hasked := (hlink.linkAt r).asked hup
  have hboth := hlink.active_of_waits h.ok hwaits
  have hkept := (hlink.linkAt r).kept (.inr (.inr (by simp)))
  obtain ⟨mdr, hmdr, hc, hwait⟩ := hwaits
  simp only [Master.handlePrepAck, hmdr, bind_ok, deref_ok, assert_ok, pure_ok, Option.some.injEq,
    decide_eq_true_eq] at hok
  obtain ⟨-, -, _, rfl, -, hwit, -, -, rfl⟩ := hok
  rw [List.count_cons_self] at hasked
  refine ⟨h.ok.setRequest hboth.1 (fun _ => h.ok.fresh r mdr hmdr hc) fun i hi hi' => ?_, fun i => ?_⟩
  · obtain ⟨hne, hi'⟩ := Finset.mem_erase.mp hi'
    exact h.ok.disjoint r mdr hmdr i (Finset.mem_of_mem_insert_of_ne hi hne) hi'
  · by_cases hi : i = src
    case neg =>
      rw [Function.update_of_ne hi]
      refine (h.link i).setRequest_same ?_ fun _ hi' => ⟨mdr, hmdr, hc, Finset.mem_of_mem_insert_of_ne hi' hi⟩
      simp [Master.Waits, hmdr, hc, hi]
    case pos =>
      subst hi
      rw [Function.update_self]
      refine hlink.setRequest ?_ (fun _ => .inl) (List.subset_cons_self _ _) (fun hnil => by cases hnil.2)
          (fun _ _ => rfl)
        fun r' hr => ?_
      · have hat := hlink.linkAt r
        exact
          { idle := hat.idle
            durable := hat.durable
            kept := fun _ => hkept
            active := fun _ => hboth.2
            single := hat.single
            asked := fun _ => by omega
            waits := fun _ hpos => by omega
            ends := hat.ends
            accounted := hat.accounted
            closed := hat.closed }
      · rw [List.count_cons_of_ne (by simp [hr.symm])]

/-- An update is submitted that names slaves that have prepared it. -/
theorem submit (h : Linked m slaves ins outs) {W : Finset (Fin n)} (hactive : m.state = .active)
    (hfresh : ∀ e ∈ m.journal ++ m.writing, e.reqid ≠ r) (hno : ∀ i, ¬ m.Waits i r)
    (hreq : ∀ mdr, m.activeRequests[r]? = some mdr → mdr.committing = true)
    (hkept : ∀ i ∈ W, ((slaves i).view r).Kept ∧ (slaves i).state = .active) :
    Linked { m.setMaster r ⟨W, false, false, false⟩ with writing := m.writing ++ [.update r W] } slaves ins outs := by
  have hmem : ∀ e : LogEvent n, e ∈ m.journal ++ (m.writing ++ [.update r W]) ↔
      e ∈ m.journal ++ m.writing ∨ e = .update r W := by simp [or_assoc]
  have hmasters : ∀ r', (m.setMaster r ⟨W, false, false, false⟩).uncommittedMasters[r']? =
      if r' = r then some ⟨W, false, false, false⟩ else m.uncommittedMasters[r']? := fun r' =>
    getElem?_insert m.uncommittedMasters r r' _
  have hdur : ¬ m.Durable r := fun hd => hd.not_fresh hfresh
  refine ⟨⟨fun hd => ?_, fun r' u hu hs => ?_, h.ok.requests,
    fun r' mdr hmdr hc e he => ?_, h.ok.disjoint, h.ok.waiting,
    h.ok.delayed, fun r' u hu => ?_⟩, fun i => ?_⟩
  · cases hactive.symm.trans hd
  · rw [hmasters] at hu
    split at hu
    · cases hu
      cases hs
    · exact h.ok.safe r' u hu hs
  · rcases (hmem e).mp he with he | rfl
    · exact h.ok.fresh r' mdr hmdr hc e he
    · rintro rfl
      rw [hreq mdr hmdr] at hc
      cases hc
  · rw [hmasters] at hu
    split at hu
    case isTrue hr => exact ⟨_, (hmem _).mpr (.inr rfl), hr.symm⟩
    case isFalse =>
      obtain ⟨e, he, hr⟩ := h.ok.known r' u hu
      exact ⟨e, (hmem e).mpr (.inl he), hr⟩
  · have hbound : ∀ r' ≠ r, ∀ W', .update r' W' ∈ m.journal ++ (m.writing ++ [.update r W]) →
        .update r' W' ∈ m.journal ++ m.writing := fun r' hr W' he => by
      refine ((hmem _).mp he).resolve_right fun heq => ?_
      cases heq
      exact hr rfl
    have hcredits : ∀ r', m.Bound i r' → m.uncommittedMasters[r']? =
        (m.setMaster r ⟨W, false, false, false⟩).uncommittedMasters[r']? := fun r' hb => by
      rw [hmasters, if_neg]
      rintro rfl
      exact hb.not_fresh hfresh
    refine (h.link i).shift ⟨rfl, fun _ => id, fun r' hb => ?_, fun r' hb hc => .inr ?_⟩ (fun r' => ?_) Iff.rfl
      (fun _ => id) (fun h _ => h) (fun _ => .inl) fun _ => .inl
    · by_cases hr : r' = r
      · obtain ⟨W', he, hi⟩ := hb
        subst hr
        rcases (hmem _).mp he with he | heq
        · exact (hfresh _ he rfl).elim
        · cases heq
          exact .inr ⟨hdur, (hkept i hi).2, hactive⟩
      · obtain ⟨W', he, hi⟩ := hb
        exact .inl ⟨W', hbound r' hr W' he, hi⟩
    · obtain ⟨u, hu, hcom, hi⟩ := hc
      exact ⟨u, (hcredits r' hb).symm.trans hu, hcom, hi⟩
    · have hat := (h.link i).linkAt r'
      by_cases hr : r' = r
      · subst hr
        exact hat.submit (by simp [hactive]) hfresh (hno i) hreq fun hi => (hkept i hi).1
      · refine hat.shift id id (Exists.imp fun W' => And.imp_left (hbound r' hr W')) id Iff.rfl
          (fun hb hc => .inr ?_) (fun hb hc _ => .inr (.inr ?_)) fun hc _ => .inl ?_
        · obtain ⟨u, hu, hcom, hi⟩ := hc
          exact ⟨u, (hcredits r' hb).symm.trans hu, hcom, hi⟩
        · obtain ⟨u, hu, hcom, hi⟩ := hc
          exact ⟨u, (hcredits r' hb).symm.trans hu, hcom, hi⟩
        · refine ((hmem _).mp hc).resolve_right fun heq => ?_
          cases heq

/-- The request is journaled. -/
theorem update (h : Linked m slaves ins outs) (hok : m.update r = .ok m') (hactive : m.state = .active)
    (hmdr : m.activeRequests[r]? = some mdr) (hc : mdr.committing = false) (hwait : mdr.waitingOnSlave = ∅) :
    Linked m' slaves ins outs := by
  simp only [Master.update, hmdr, bind_ok, deref_ok, pure_ok, Option.some.injEq] at hok
  obtain ⟨_, rfl, rfl⟩ := hok
  have hset : Linked (m.setRequest r { mdr with committing := true }) slaves ins outs := by
    refine ⟨h.ok.setRequest hactive (fun hc => by cases hc) (h.ok.disjoint r mdr hmdr), fun i => ?_⟩
    refine (h.link i).setRequest_same ?_ fun hc => by cases hc
    simp [Master.Waits, hmdr, hwait]
  refine hset.submit hactive (h.ok.fresh r mdr hmdr hc) (fun i hw => ?_) (fun mdr' hmdr' => ?_) fun i hi => ?_
  · rw [waits_setRequest, if_pos rfl] at hw
    cases hw.1
  · simp only [Master.setRequest, getElem?_insert, if_true, Option.some.injEq] at hmdr'
    rw [← hmdr']
  · have hw : m.Witnessed i r := ⟨mdr, hmdr, hc, hi⟩
    exact ⟨((h.link i).linkAt r).kept (.inr (.inl hw)), ((h.link i).active_of_witnessed h.ok hw).2⟩

/-! ## The journal -/

/-- The first entry is in the journal. -/
theorem wrote (h : Linked m slaves ins outs) {e : LogEvent n} {rest : List (LogEvent n)} (hw : m.writing = e :: rest) :
    Linked { m with journal := m.journal ++ [e], writing := rest } slaves ins outs := by
  have hmem : ∀ e', e' ∈ (m.journal ++ [e]) ++ rest ↔ e' ∈ m.journal ++ m.writing := by simp [hw]
  have hdur : ∀ r, m.Durable r → Master.Durable { m with journal := m.journal ++ [e], writing := rest } r :=
    fun r => Exists.imp fun W => List.mem_append_left _
  have hbound : ∀ i r, Master.Bound { m with journal := m.journal ++ [e], writing := rest } i r → m.Bound i r :=
    fun i r => Exists.imp fun W => And.imp_left (hmem _).mp
  refine ⟨⟨fun hd => ?_, fun r u hu hs => hdur r (h.ok.safe r u hu hs), h.ok.requests, fun r mdr hmdr hc e' he => ?_,
    h.ok.disjoint, h.ok.waiting, h.ok.delayed, fun r u hu => ?_⟩, fun i => ?_⟩
  · rw [h.ok.down hd] at hw
    cases hw
  · exact h.ok.fresh r mdr hmdr hc e' ((hmem e').mp he)
  · obtain ⟨e', he, hr⟩ := h.ok.known r u hu
    exact ⟨e', (hmem e').mpr he, hr⟩
  · exact (h.link i).shift ⟨rfl, hdur, fun r hb => .inl (hbound i r hb), fun _ _ => .inr⟩
      (fun r => ((h.link i).linkAt r).shift id (hdur r) (hbound i r) id Iff.rfl (fun _ => .inr)
          (fun _ h _ => .inr (.inr h))
        fun hc _ => .inl ((hmem _).mp hc)) Iff.rfl (fun _ => id) (fun h _ => h) (fun _ => .inl) fun _ => .inl

/-- `_logged_master_commit`. -/
theorem loggedMasterCommit (h : Linked m slaves ins outs) (hc : m.Closed r) (hok : m.loggedMasterCommit r = .ok m') :
    Linked m' slaves ins outs := by
  simp only [Master.loggedMasterCommit, bind_ok, assert_ok, pure_ok] at hok
  obtain ⟨-, hcontains, rfl⟩ := hok
  have hmasters : ∀ r', (m.uncommittedMasters.erase r)[r']? = if r' = r then none else m.uncommittedMasters[r']? :=
    fun r' => getElem?_erase m.uncommittedMasters r r'
  have hsub : ∀ (r' : ℕ) (u : UMaster n),
      (m.uncommittedMasters.erase r)[r']? = some u → m.uncommittedMasters[r']? = some u := fun _ _ =>
    getElem?_of_erase
  refine ⟨⟨fun hd => ?_, fun r' u hu => h.ok.safe r' u (hsub r' u hu), h.ok.requests, h.ok.fresh, h.ok.disjoint,
    h.ok.waiting, h.ok.delayed, fun r' u hu => h.ok.known r' u (hsub r' u hu)⟩, fun i => ?_⟩
  · rw [h.ok.down hd] at hcontains
    simp [Master.new] at hcontains
  · have hkeep : ∀ r' ≠ r, ∀ u, m.uncommittedMasters[r']? = some u → (m.uncommittedMasters.erase r)[r']? = some u :=
      fun r' hr u hu => by rw [hmasters, if_neg hr, hu]
    have hcredits : ∀ r', m.Bound i r' → m.Credits i r' → ((slaves i).view r').fate = some .commit ∨
        Master.Credits { m with uncommittedMasters := m.uncommittedMasters.erase r } i r' := by
      rintro r' hb ⟨u, hu, hcu⟩
      by_cases hr : r' = r
      · exact .inl (((h.link i).linkAt r').closed (hr ▸ hc) hb)
      · exact .inr ⟨u, hkeep r' hr u hu, hcu⟩
    refine (h.link i).shift ⟨rfl, fun _ => id, fun _ => .inl, hcredits⟩
      (fun r' => ((h.link i).linkAt r').shift id id id id Iff.rfl (hcredits r') (fun hb hrec _ => ?_) fun h _ => .inl h)
      Iff.rfl (fun _ => id) (fun h _ => h) (fun _ => .inl) fun _ => .inl
    obtain ⟨u, hu, hcu⟩ := hrec
    by_cases hr : r' = r
    · exact .inl (((h.link i).linkAt r').closed (hr ▸ hc) hb)
    · exact .inr (.inr ⟨u, hkeep r' hr u hu, hcu⟩)

/-- `log_master_commit`, for an update that all have committed. -/
theorem logMasterCommit {u₀ : UMaster n} (h : Linked m slaves ins outs) (hup : m.state ≠ .down)
    (hu : m.uncommittedMasters[r]? = some u₀) (hsafe : u₀.safe = u.safe)
    (hall : ∀ i, m.Bound i r → ((slaves i).view r).fate = some .commit) :
    Linked (m.logMasterCommit r u) slaves ins outs ∧ ∀ i, Shift m (m.logMasterCommit r u) i (slaves i) := by
  have hmem : ∀ e : LogEvent n, e ∈ m.journal ++ (m.writing ++ [.committed r]) ↔
      e ∈ m.journal ++ m.writing ∨ e = .committed r := by simp [or_assoc]
  have hmasters : ∀ r', (m.logMasterCommit r u).uncommittedMasters[r']? =
      if r' = r then some { u with committing := true } else m.uncommittedMasters[r']? := fun r' =>
    getElem?_insert m.uncommittedMasters r r' _
  have hbound : ∀ i r', (m.logMasterCommit r u).Bound i r' → m.Bound i r' := by
    rintro i r' ⟨W, he, hi⟩
    refine ⟨W, ((hmem _).mp he).resolve_right fun heq => ?_, hi⟩
    cases heq
  have hcredits : ∀ i r', m.Bound i r' → m.Credits i r' → ((slaves i).view r').fate = some .commit ∨
      (m.logMasterCommit r u).Credits i r' := by
    rintro i r' hb ⟨v, hv, hcv⟩
    by_cases hr : r' = r
    · exact .inl (hr ▸ hall i (hr ▸ hb))
    · exact .inr ⟨v, by rw [hmasters, if_neg hr, hv], hcv⟩
  have hshift : ∀ i, Shift m (m.logMasterCommit r u) i (slaves i) := fun i =>
    ⟨rfl, fun _ => id, fun r' hb => .inl (hbound i r' hb), hcredits i⟩
  refine ⟨⟨⟨fun hd => (hup hd).elim, fun r' v hv hs => ?_, h.ok.requests, fun r' mdr hmdr hc e he => ?_, h.ok.disjoint,
    h.ok.waiting, h.ok.delayed, fun r' v hv => ?_⟩, fun i => ?_⟩, hshift⟩
  · rw [hmasters] at hv
    split at hv
    case isTrue hr =>
      cases hv
      exact h.ok.safe r' u₀ (hr ▸ hu) (hsafe.trans hs)
    case isFalse => exact h.ok.safe r' v hv hs
  · rcases (hmem e).mp he with he | rfl
    · exact h.ok.fresh r' mdr hmdr hc e he
    · rintro rfl
      obtain ⟨e, he, hr⟩ := h.ok.known _ u₀ hu
      exact h.ok.fresh _ mdr hmdr hc e he hr
  · have hknown : ∃ v, m.uncommittedMasters[r']? = some v := by
      rw [hmasters] at hv
      split at hv
      case isTrue hr => exact ⟨u₀, hr ▸ hu⟩
      case isFalse => exact ⟨v, hv⟩
    obtain ⟨w, hw⟩ := hknown
    obtain ⟨e, he, hr⟩ := h.ok.known r' w hw
    exact ⟨e, (hmem e).mpr (.inl he), hr⟩
  · refine (h.link i).shift (hshift i) (fun r' => ((h.link i).linkAt r').shift id id (hbound i r') id Iff.rfl
      (hcredits i r') (fun hb hrec _ => ?_) fun hc hb => ?_) Iff.rfl (fun _ => id) (fun h _ => h) (fun _ => .inl)
      fun _ => .inl
    · obtain ⟨v, hv, hcv⟩ := hrec
      by_cases hr : r' = r
      · exact .inl (hr ▸ hall i (hr ▸ hb))
      · exact .inr (.inr ⟨v, by rw [hmasters, if_neg hr, hv], hcv⟩)
    · rcases (hmem _).mp hc with hc | heq
      · exact .inl hc
      · cases heq
        exact .inr (hall i hb)

/-- A slave that has committed is not waited for. -/
theorem uncredit (h : Linked m slaves ins outs) (hup : m.state ≠ .down) (hu : m.uncommittedMasters[r]? = some u)
    (hsrc : m.Bound src r → ((slaves src).view r).fate = some .commit) :
    Linked (m.setMaster r { u with slaves := u.slaves.erase src }) slaves ins outs ∧
      ∀ i, Shift m (m.setMaster r { u with slaves := u.slaves.erase src }) i (slaves i) := by
  have hmasters : ∀ r', (m.setMaster r { u with slaves := u.slaves.erase src }).uncommittedMasters[r']? =
      if r' = r then some { u with slaves := u.slaves.erase src } else m.uncommittedMasters[r']? := fun r' =>
    getElem?_insert m.uncommittedMasters r r' _
  have hcredits : ∀ i r', m.Bound i r' → m.Credits i r' → ((slaves i).view r').fate = some .commit ∨
      (m.setMaster r { u with slaves := u.slaves.erase src }).Credits i r' := by
    rintro i r' hb ⟨v, hv, hcv, hi⟩
    by_cases hr : r' = r
    · subst hr
      cases hu.symm.trans hv
      by_cases hne : i = src
      · exact .inl (hne ▸ hsrc (hne ▸ hb))
      · exact .inr ⟨_, (hmasters r').trans (if_pos rfl), hcv, Finset.mem_erase.mpr ⟨hne, hi⟩⟩
    · exact .inr ⟨v, by rw [hmasters, if_neg hr, hv], hcv, hi⟩
  have hold : ∀ (r' : ℕ) (v : UMaster n),
      (m.setMaster r { u with slaves := u.slaves.erase src }).uncommittedMasters[r']? = some v →
      ∃ w, m.uncommittedMasters[r']? = some w ∧ w.safe = v.safe := by
    intro r' v hv
    rw [hmasters] at hv
    split at hv
    case isTrue hr =>
      cases hv
      exact ⟨u, hr ▸ hu, rfl⟩
    case isFalse => exact ⟨v, hv, rfl⟩
  have hshift : ∀ i, Shift m (m.setMaster r { u with slaves := u.slaves.erase src }) i (slaves i) := fun i =>
    ⟨rfl, fun _ => id, fun _ => .inl, hcredits i⟩
  refine ⟨⟨⟨fun hd => (hup hd).elim, fun r' v hv hs => ?_, h.ok.requests, h.ok.fresh, h.ok.disjoint, h.ok.waiting,
    h.ok.delayed, fun r' v hv => ?_⟩, fun i => ?_⟩, hshift⟩
  · obtain ⟨w, hw, hsafe⟩ := hold r' v hv
    exact h.ok.safe r' w hw (hsafe.trans hs)
  · obtain ⟨w, hw, -⟩ := hold r' v hv
    exact h.ok.known r' w hw
  · refine (h.link i).shift (hshift i) (fun r' => ((h.link i).linkAt r').shift id id id id Iff.rfl
      (hcredits i r') (fun hb hrec _ => .inr (.inr ?_)) fun h _ => .inl h) Iff.rfl (fun _ => id) (fun h _ => h)
      (fun _ => .inl) fun _ => .inl
    obtain ⟨v, hv, hcv⟩ := hrec
    by_cases hr : r' = r
    · subst hr
      cases hu.symm.trans hv
      exact ⟨_, (hmasters r').trans (if_pos rfl), hcv⟩
    · exact ⟨v, by rw [hmasters, if_neg hr, hv], hcv⟩

/-- `committed_master_slave`, of a slave that has committed. -/
theorem committedMasterSlave (h : Linked m slaves ins outs) (hactive : m.state = .active)
    (hsrc : m.Bound src r → ((slaves src).view r).fate = some .commit) (hok : m.committedMasterSlave r src = .ok m') :
    Linked m' slaves ins outs ∧ m'.state = .active ∧ ∀ i, Shift m m' i (slaves i) := by
  have hup : m.state ≠ .down := by simp [hactive]
  simp only [Master.committedMasterSlave, bind_ok, deref_ok] at hok
  obtain ⟨u, hu, hok⟩ := hok
  split at hok
  case isFalse =>
    cases hok
    obtain ⟨hl, hs⟩ := h.uncredit hup hu hsrc
    exact ⟨hl, hactive, hs⟩
  case isTrue hdone =>
    cases hok
    obtain ⟨hrec, hnil⟩ := hdone
    have hall : ∀ i, m.Bound i r → ((slaves i).view r).fate = some .commit := by
      intro i hb
      rcases ((h.link i).linkAt r).accounted hup hb with hf | ⟨v, hv, -, hi⟩ | ⟨⟨v, hv, -, -, hrec'⟩, -⟩
      · exact hf
      · cases hu.symm.trans hv
        have hi' : i = src := by
          by_contra hne
          have hmem := Finset.mem_erase.mpr ⟨hne, hi⟩
          simp [hnil] at hmem
        exact hi' ▸ hsrc (hi' ▸ hb)
      · cases hu.symm.trans hv
        rcases hrec' with hrec' | hst
        · simp [hrec'] at hrec
        · cases hactive.symm.trans hst
    obtain ⟨hl, hs⟩ := h.logMasterCommit (u := { u with slaves := u.slaves.erase src }) hup hu rfl hall
    exact ⟨hl, hactive, hs⟩

end Linked

end CephMds.TwoPhase
