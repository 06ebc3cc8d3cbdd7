import CephMds.Proof.TwoPhase.Slaves

/-!
# What a master and a slave have of a request

`LinkAt` says what a slave has of a request by what its master has of it: an
update that names the slave finds it prepared or committed (`View.Kept`), and
until it is committed the master waits to hear of that (`Credits`) or is going
to be told in a resolve (`Recovers`). Each function of a slave keeps it.
-/

namespace CephMds.TwoPhase

variable {n : ℕ} {m : Master n} {i : Fin n} {r asks acks : ℕ} {v v' w : View} {mdr mdr' : SlaveRequest}

/-! ## The master's part -/

namespace Master

/-- The update is in the journal. -/
def Durable (m : Master n) (r : ℕ) : Prop := ∃ W, .update r W ∈ m.journal

/-- The update was submitted, and names the slave. -/
def Bound (m : Master n) (i : Fin n) (r : ℕ) : Prop := ∃ W, .update r W ∈ m.journal ++ m.writing ∧ i ∈ W

/-- `ECommitted` was submitted. -/
def Closed (m : Master n) (r : ℕ) : Prop := .committed r ∈ m.journal ++ m.writing

/-- The slave is asked to prepare the request. -/
def Waits (m : Master n) (i : Fin n) (r : ℕ) : Prop :=
  ∃ mdr, m.activeRequests[r]? = some mdr ∧ mdr.committing = false ∧ i ∈ mdr.waitingOnSlave

/-- The slave has prepared it, and its update was not submitted yet. -/
def Witnessed (m : Master n) (i : Fin n) (r : ℕ) : Prop :=
  ∃ mdr, m.activeRequests[r]? = some mdr ∧ mdr.committing = false ∧ i ∈ mdr.witnessed

/-- The slave has to keep what it has prepared; `acks` of its answers are on their way. -/
def Keeps (m : Master n) (i : Fin n) (r acks : ℕ) : Prop := m.Bound i r ∨ m.Witnessed i r ∨ 0 < acks

/-- The master waits to hear that the slave has committed. -/
def Credits (m : Master n) (i : Fin n) (r : ℕ) : Prop :=
  ∃ u, m.uncommittedMasters[r]? = some u ∧ u.committing = false ∧ i ∈ u.slaves

/-- The slave is going to resolve, and `ECommitted` is not submitted before. -/
def Recovers (m : Master n) (i : Fin n) (r : ℕ) : Prop :=
  ∃ u, m.uncommittedMasters[r]? = some u ∧ u.committing = false ∧ i ∈ m.resolveGather ∧
    (u.recovering = true ∨ m.state = .resolve)

/-- What holds of a master. -/
structure Ok (m : Master n) : Prop where
  down : m.state = .down → m = .new .down m.journal
  safe : ∀ (r : ℕ) (u : UMaster n), m.uncommittedMasters[r]? = some u → u.safe = true → m.Durable r
  requests : m.state ≠ .active → m.activeRequests = ∅
  fresh : ∀ (r : ℕ) (mdr : Request n), m.activeRequests[r]? = some mdr → mdr.committing = false →
    ∀ e ∈ m.journal ++ m.writing, e.reqid ≠ r
  disjoint : ∀ (r : ℕ) (mdr : Request n), m.activeRequests[r]? = some mdr → ∀ i ∈ mdr.witnessed, i ∉ mdr.waitingOnSlave
  waiting : ∀ p ∈ m.waitingForReplay, ∃ r, p.2 = .committed r
  delayed : ∀ (i : Fin n) (l : List ℕ), m.delayedResolve[i]? = some l → l ≠ []
  known : ∀ (r : ℕ) (u : UMaster n), m.uncommittedMasters[r]? = some u → ∃ e ∈ m.journal ++ m.writing, e.reqid = r

theorem Keeps.mono {acks' : ℕ} (h : m.Keeps i r acks') (hle : acks' ≤ acks) : m.Keeps i r acks :=
  h.imp_right fun h => h.imp_right hle.trans_lt'

theorem Bound.not_fresh (h : m.Bound i r) (hm : ∀ e ∈ m.journal ++ m.writing, e.reqid ≠ r) : False := by
  obtain ⟨W, hmem, -⟩ := h
  exact hm _ hmem rfl

theorem Durable.not_fresh (h : m.Durable r) (hm : ∀ e ∈ m.journal ++ m.writing, e.reqid ≠ r) : False := by
  obtain ⟨W, hmem⟩ := h
  exact hm _ (List.mem_append_left _ hmem) rfl

namespace Ok

variable (hm : m.Ok)

include hm

theorem fresh_of_waits (h : m.Waits i r) : ∀ e ∈ m.journal ++ m.writing, e.reqid ≠ r := by
  obtain ⟨mdr, hreq, hc, -⟩ := h
  exact hm.fresh r mdr hreq hc

theorem not_witnessed_of_waits (h : m.Waits i r) : ¬ m.Witnessed i r := by
  obtain ⟨mdr, hreq, -, hw⟩ := h
  rintro ⟨mdr', hreq', -, hw'⟩
  cases hreq.symm.trans hreq'
  exact hm.disjoint r mdr hreq i hw' hw

theorem not_down_of_waits (h : m.Waits i r) : m.state ≠ .down := by
  obtain ⟨mdr, hreq, -⟩ := h
  intro hd
  rw [hm.requests (by simp [hd])] at hreq
  simp at hreq

theorem not_down_of_witnessed (h : m.Witnessed i r) : m.state ≠ .down := by
  obtain ⟨mdr, hreq, -⟩ := h
  intro hd
  rw [hm.requests (by simp [hd])] at hreq
  simp at hreq

end Ok

end Master

/-! ## The slave's part -/

namespace View

/-- The prepare is in the journal, and nothing else is on its way. -/
def Prepared (v : View) : Prop := v.fate = some .prepare ∧ v.records = []

/-- The slave does not remember it as prepared. -/
structure Shut (v : View) : Prop where
  replay : v.state = .resolve → ¬ v.uncommitted
  request : ∀ mdr, v.request = some mdr → mdr.slaveCommit = false

/-- It is prepared and the slave knows, or it is committed. -/
inductive Kept (v : View) : Prop
  | prepared (prepared : v.Prepared) (replay : v.state = .resolve → v.uncommitted)
      (request : v.state = .active → ∃ mdr, v.request = some mdr ∧ mdr.slaveCommit = true ∧ mdr.aborted = false)
  | committing (fate : v.fate = some .prepare) (records : v.records = [.commit]) (shut : v.Shut)
  | committed (fate : v.fate = some .commit) (records : v.records = []) (shut : v.Shut)

/-- What was committed stays so, and nothing gets prepared again. -/
structure Forward (v v' : View) : Prop where
  fate : v.fate = some .commit → v'.fate = some .commit
  prepared : v'.Prepared → v.Prepared

theorem Forward.refl (v : View) : Forward v v := ⟨id, id⟩

theorem Forward.trans (h : Forward v v') (h' : Forward v' w) : Forward v w :=
  ⟨fun hf => h'.fate (h.fate hf), fun hp => h.prepared (h'.prepared hp)⟩

/-- More is being written. -/
theorem Forward.of_append {l : List SlaveOp} (hpast : v'.past = v.past) (hrec : v'.records = v.records ++ l) :
    Forward v v' where
  fate h := by rwa [View.fate, hpast]
  prepared h := by
    obtain ⟨hf, hr⟩ := h
    rw [hrec, List.append_eq_nil_iff] at hr
    exact ⟨by rwa [View.fate, hpast] at hf, hr.1⟩

theorem Forward.of_finished (h : Finished mdr v v') : Forward v v' := by
  cases h with
  | commit hc ha hv => exact .of_append (by rw [hv]) (by rw [hv])
  | rollback hc ha hv => exact .of_append (by rw [hv]) (by rw [hv])
  | cleanup hc hv => exact .of_append (l := []) (by rw [hv]) (by simp [hv])

theorem Forward.of_requested {op : Opcode} (h : Requested op v v') : Forward v v' := by
  cases h with
  | unknown hreq hv => exact hv ▸ .refl v
  | finished hreq hnot ha hf => exact .of_finished hf
  | prepares hop hv => exact .of_append (by rw [hv]) (by rw [hv])

theorem Forward.of_ackedCommit (h : AckedCommit v v') : Forward v v' := by
  cases h with
  | replay hs hu hv => exact .of_append (by rw [hv]) (by rw [hv])
  | finished hs hreq hnot hf => exact .of_finished hf

theorem Forward.of_ackedAbort (h : AckedAbort v v') : Forward v v' := by
  cases h with
  | replay hs hu hv => exact .of_append (by rw [hv]) (by rw [hv])
  | marks hs hreq hsr hv => exact .of_append (l := []) (by rw [hv]) (by simp [hv])
  | finished hs hreq hnot hf => exact .of_finished hf

theorem Kept.not_rollback (h : v.Kept) : .rollback ∉ v.records := by
  cases h with
  | prepared hp => simp [hp.2]
  | committing hf hr => simp [hr]
  | committed hf hr => simp [hr]

theorem Kept.not_prepare (h : v.Kept) : .prepare ∉ v.records := by
  cases h with
  | prepared hp => simp [hp.2]
  | committing hf hr => simp [hr]
  | committed hf hr => simp [hr]

/-- Of what has to be kept, only a commit gets into the journal. -/
theorem Forward.of_logged {out : List ToMaster} (hk : v.Kept) (h : Logged v v' r out) : Forward v v' := by
  cases h with
  | aborted hrec => exact (hk.not_prepare (by simp [hrec])).elim
  | prepare hrec => exact (hk.not_prepare (by simp [hrec])).elim
  | commit hrec hv =>
    have hfate : v'.fate = some .commit := by simp [hv, View.fate]
    exact ⟨fun _ => hfate, fun hp => by cases hfate.symm.trans hp.1⟩
  | rollback hrec => exact (hk.not_rollback (by simp [hrec])).elim

/-- A request that the slave remembers as prepared is so. -/
theorem Kept.prepared_of_slaveCommit (h : v.Kept) (hreq : v.request = some mdr) (hc : mdr.slaveCommit = true) :
    v.Prepared := by
  cases h with
  | prepared hp => exact hp
  | committing hf hr hs => simp [hs.request mdr hreq] at hc
  | committed hf hr hs => simp [hs.request mdr hreq] at hc

theorem Kept.not_aborted (h : v.Kept) (hs : v.state = .active) (hreq : v.request = some mdr)
    (hc : mdr.slaveCommit = true) : mdr.aborted = false := by
  cases h with
  | prepared hp hreplay hrequest =>
    obtain ⟨mdr', hreq', -, ha⟩ := hrequest hs
    cases hreq.symm.trans hreq'
    exact ha
  | committing hf hr hsh => simp [hsh.request mdr hreq] at hc
  | committed hf hr hsh => simp [hsh.request mdr hreq] at hc

theorem Kept.prepared_of_uncommitted (h : v.Kept) (hs : v.state = .resolve) (hu : v.uncommitted) : v.Prepared := by
  cases h with
  | prepared hp => exact hp
  | committing hf hr hsh => exact (hsh.replay hs hu).elim
  | committed hf hr hsh => exact (hsh.replay hs hu).elim

end View

/-- What a slave has of a request, where it is still asked `asks` times to prepare it, and `acks` of its
answers are on their way. -/
structure LinkAt (m : Master n) (i : Fin n) (r asks acks : ℕ) (v : View) : Prop where
  idle : v.state ≠ .active → v.request = none
  durable : .commit ∈ v.past ++ v.records → m.Durable r
  kept : m.Keeps i r acks → v.Kept
  active : m.Waits i r ∨ m.Witnessed i r → v.state = .active
  single : v.records.count .prepare ≤ 1
  asked : m.state ≠ .down → asks + v.records.count .prepare + acks ≤ 1
  waits : m.state ≠ .down → 0 < asks + v.records.count .prepare + acks → m.Waits i r
  ends : .prepare ∈ v.records → v.records.getLast? = some .prepare ∧
    ∀ mdr, v.request = some mdr → mdr.slaveRequest = true ∧ mdr.slaveCommit = true
  accounted : m.state ≠ .down → m.Bound i r → v.fate = some .commit ∨ m.Credits i r ∨ m.Recovers i r ∧ v.records = []
  closed : m.Closed r → m.Bound i r → v.fate = some .commit

/-- Something else is submitted. -/
theorem not_prepare_append {op : SlaveOp} {l : List SlaveOp} (hno : .prepare ∉ l) (hop : op ≠ .prepare) :
    .prepare ∉ l ++ [op] := by
  intro hmem
  rcases List.mem_append.mp hmem with hmem | hmem
  · exact hno hmem
  · exact hop (List.mem_singleton.mp hmem).symm

namespace LinkAt

variable (h : LinkAt m i r asks acks v)

include h

/-- What the slave need not keep is free to change. -/
theorem of_not_keeps (hno : ¬ m.Keeps i r acks) {asks' acks' : ℕ} (hacks : acks' ≤ acks) (hstate : v'.state = v.state)
    (hidle : v.state ≠ .active → v'.request = none) (hdur : .commit ∈ v'.past ++ v'.records → m.Durable r)
    (hcount : asks' + v'.records.count .prepare ≤ asks + v.records.count .prepare)
    (hsingle : v'.records.count .prepare ≤ 1)
    (hends : .prepare ∈ v'.records → v'.records.getLast? = some .prepare ∧
      ∀ mdr, v'.request = some mdr → mdr.slaveRequest = true ∧ mdr.slaveCommit = true) :
    LinkAt m i r asks' acks' v' where
  idle hs := hidle (hstate ▸ hs)
  durable := hdur
  kept hk := (hno (hk.mono hacks)).elim
  active hw := hstate ▸ h.active hw
  single := hsingle
  asked hup := by
    have := h.asked hup
    omega
  waits hup hpos := h.waits hup (by omega)
  ends := hends
  accounted _ hb := (hno (.inl hb)).elim
  closed _ hb := (hno (.inl hb)).elim

theorem active_of_request (hreq : v.request = some mdr) : v.state = .active := by
  by_contra hs
  rw [h.idle hs] at hreq
  cases hreq

/-- A request that is not being prepared. -/
theorem not_prepare (hreq : v.request = some mdr) (hnot : mdr.slaveRequest = false) : .prepare ∉ v.records := by
  intro hmem
  simp [((h.ends hmem).2 mdr hreq).1] at hnot

/-- A slave that resolves is not preparing anything. -/
theorem not_prepare_of_replay (hup : m.state ≠ .down) (hs : v.state = .resolve) : .prepare ∉ v.records := by
  intro hmem
  have hpos := List.count_pos_iff.mpr hmem
  rw [h.active (.inl (h.waits hup (by omega)))] at hs
  cases hs

/-- `request_finish`: a commit has to be told by the master, and what has to be kept is not aborted. -/
theorem finished (hf : Finished mdr' v v') (hreq : v.request = some mdr) (hnot : mdr.slaveRequest = false)
    (hsc : mdr'.slaveCommit = mdr.slaveCommit)
    (hcommit : mdr.slaveCommit = true → mdr'.aborted = false →
      m.Durable r ∧ (m.Bound i r → v.fate = some .commit ∨ m.Credits i r))
    (hab : m.Keeps i r acks → v.Prepared → mdr'.aborted = mdr.aborted) : LinkAt m i r asks acks v' := by
  have hactive := h.active_of_request hreq
  have hprep := h.not_prepare hreq hnot
  cases hf with
  | commit hc ha hv =>
    obtain ⟨hdur, hcredit⟩ := hcommit (hsc ▸ hc) ha
    have hno : SlaveOp.prepare ∉ v.records ++ [.commit] := not_prepare_append hprep (by simp)
    subst hv
    exact
      { idle := fun hs => (hs hactive).elim
        durable := fun _ => hdur
        kept := fun hk =>
          have hp := (h.kept hk).prepared_of_slaveCommit hreq (hsc ▸ hc)
          .committing hp.1 (by simp [hp.2]) ⟨fun hs => by simp [hactive] at hs, fun mdr hmdr => by cases hmdr; rfl⟩
        active := h.active
        single := by simpa using h.single
        asked := by simpa using h.asked
        waits := by simpa using h.waits
        ends := fun hmem => (hno hmem).elim
        accounted := fun hup hb => (hcredit hb).imp_right .inl
        closed := h.closed }
  | rollback hc ha hv =>
    subst hv
    refine h.of_not_keeps (fun hk => ?_) le_rfl rfl (fun hs => (hs hactive).elim) (fun hmem => h.durable ?_) (by simp)
      (by simpa using h.single) fun hmem => (not_prepare_append hprep (by simp) hmem).elim
    · have hp := (h.kept hk).prepared_of_slaveCommit hreq (hsc ▸ hc)
      rw [hab hk hp, (h.kept hk).not_aborted hactive hreq (hsc ▸ hc)] at ha
      cases ha
    · simpa using hmem
  | cleanup hc hv =>
    have hsc' : mdr.slaveCommit = false := hsc ▸ hc
    subst hv
    exact
      { idle := fun _ => rfl
        durable := h.durable
        kept := fun hk => by
          cases h.kept hk with
          | prepared hp hreplay hrequest =>
            obtain ⟨mdr'', hreq', hc', -⟩ := hrequest hactive
            cases hreq.symm.trans hreq'
            simp [hsc'] at hc'
          | committing hfate hrec hshut => exact .committing hfate hrec ⟨hshut.replay, by simp⟩
          | committed hfate hrec hshut => exact .committed hfate hrec ⟨hshut.replay, by simp⟩
        active := h.active
        single := h.single
        asked := h.asked
        waits := h.waits
        ends := fun hmem => (hprep hmem).elim
        accounted := h.accounted
        closed := h.closed }

end LinkAt

/-! ## Messages -/

namespace LinkAt

/-- A message was handled. -/
theorem pred (h : LinkAt m i r (asks + 1) acks v) : LinkAt m i r asks acks v :=
  { h with
    asked := fun hup => by
      have := h.asked hup
      omega
    waits := fun hup hpos => h.waits hup (by omega) }

/-- `OP_LINKPREP` or `OP_UNLINKPREP`. -/
theorem prepares (hm : m.Ok) (hup : m.state ≠ .down) (h : LinkAt m i r (asks + 1) acks v) (hr : Requested .prep v v') :
    LinkAt m i r asks acks v' := by
  have hw : m.Waits i r := h.waits hup (by omega)
  have hactive := h.active (.inl hw)
  have hasked := h.asked hup
  have hno : ¬ m.Keeps i r acks := by
    rintro (hb | hwit | hpos)
    · exact hb.not_fresh (hm.fresh_of_waits hw)
    · exact hm.not_witnessed_of_waits hw hwit
    · omega
  cases hr with
  | unknown hreq hv =>
    rw [hv]
    exact h.pred
  | finished hreq hnot ha hf =>
    exact (h.finished hf hreq hnot rfl (fun _ ha' => by simp [ha rfl] at ha') fun _ _ => rfl).pred
  | prepares _ hv =>
    subst hv
    refine h.of_not_keeps hno le_rfl rfl (fun hs => (hs hactive).elim)
        (fun hmem => h.durable (by simpa using hmem)) ?_ ?_
      fun _ => ⟨by simp, fun mdr hmdr => by cases hmdr; exact ⟨rfl, rfl⟩⟩
    · simp only [List.count_append, List.count_singleton_self]
      omega
    · simp only [List.count_append, List.count_singleton_self]
      omega

/-- `OP_FINISH`, which is sent when the update is in the journal. -/
theorem finishes (h : LinkAt m i r asks acks v) (hr : Requested .finish v v') (hdur : m.Durable r)
    (hcredit : m.Bound i r → v.fate = some .commit ∨ m.Credits i r) : LinkAt m i r asks acks v' := by
  cases hr with
  | unknown hreq hv => exact hv ▸ h
  | finished hreq hnot ha hf => exact h.finished hf hreq hnot rfl (fun _ _ => ⟨hdur, hcredit⟩) fun _ _ => rfl
  | prepares hop => cases hop

/-- "COMMIT". -/
theorem ackedCommit (h : LinkAt m i r asks acks v) (hr : AckedCommit v v') (hup : m.state ≠ .down) (hdur : m.Durable r)
    (hcredit : m.Bound i r → v.fate = some .commit ∨ m.Credits i r) : LinkAt m i r asks acks v' := by
  cases hr with
  | finished hs hreq hnot hf => exact h.finished hf hreq hnot rfl (fun _ _ => ⟨hdur, hcredit⟩) fun _ _ => rfl
  | replay hs hu hv =>
    have hidle := h.idle (by simp [hs])
    have hprep := h.not_prepare_of_replay hup hs
    subst hv
    exact
      { idle := fun _ => hidle
        durable := fun _ => hdur
        kept := fun hk =>
          have hp := (h.kept hk).prepared_of_uncommitted hs hu
          .committing hp.1 (by simp [hp.2]) ⟨fun _ => id, by simp [hidle]⟩
        active := h.active
        single := by simpa using h.single
        asked := by simpa using h.asked
        waits := by simpa using h.waits
        ends := fun hmem => (not_prepare_append hprep (by simp) hmem).elim
        accounted := fun _ hb => (hcredit hb).imp_right .inl
        closed := h.closed }

/-- "ABORT", which is not sent for what has to be kept. -/
theorem ackedAbort (h : LinkAt m i r asks acks v) (hr : AckedAbort v v') (hup : m.state ≠ .down)
    (hno : m.Keeps i r acks → ¬ v.Prepared) : LinkAt m i r asks acks v' := by
  cases hr with
  | finished hs hreq hnot hf =>
    exact h.finished hf hreq hnot rfl (fun _ ha => by cases ha) fun hk hp => (hno hk hp).elim
  | replay hs hu hv =>
    have hidle := h.idle (by simp [hs])
    have hprep := h.not_prepare_of_replay hup hs
    subst hv
    refine h.of_not_keeps (fun hk => hno hk ((h.kept hk).prepared_of_uncommitted hs hu)) le_rfl rfl (fun _ => hidle)
      (fun hmem => h.durable (by simpa using hmem)) (by simp) (by simpa using h.single)
      fun hmem => (not_prepare_append hprep (by simp) hmem).elim
  | marks hs hreq hsr hv =>
    have hactive := h.active_of_request hreq
    subst hv
    exact
      { h with
        idle := fun hs => (hs hactive).elim
        kept := fun hk => by
          cases h.kept hk with
          | prepared hp => exact (hno hk hp).elim
          | committing hf hrec hsh =>
            have hc := hsh.request _ hreq
            exact .committing hf hrec ⟨hsh.replay, fun mdr' hmdr => by cases hmdr; exact hc⟩
          | committed hf hrec hsh =>
            have hc := hsh.request _ hreq
            exact .committed hf hrec ⟨hsh.replay, fun mdr' hmdr => by cases hmdr; exact hc⟩
        ends := fun hmem => by
          have hreq' := (h.ends hmem).2 _ hreq
          exact ⟨(h.ends hmem).1, fun mdr' hmdr => by cases hmdr; exact hreq'⟩ }

/-! ## The journal -/

/-- A prepare of an aborted request is in the journal, which rolls it back at once. -/
theorem loggedAborted {acks' : ℕ} {rest : List SlaveOp} (h : LinkAt m i r asks acks v)
    (hrec : v.records = .prepare :: rest) (hreq : v.request = some mdr) (ha : mdr.aborted = true)
    (hf : Finished { mdr with slaveRequest := false } { v with past := v.past ++ [.prepare], records := rest } v')
    (hle : acks' ≤ acks) : LinkAt m i r asks acks' v' := by
  have hactive := h.active_of_request hreq
  have hsingle : rest.count .prepare = 0 := by simpa [hrec] using h.single
  have hno : .prepare ∉ rest := List.count_eq_zero.mp hsingle
  have hkeeps : ¬ m.Keeps i r acks := fun hk => (h.kept hk).not_prepare (by simp [hrec])
  cases hf with
  | commit hc ha' => simp [ha] at ha'
  | rollback hc ha' hv =>
    subst hv
    refine h.of_not_keeps hkeeps hle rfl (fun hs => (hs hactive).elim) (fun hmem => h.durable ?_) ?_ ?_
      fun hmem => (not_prepare_append hno (by simp) hmem).elim
    · simpa [hrec, or_assoc] using hmem
    · simp [hsingle]
    · simp [hsingle]
  | cleanup hc hv =>
    subst hv
    refine h.of_not_keeps hkeeps hle rfl (fun _ => rfl) (fun hmem => h.durable ?_) ?_ ?_ fun hmem => (hno hmem).elim
    · simpa [hrec, or_assoc] using hmem
    · simp [hsingle]
    · simp [hsingle]

/-- A prepare is in the journal, and the answer is on its way unless the master is down. -/
theorem loggedPrepare {acks' : ℕ} {rest : List SlaveOp} (h : LinkAt m i r asks acks v)
    (hrec : v.records = .prepare :: rest) (hreq : v.request = some mdr) (ha : mdr.aborted = false)
    (hacks : m.state ≠ .down → acks' = acks + 1) :
    LinkAt m i r asks acks' { v with
      past := v.past ++ [.prepare]
      records := rest
      request := some { mdr with slaveRequest := false } } := by
  have hactive := h.active_of_request hreq
  have hsingle : rest.count .prepare = 0 := by simpa [hrec] using h.single
  have hno : .prepare ∉ rest := List.count_eq_zero.mp hsingle
  have hcount : v.records.count .prepare = 1 := by simp [hrec, hsingle]
  obtain ⟨hlast, hmdr⟩ := h.ends (by simp [hrec])
  have hrest : rest = [] := by
    by_contra hne
    rw [hrec, List.getLast?_cons_of_ne_nil hne] at hlast
    exact hno (List.mem_of_getLast? hlast)
  have hkeeps : ¬ m.Keeps i r acks := fun hk => (h.kept hk).not_prepare (by simp [hrec])
  subst hrest
  exact
    { idle := fun hs => (hs hactive).elim
      durable := fun hmem => h.durable (by simpa [hrec, or_assoc] using hmem)
      kept := fun hk => .prepared ⟨by simp [View.fate], rfl⟩ (fun hs => by simp [hactive] at hs)
        fun _ => ⟨_, rfl, (hmdr mdr hreq).2, ha⟩
      active := h.active
      single := by simp
      asked := fun hup => by
        have := h.asked hup
        simp only [List.count_nil, hacks hup]
        omega
      waits := fun hup _ => h.waits hup (by omega)
      ends := fun hmem => (hno hmem).elim
      accounted := fun _ hb => (hkeeps (.inl hb)).elim
      closed := fun _ hb => (hkeeps (.inl hb)).elim }

/-- A commit is in the journal. -/
theorem loggedCommit {acks' : ℕ} {rest : List SlaveOp} (h : LinkAt m i r asks acks v)
    (hrec : v.records = .commit :: rest) (hle : acks' ≤ acks) :
    LinkAt m i r asks acks' { v with past := v.past ++ [.commit], records := rest, request := none } := by
  have hcount : rest.count .prepare = v.records.count .prepare := by simp [hrec]
  have hdur := h.durable (by simp [hrec])
  have hrest : m.Keeps i r acks → rest = [] ∧ v.Shut := by
    intro hk
    cases h.kept hk with
    | prepared hp => cases hrec.symm.trans hp.2
    | committing hf hrec' hsh =>
      cases hrec.symm.trans hrec'
      exact ⟨rfl, hsh⟩
    | committed hf hrec' => cases hrec.symm.trans hrec'
  exact
    { idle := fun _ => rfl
      durable := fun _ => hdur
      kept := fun hk =>
        have hk := hrest (hk.mono hle)
        .committed (by simp [View.fate]) hk.1 ⟨hk.2.replay, by simp⟩
      active := h.active
      single := by simpa [hrec] using h.single
      asked := fun hup => by
        have := h.asked hup
        dsimp only
        omega
      waits := fun hup hpos => h.waits hup (by dsimp only at hpos; omega)
      ends := fun hmem => by
        have hlast := (h.ends (by simp [hrec, hmem])).1
        rw [hrec, List.getLast?_cons_of_ne_nil (List.ne_nil_of_mem hmem)] at hlast
        exact ⟨hlast, by simp⟩
      accounted := fun _ hb => .inl (by simp [View.fate])
      closed := fun _ hb => by simp [View.fate] }

/-- A rollback is in the journal. -/
theorem loggedRollback {acks' : ℕ} {rest : List SlaveOp} (h : LinkAt m i r asks acks v)
    (hrec : v.records = .rollback :: rest) (hle : acks' ≤ acks) :
    LinkAt m i r asks acks' { v with
      past := v.past ++ [.rollback]
      records := rest
      request := none
      uncommitted := v.uncommitted ∧ v.state ≠ .resolve
      rollback := False } := by
  have hkeeps : ¬ m.Keeps i r acks := fun hk => (h.kept hk).not_rollback (by simp [hrec])
  have hcount : rest.count .prepare = v.records.count .prepare := by simp [hrec]
  refine h.of_not_keeps hkeeps hle rfl (fun _ => rfl) (fun hmem => h.durable ?_) ?_ ?_ fun hmem => ⟨?_, by simp⟩
  · simpa [hrec, or_assoc] using hmem
  · simp [hcount]
  · simpa [hcount] using h.single
  · have hlast := (h.ends (by simp [hrec, hmem])).1
    rwa [hrec, List.getLast?_cons_of_ne_nil (List.ne_nil_of_mem hmem)] at hlast

/-- A prepare or a commit is in the journal, or a rollback; an answer to a master that is down is lost. -/
theorem logged {out : List ToMaster} {acks' : ℕ} (h : LinkAt m i r asks acks v) (hl : Logged v v' r out)
    (hacks : acks' = acks + out.count (.prepAck r) ∨ m.state = .down ∧ acks' = 0) : LinkAt m i r asks acks' v' := by
  -- what is sent is an answer only where a prepare is in the journal
  have hle : out.count (.prepAck r) = 0 → acks' ≤ acks := by
    intro hzero
    omega
  cases hl with
  | aborted hrec hreq ha hf => exact h.loggedAborted hrec hreq ha hf (hle rfl)
  | prepare hrec hreq ha hv =>
    subst hv
    refine h.loggedPrepare hrec hreq ha fun hup => ?_
    simpa [hup] using hacks
  | commit hrec hv =>
    subst hv
    exact h.loggedCommit hrec (hle (by simp))
  | rollback hrec hroll hv hout =>
    subst hv
    refine h.loggedRollback hrec (hle ?_)
    rcases hout with rfl | rfl
    · rfl
    · simp

end LinkAt

end CephMds.TwoPhase
