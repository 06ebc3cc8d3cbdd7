import CephMds.Proof.TwoPhase.Resolves

/-!
# Failures

What is left of a rank is its journal. A master that was taken over has an entry
for each update that is in it and was not closed, and hears of all slaves before
it closes any; a slave that was taken over tells of all that it has prepared and
not committed.
-/

namespace CephMds.TwoPhase

open Checked Slave Writes

variable {n : ℕ} {m m' : Master n} {i who : Fin n} {r asks acks : ℕ} {s : Slave} {v v' : View}
  {inbox : List ToSlave} {outbox : List ToMaster}

/-! ## Replay -/

/-- What is left uncommitted is what was prepared last. -/
theorem mem_openUpdates {l : List ESlaveUpdate} : r ∈ openUpdates l ↔ (about r l).getLast? = some .prepare := by
  unfold openUpdates
  induction l using List.reverseRecOn with
  | nil => simp
  | append_singleton l e ih =>
    obtain ⟨op, r'⟩ := e
    rw [List.foldl_concat, about_append]
    by_cases hr : r = r'
    · subst hr
      cases op with
      | prepare => simp [about_cons_self]
      | commit => simp [about_cons_self]
      | rollback => simp [about_cons_self]
    · rw [about_cons_of_ne _ hr, about_nil, List.append_nil, ← ih]
      cases op with
      | prepare => simp [hr]
      | commit => simp [hr]
      | rollback => simp [hr]

theorem replayMasters_of_mem {l : List (LogEvent n)} {W : Finset (Fin n)} (h : .update r W ∈ l)
    (hno : .committed r ∉ l) :
    (Master.replayMasters l)[r]? = some ⟨∅, true, false, false⟩ := by
  unfold Master.replayMasters
  induction l using List.reverseRecOn with
  | nil => cases h
  | append_singleton l e ih =>
    rw [List.foldl_concat]
    have hno' : .committed r ∉ l := fun hmem => hno (List.mem_append_left _ hmem)
    cases e with
    | update r' W' =>
      rw [getElem?_insert]
      split
      · rfl
      case isFalse hr =>
        refine ih ?_ hno'
        refine (List.mem_append.mp h).resolve_right fun hmem => ?_
        cases List.mem_singleton.mp hmem
        exact hr rfl
    | committed r' =>
      have hr : r ≠ r' := by
        rintro rfl
        exact hno (by simp)
      rw [getElem?_erase, if_neg hr]
      refine ih ?_ hno'
      refine (List.mem_append.mp h).resolve_right fun hmem => ?_
      cases List.mem_singleton.mp hmem

theorem mem_of_replayMasters {l : List (LogEvent n)} {u : UMaster n} (h : (Master.replayMasters l)[r]? = some u) :
    ∃ W, .update r W ∈ l := by
  unfold Master.replayMasters at h
  induction l using List.reverseRecOn with
  | nil => simp at h
  | append_singleton l e ih =>
    rw [List.foldl_concat] at h
    cases e with
    | update r' W' =>
      rw [getElem?_insert] at h
      split at h
      case isTrue hr => exact ⟨W', by simp [hr]⟩
      case isFalse =>
        obtain ⟨W, hmem⟩ := ih h
        exact ⟨W, List.mem_append_left _ hmem⟩
    | committed r' =>
      obtain ⟨W, hmem⟩ := ih (getElem?_of_erase h)
      exact ⟨W, List.mem_append_left _ hmem⟩

/-! ## Slaves -/

/-- Nothing of a slave is left but its journal. -/
theorem view_new (st : State) (l : List ESlaveUpdate) (r : ℕ) :
    (Slave.new st l).view r = ⟨st, about r l, [], none, False, False⟩ := by
  simp [view, Slave.new]

theorem View.Kept.lose {past : List SlaveOp} (h : v.Kept) (hpast : v.past = past) (st : State) (hst : st ≠ .resolve)
    (hst' : st ≠ .active) : View.Kept ⟨st, past, [], none, False, False⟩ := by
  have hshut : View.Shut ⟨st, past, [], none, False, False⟩ := ⟨fun _ => id, by simp⟩
  cases h with
  | prepared hp => exact .prepared ⟨hpast ▸ hp.1, rfl⟩ (fun h => (hst h).elim) fun h => (hst' h).elim
  | committing hf => exact .prepared ⟨hpast ▸ hf, rfl⟩ (fun h => (hst h).elim) fun h => (hst' h).elim
  | committed hf => exact .committed (hpast ▸ hf) rfl hshut

/-- A slave fails, or has failed already; the master may have noticed. -/
theorem Link.fails (h : Link m i s inbox outbox) (hdur : ∀ r, m.Durable r → m'.Durable r)
    (hbound : ∀ r, m'.Bound i r → m.Bound i r) (hclosed : ∀ r, m'.Closed r → m.Closed r)
    (hwaits : ∀ r, ¬ m'.Waits i r) (hwit : ∀ r, ¬ m'.Witnessed i r) (hstate : m'.state ≠ .down → m.state ≠ .down)
    (hrec : ∀ r, m'.state ≠ .down → m.Credits i r ∨ m.Recovers i r → m'.Recovers i r)
    (hgone : m'.state ≠ .down → i ∈ m'.resolveGather) (hdelayed : m'.delayedResolve[i]? = none)
    (hwait : ∀ msg, (i, msg) ∉ m'.waitingForReplay) : Link m' i (.new .down s.journal) [] [] where
  linkAt r := by
    have hat := h.linkAt r
    rw [view_new]
    have hkeeps : m'.Keeps i r 0 → m'.Bound i r := fun hk => hk.resolve_right fun hk => hk.elim (hwit r) (by simp)
    exact
      { idle := fun _ => rfl
        durable := fun hmem => by
          rw [List.append_nil] at hmem
          exact hdur r (hat.durable (List.mem_append_left _ hmem))
        kept := fun hk => (hat.kept (.inl (hbound r (hkeeps hk)))).lose rfl .down (by simp) (by simp)
        active := fun hw => (hw.elim (hwaits r) (hwit r)).elim
        single := by simp
        asked := fun _ => by simp
        waits := fun _ hpos => by simp at hpos
        ends := fun hmem => by cases hmem
        accounted := fun hup hb => by
          rcases hat.accounted (hstate hup) (hbound r hb) with hf | hc | ⟨hc, -⟩
          · exact .inl hf
          · exact .inr (.inr ⟨hrec r hup (.inl hc), rfl⟩)
          · exact .inr (.inr ⟨hrec r hup (.inr hc), rfl⟩)
        closed := fun hc hb => hat.closed (hclosed r hc) (hbound r hb) }
  waiting := rfl
  stage := by simp [Slave.new]
  lost _ := rfl
  silent _ := ⟨rfl, rfl⟩
  gone _ hup := ⟨hgone hup, hdelayed⟩
  listed _ r hl := by
    rw [view_new] at hl
    rcases hl with ⟨hs, -⟩ | ⟨-, -, mdr, hreq, -⟩
    · cases hs
    · cases hreq
  unasked _ hs := by cases hs
  settled _ hs := by cases hs
  inOk msg hmem := by cases hmem
  outOk msg hget := by
    rcases hget with hget | hget | ⟨l, hl, -⟩
    · cases hget
    · exact (hwait msg hget).elim
    · cases hdelayed.symm.trans hl

/-- What a slave remembers of a request when the master has failed. -/
def remembers (mdr : SlaveRequest) : Option SlaveRequest :=
  if mdr.slaveCommit then some mdr else if mdr.slaveRequest then some { mdr with aborted := true } else none

theorem view_handleMdsFailure (s : Slave) (r : ℕ) :
    s.handleMdsFailure.view r = { s.view r with request := (s.view r).request.bind remembers } := by
  have hget : s.handleMdsFailure.activeRequests[r]? = s.activeRequests[r]?.bind remembers := by
    rw [handleMdsFailure, Std.ExtTreeMap.getElem?_filterMap']
    rfl
  exact View.ext rfl rfl rfl hget rfl rfl

theorem slaveCommit_of_remembers {mdr mdr' : SlaveRequest} (h : remembers mdr = some mdr') :
    mdr'.slaveCommit = mdr.slaveCommit := by
  unfold remembers at h
  split at h
  · cases h
    rfl
  · split at h
    · cases h
      rfl
    · cases h

theorem View.Kept.remembers (h : v.Kept) : View.Kept { v with request := v.request.bind remembers } := by
  have hshut : v.Shut → View.Shut { v with request := v.request.bind TwoPhase.remembers } := by
    refine fun hs => ⟨hs.replay, fun mdr' hmdr' => ?_⟩
    obtain ⟨mdr, hmdr, hrem⟩ := Option.bind_eq_some_iff.mp hmdr'
    rw [slaveCommit_of_remembers hrem, hs.request mdr hmdr]
  cases h with
  | prepared hp hreplay hrequest =>
    refine .prepared hp hreplay fun hs => ?_
    obtain ⟨mdr, hmdr, hc, ha⟩ := hrequest hs
    exact ⟨mdr, by simp [hmdr, TwoPhase.remembers, hc], hc, ha⟩
  | committing hf hr hs => exact .committing hf hr (hshut hs)
  | committed hf hr hs => exact .committed hf hr (hshut hs)

/-- A slave whose master has failed, and may have been down already. -/
theorem Link.masterFails (h : Link m i s inbox outbox) :
    Link (.new .down m.journal) i (if s.state = .down then s else s.handleMdsFailure) [] [] := by
  set s' := if s.state = .down then s else s.handleMdsFailure with hs'
  have hview : ∀ r, s'.view r = { s.view r with request := (s.view r).request.bind remembers } := by
    intro r
    rw [hs']
    split
    case isTrue hd =>
      rw [h.lost hd, view_new]
      rfl
    case isFalse => exact view_handleMdsFailure s r
  have hstate : s'.state = s.state := congrArg View.state (hview 0)
  have hwait : s'.waitingForReplay = [] := by
    rw [hs']
    split
    · exact h.waiting
    · exact h.waiting
  have hbound : ∀ r, Master.Bound (.new .down m.journal) i r → m.Bound i r := by
    rintro r ⟨W, he, hi⟩
    exact ⟨W, List.mem_append_left _ (by simpa [Master.new] using he), hi⟩
  refine ⟨fun r => ?_, hwait, hstate ▸ h.stage, fun hd => ?_, fun _ => ⟨rfl, rfl⟩, fun _ hup => (hup rfl).elim,
    fun hup => (hup rfl).elim, fun hm => (by cases hm),
    fun hm => hm.elim (fun hm => (by cases hm)) fun hm => (by cases hm),
    fun msg hmem => (by cases hmem), fun msg hget => ?_⟩
  · have hat := h.linkAt r
    rw [hview]
    exact
      { idle := fun hs => by simp [hat.idle hs]
        durable := hat.durable
        kept := fun hk => by
          rcases hk with hb | ⟨mdr, hmdr, -⟩ | hpos
          · exact (hat.kept (.inl (hbound r hb))).remembers
          · simp [Master.new] at hmdr
          · simp at hpos
        active := fun hw => by
          rcases hw with ⟨mdr, hmdr, -⟩ | ⟨mdr, hmdr, -⟩
          · simp [Master.new] at hmdr
          · simp [Master.new] at hmdr
        single := hat.single
        asked := fun hup => (hup rfl).elim
        waits := fun hup => (hup rfl).elim
        ends := fun hmem => by
          obtain ⟨hlast, hreq⟩ := hat.ends hmem
          refine ⟨hlast, fun mdr' hmdr' => ?_⟩
          obtain ⟨mdr, hmdr, hrem⟩ := Option.bind_eq_some_iff.mp hmdr'
          obtain ⟨hsr, hsc⟩ := hreq mdr hmdr
          rw [remembers, if_pos hsc] at hrem
          cases hrem
          exact ⟨hsr, hsc⟩
        accounted := fun hup => (hup rfl).elim
        closed := fun hc hb => hat.closed (List.mem_append_left _ (by simpa [Master.Closed, Master.new] using hc))
            (hbound r hb) }
  · have hd' : s.state = .down := hstate ▸ hd
    rw [hs', if_pos hd']
    exact h.lost hd'
  · rcases hget with hget | hget | ⟨l, hl, -⟩
    · cases hget
    · cases hget
    · simp [Master.new] at hl

/-- A slave was taken over. -/
theorem Link.slaveReplayed (hm : m.Ok) (h : Link m i s inbox outbox) (hs : s.state = .down) :
    Link m i s.replayed inbox outbox := by
  have hview : ∀ r, s.replayed.view r = ⟨.resolve, about r s.journal, [], none, r ∈ openUpdates s.journal, False⟩ := by
    intro r
    simp [view, replayed, Slave.new]
  have hold : ∀ r, s.view r = ⟨.down, about r s.journal, [], none, False, False⟩ := by
    intro r
    rw [h.lost hs, view_new]
    rfl
  obtain ⟨hin, hout⟩ := h.silent (.inr hs)
  refine ⟨fun r => ?_, rfl, by simp [replayed, Slave.new], fun hd => (by cases hd), fun _ => ⟨hin, hout⟩,
    fun hd => (by cases hd),
    fun hup r _ => ⟨(h.gone hs hup).1, .inr fun r' hr' => ?_⟩, fun _ hact => (by cases hact),
    fun _ hact => (by cases hact),
    fun msg hmem => ?_, fun msg hget => ?_⟩
  · have hat := h.linkAt r
    rw [hold] at hat
    rw [hview]
    exact
      { idle := fun _ => rfl
        durable := hat.durable
        kept := fun hk => by
          cases hat.kept hk with
          | prepared hp => exact .prepared hp (fun _ => mem_openUpdates.mpr hp.1) fun hs => by cases hs
          | committing hf hr => cases hr
          | committed hf =>
            refine .committed hf rfl ⟨fun _ hu => ?_, by simp⟩
            cases hf.symm.trans (mem_openUpdates.mp hu)
        active := fun hw => by cases hat.active hw
        single := hat.single
        asked := hat.asked
        waits := hat.waits
        ends := hat.ends
        accounted := hat.accounted
        closed := hat.closed }
  · rw [hview] at hr'
    exact hr'
  · rw [hin] at hmem
    cases hmem
  · rcases hget with hget | hget | ⟨l, hl, -⟩
    · rw [hout] at hget
      cases hget
    · obtain ⟨r, hr⟩ := hm.waiting _ hget
      have hmsg := h.outOk msg (.inr (.inl hget))
      dsimp only at hr
      subst hr
      cases hmsg with
      | committed hdur hf =>
        refine .committed hdur fun hb => ?_
        have hf := hf hb
        rw [hold] at hf
        rw [hview]
        exact hf
    · by_cases hup : m.state = .down
      · rw [hm.down hup] at hl
        simp [Master.new] at hl
      · cases hl.symm.trans (h.gone hs hup).2

/-- A slave gets active when it has nothing left to tell. -/
theorem Link.slaveActive (h : Link m i s inbox outbox) (hs : s.state = .resolve) (hgather : i ∉ m.resolveGather)
    (hack : s.resolveAckGather = false) (hm : m.state = .rejoin ∨ m.state = .active) :
    Link m i { s with state := .active, waitingForReplay := [] } inbox outbox := by
  have hstate : m.state ≠ .down ∧ m.state ≠ .resolve := by
    rcases hm with hm | hm
    · simp [hm]
    · simp [hm]
  have hno : ∀ r, ¬ (s.view r).Listed m.state := fun r hl => hgather (h.listed hstate.1 r hl).1
  have hview : ∀ r, Slave.view { s with state := .active, waitingForReplay := [] } r =
      { s.view r with state := .active } :=
    fun _ => rfl
  have hno' : ∀ r, ¬ (Slave.view { s with state := .active, waitingForReplay := [] } r).Listed m.state := fun r =>
    View.not_listed rfl hstate.2
  refine ⟨fun r => ?_, rfl, (by simp), fun hd => (by cases hd), fun hd => ?_, fun hd => (by cases hd),
    fun _ r hl => (hno' r hl).elim, fun hm => (hstate.2 hm).elim, fun _ _ => ⟨hgather, hack⟩, fun msg hmem => ?_,
    fun msg hget => ?_⟩
  · have hat := h.linkAt r
    rw [hview]
    exact
      { idle := fun hne => (hne rfl).elim
        durable := hat.durable
        kept := fun hk => by
          have hshut : (s.view r).Shut → View.Shut { s.view r with state := .active } := fun hs =>
            ⟨fun h => (by cases h), hs.request⟩
          cases hat.kept hk with
          | prepared hp hreplay => exact (hno r (.inl ⟨hs, hreplay hs⟩)).elim
          | committing hf hr hs => exact .committing hf hr (hshut hs)
          | committed hf hr hs => exact .committed hf hr (hshut hs)
        active := fun _ => rfl
        single := hat.single
        asked := hat.asked
        waits := hat.waits
        ends := hat.ends
        accounted := hat.accounted
        closed := hat.closed }
  · exact h.silent (.inl (hd.resolve_right (by simp)))
  · cases h.inOk msg hmem with
    | prep r => exact .prep r
    | finish hdur hactive => exact .finish hdur hactive
    | resolveAck hc ha ht =>
      exact .resolveAck hc (fun r hr hb hp => ⟨rfl, (ha r hr hb hp).2⟩) fun r hl => (hno' r hl).elim
  · cases h.outOk msg hget with
    | prepAck r => exact .prepAck r
    | committed hdur hf => exact .committed hdur hf
    | resolve ht hd =>
      exact .resolve (fun r hl => (hno' r hl).elim) fun _ => ⟨hno', fun hm => (hstate.2 hm).elim⟩

/-- All that a slave has to tell. -/
theorem Link.sendResolves (h : Link m i s inbox outbox) (hup : m.state ≠ .down) (hsup : s.state ≠ .down) :
    Link m i (s.sendResolves m.state).1 inbox (outbox ++ (s.sendResolves m.state).2) := by
  have hsilent : inbox = [] ∧ outbox = [] → m.state = .down ∨ s.state = .down →
      inbox = [] ∧ outbox ++ (s.sendResolves m.state).2 = [] := fun _ hd => (hd.elim hup hsup).elim
  by_cases hreqs : s.slaveResolves m.state = []
  case pos =>
    have hno : ∀ r, ¬ (s.view r).Listed m.state := fun r hl => by
      rw [← mem_slaveResolves, hreqs] at hl
      cases hl
    have hsend : s.sendResolves m.state = (s, s.resolvesIfDone m.state) := by
      simp [Slave.sendResolves, hreqs]
    rw [hsend] at hsilent ⊢
    refine h.of_moves (.refl m i s) (fun r => ?_) rfl (fun _ => rfl) hsilent (fun _ r hl => (hno r hl).elim)
        (fun _ => id)
      fun msg hmem => (List.mem_append.mp hmem).imp_right (outOk_resolvesIfDone fun r hl => (hno r hl).elim)
    have hzero : (s.resolvesIfDone m.state).count (.prepAck r) = 0 := by
      refine List.count_eq_zero.mpr fun hmem => ?_
      cases (mem_resolvesIfDone hmem).1
    rw [List.count_append, hzero]
    exact h.linkAt r
  case neg =>
    obtain ⟨r₀, hr₀⟩ := List.exists_mem_of_ne_nil _ hreqs
    have hsend : s.sendResolves m.state =
        ({ s with resolveAckGather := true }, [.resolve (s.slaveResolves m.state)]) := by
      simp [Slave.sendResolves, hreqs, resolvesIfDone]
    have hr₀ := mem_slaveResolves.mp hr₀
    have hlisted := (h.listed hup r₀ hr₀).1
    rw [hsend]
    refine ⟨fun r => ?_, h.waiting, h.stage, fun hd => (hsup hd).elim, fun hd => (hd.elim hup hsup).elim, h.gone,
      h.listed, fun _ _ hg => (hg hlisted).elim, fun hm hs => ((h.settled hm hs).1 hlisted).elim, fun msg hmem => ?_,
      fun msg hget => ?_⟩
    · have hzero : List.count (ToMaster.prepAck r) [.resolve (s.slaveResolves m.state)] = 0 := by simp
      rw [List.count_append, hzero]
      exact h.linkAt r
    · cases h.inOk msg hmem with
      | prep r => exact .prep r
      | finish hdur hactive => exact .finish hdur hactive
      | resolveAck hc ha ht => exact .resolveAck hc ha ht
    · have hold : m.Gets i outbox msg → OutOk m i { s with resolveAckGather := true } msg := by
        intro hget
        cases h.outOk msg hget with
        | prepAck r => exact .prepAck r
        | committed hdur hf => exact .committed hdur hf
        | resolve ht hd => exact .resolve ht fun hnil => ((hd hnil).1 r₀ hr₀).elim
      rcases hget with hget | hget
      · rcases List.mem_append.mp hget with hget | hget
        · exact hold (.inl hget)
        · rw [List.mem_singleton.mp hget]
          exact .resolve (fun r hl => .inr (mem_slaveResolves.mpr hl)) fun hnil => (hreqs hnil).elim
      · exact hold (.inr hget)

/-! ## The master -/

section Failure

variable (m) (who)

theorem failure_masters (r : ℕ) : (m.handleMdsFailure who).uncommittedMasters[r]? =
    m.uncommittedMasters[r]?.map (Master.UMaster.without who) := Std.ExtTreeMap.getElem?_map

theorem failure_requests (r : ℕ) : (m.handleMdsFailure who).activeRequests[r]? =
    m.activeRequests[r]?.map (Master.Request.without who) := Std.ExtTreeMap.getElem?_map

theorem failure_delayed (i : Fin n) :
    (m.handleMdsFailure who).delayedResolve[i]? = if i = who then none else m.delayedResolve[i]? :=
  getElem?_erase m.delayedResolve who i

theorem without_committing (mdr : Request n) : (Master.Request.without who mdr).committing = mdr.committing := by
  unfold Master.Request.without
  split
  · rfl
  · rfl

theorem without_committing_umaster (u : UMaster n) : (Master.UMaster.without who u).committing = u.committing := by
  unfold Master.UMaster.without
  split
  · rfl
  · rfl

variable {m who}

theorem failure_safe {u' : UMaster n} (hu' : (m.handleMdsFailure who).uncommittedMasters[r]? = some u') :
    ∃ u, m.uncommittedMasters[r]? = some u ∧ u'.safe = u.safe := by
  rw [failure_masters] at hu'
  obtain ⟨u, hu, rfl⟩ := Option.map_eq_some_iff.mp hu'
  refine ⟨u, hu, ?_⟩
  unfold Master.UMaster.without
  split
  · rfl
  · rfl

theorem failure_request {mdr' : Request n} (hmdr' : (m.handleMdsFailure who).activeRequests[r]? = some mdr')
    (hc : mdr'.committing = false) : ∃ mdr, m.activeRequests[r]? = some mdr ∧ mdr.committing = false ∧
      mdr'.witnessed = mdr.witnessed.erase who ∧ mdr'.waitingOnSlave = mdr.waitingOnSlave.erase who := by
  rw [failure_requests] at hmdr'
  obtain ⟨mdr, hmdr, rfl⟩ := Option.map_eq_some_iff.mp hmdr'
  rw [without_committing] at hc
  refine ⟨mdr, hmdr, hc, ?_⟩
  rw [Master.Request.without, hc]
  exact ⟨rfl, rfl⟩

theorem failure_request_of {mdr : Request n} (hmdr : m.activeRequests[r]? = some mdr) (hc : mdr.committing = false) :
    (m.handleMdsFailure who).activeRequests[r]? = some { mdr with
      witnessed := mdr.witnessed.erase who
      waitingOnSlave := mdr.waitingOnSlave.erase who } := by
  rw [failure_requests, hmdr, Option.map_some, Master.Request.without, hc]
  rfl

end Failure

theorem Master.Ok.handleMdsFailure (h : m.Ok) (hup : m.state ≠ .down) (who : Fin n) :
    (m.handleMdsFailure who).Ok where
  down hd := (hup hd).elim
  safe r u' hu' hs := by
    obtain ⟨u, hu, hsu⟩ := failure_safe hu'
    exact h.safe r u hu (hsu.symm.trans hs)
  requests hne := by
    refine Std.ExtTreeMap.ext_getElem? fun r => ?_
    rw [failure_requests, h.requests hne]
    simp
  fresh r mdr' hmdr' hc := by
    obtain ⟨mdr, hmdr, hc, -⟩ := failure_request hmdr' hc
    exact h.fresh r mdr hmdr hc
  disjoint r mdr' hmdr' := by
    rw [failure_requests] at hmdr'
    obtain ⟨mdr, hmdr, rfl⟩ := Option.map_eq_some_iff.mp hmdr'
    unfold Master.Request.without
    split
    · exact h.disjoint r mdr hmdr
    · exact fun i hi hi' => h.disjoint r mdr hmdr i (Finset.mem_of_mem_erase hi) (Finset.mem_of_mem_erase hi')
  waiting p hp := h.waiting p (List.mem_filter.mp hp).1
  delayed i l hl := h.delayed i l (getElem?_of_erase hl)
  known r u' hu' := by
    obtain ⟨u, hu, -⟩ := failure_safe hu'
    exact h.known r u hu

/-- The slave fails: the master hears of it before it closes what it may have committed. -/
theorem Link.slaveFails (h : Link m i s inbox outbox) (hup : m.state ≠ .down) :
    Link (m.handleMdsFailure i) i (.new .down s.journal) [] [] := by
  refine h.fails (fun _ => id) (fun _ => id) (fun _ => id) (fun r hw => ?_) (fun r hw => ?_) (fun _ => hup)
    (fun r _ hc => ?_) (fun _ => Finset.mem_insert_self i _) (by rw [failure_delayed, if_pos rfl]) fun msg hmem => ?_
  · obtain ⟨mdr', hmdr', hc, hmem⟩ := hw
    obtain ⟨mdr, -, -, -, hwait⟩ := failure_request hmdr' hc
    simp [hwait] at hmem
  · obtain ⟨mdr', hmdr', hc, hmem⟩ := hw
    obtain ⟨mdr, -, -, hwit, -⟩ := failure_request hmdr' hc
    simp [hwit] at hmem
  · obtain ⟨u, hu, hcu, hrec⟩ : ∃ u, m.uncommittedMasters[r]? = some u ∧ u.committing = false ∧
        (i ∈ u.slaves ∨ u.recovering = true ∨ m.state = .resolve) := by
      rcases hc with ⟨u, hu, hcu, hmem⟩ | ⟨u, hu, hcu, -, hrec⟩
      · exact ⟨u, hu, hcu, .inl hmem⟩
      · exact ⟨u, hu, hcu, .inr hrec⟩
    refine ⟨_, by rw [failure_masters, hu, Option.map_some], (without_committing_umaster i u).trans hcu,
      Finset.mem_insert_self i _, ?_⟩
    unfold Master.UMaster.without
    split
    · exact .inl rfl
    case isFalse hmem => exact hrec.resolve_left hmem
  · have hne := (List.mem_filter.mp hmem).2
    simp at hne

/-- Another slave fails. -/
theorem Link.otherFails (h : Link m i s inbox outbox) (hi : i ≠ who) :
    Link (m.handleMdsFailure who) i s inbox outbox := by
  have hcarry : Carries m (m.handleMdsFailure who) i := by
    intro r u hu hc
    refine ⟨_, by rw [failure_masters, hu, Option.map_some], (without_committing_umaster who u).trans hc, ?_⟩
    unfold Master.UMaster.without
    split
    · exact ⟨fun hmem => Finset.mem_erase.mpr ⟨hi, hmem⟩, fun _ => rfl⟩
    · exact ⟨id, id⟩
  refine h.shift ⟨rfl, fun _ => id, fun _ => .inl, fun _ _ hc => .inr (hcarry.credits hc)⟩
    (fun r => (h.linkAt r).shift id id id (fun hw => ?_) ⟨fun hw => ?_, fun hw => ?_⟩
      (fun _ hc => .inr (hcarry.credits hc))
      (fun _ hrec _ => .inr (.inr (hcarry.recovers rfl (Finset.mem_insert_of_mem) hrec))) fun h _ => .inl h)
    (by simp [Master.handleMdsFailure, hi]) (fun _ hnone => by rw [failure_delayed, if_neg hi, hnone]) (fun h _ => h)
    (fun _ => .inl) fun msg hget => .inl (hget.imp_right fun hget =>
      hget.imp (fun hmem => (List.mem_filter.mp hmem).1) (Exists.imp fun l => And.imp_left getElem?_of_erase))
  · obtain ⟨mdr', hmdr', hc, hmem⟩ := hw
    obtain ⟨mdr, hmdr, hc, hwit, -⟩ := failure_request hmdr' hc
    exact ⟨mdr, hmdr, hc, Finset.mem_of_mem_erase (hwit ▸ hmem)⟩
  · obtain ⟨mdr', hmdr', hc, hmem⟩ := hw
    obtain ⟨mdr, hmdr, hc, -, hwait⟩ := failure_request hmdr' hc
    exact ⟨mdr, hmdr, hc, Finset.mem_of_mem_erase (hwait ▸ hmem)⟩
  · obtain ⟨mdr, hmdr, hc, hmem⟩ := hw
    exact ⟨_, failure_request_of hmdr hc, hc, Finset.mem_erase.mpr ⟨hi, hmem⟩⟩

namespace Linked

variable {slaves : Fin n → Slave} {ins : Fin n → List ToSlave} {outs : Fin n → List ToMaster}

theorem ok_new (l : List (LogEvent n)) : (Master.new .down l).Ok where
  down _ := rfl
  safe r u hu := by simp [Master.new] at hu
  requests _ := rfl
  fresh r mdr hmdr := by simp [Master.new] at hmdr
  disjoint r mdr hmdr := by simp [Master.new] at hmdr
  waiting p hp := by cases hp
  delayed i l hl := by simp [Master.new] at hl
  known r u hu := by simp [Master.new] at hu

theorem masterFails (h : Linked m slaves ins outs) : Linked (.new .down m.journal)
    (fun who => if (slaves who).state = .down then slaves who else (slaves who).handleMdsFailure) (fun _ => [])
    fun _ => [] :=
  ⟨ok_new m.journal, fun i => (h.link i).masterFails⟩

/-- The master was taken over, when all that the slaves wrote is in their journals. -/
theorem masterReplayed (h : Linked m slaves ins outs) (hd : m.state = .down)
    (hw : ∀ i, (slaves i).writing = [] ∧ (slaves i).needResolveRollback = ∅) : Linked m.replayed slaves ins outs := by
  have hnew := h.ok.down hd
  have hwriting : m.writing = [] := by
    rw [hnew]
    rfl
  have hbound : ∀ i r, m.replayed.Bound i r → m.Bound i r := by
    rintro i r ⟨W, he, hi⟩
    exact ⟨W, List.mem_append_left _ (by simpa [Master.replayed, Master.new] using he), hi⟩
  have hclosed : ∀ r, m.replayed.Closed r → m.Closed r := fun r hc =>
    List.mem_append_left _ (by simpa [Master.Closed, Master.replayed, Master.new] using hc)
  refine ⟨⟨fun hd => (by cases hd), fun r u hu _ => mem_of_replayMasters hu, fun _ => rfl, fun r mdr hmdr => ?_,
    fun r mdr hmdr => ?_, fun p hp => (by cases hp), fun i l hl => ?_, fun r u hu => ?_⟩, fun i => ?_⟩
  · simp [Master.replayed, Master.new] at hmdr
  · simp [Master.replayed, Master.new] at hmdr
  · simp [Master.replayed, Master.new] at hl
  · obtain ⟨W, hmem⟩ := mem_of_replayMasters hu
    exact ⟨_, List.mem_append_left _ hmem, rfl⟩
  · have hlink := h.link i
    obtain ⟨hin, hout⟩ := hlink.silent (.inl hd)
    obtain ⟨hwi, hneed⟩ := hw i
    have hrec : ∀ r, ((slaves i).view r).records = [] := fun r => by simp [view, hwi]
    have hno : ∀ r, ¬ ((slaves i).view r).rollback := fun r => by simp [view, hneed]
    refine ⟨fun r => ?_, hlink.waiting, hlink.stage, hlink.lost, fun _ => ⟨hin, hout⟩,
      fun _ _ => ⟨Finset.mem_univ i, ?_⟩,
      fun _ r _ => ⟨Finset.mem_univ i, .inr hno⟩, fun _ _ hg => (hg (Finset.mem_univ i)).elim,
      fun hm => hm.elim (fun hm => (by cases hm)) fun hm => (by cases hm), fun msg hmem => ?_, fun msg hget => ?_⟩
    · have hat := hlink.linkAt r
      rw [hin, hout] at hat ⊢
      have hkept : m.replayed.Bound i r → ((slaves i).view r).Kept := fun hb => hat.kept (.inl (hbound i r hb))
      exact
        { idle := hat.idle
          durable := hat.durable
          kept := fun hk => by
            rcases hk with hb | ⟨mdr, hmdr, -⟩ | hpos
            · exact hkept hb
            · simp [Master.replayed, Master.new] at hmdr
            · simp at hpos
          active := fun hw => by
            rcases hw with ⟨mdr, hmdr, -⟩ | ⟨mdr, hmdr, -⟩
            · simp [Master.replayed, Master.new] at hmdr
            · simp [Master.replayed, Master.new] at hmdr
          single := hat.single
          asked := fun _ => by simp [hrec r]
          waits := fun _ hpos => by simp [hrec r] at hpos
          ends := hat.ends
          accounted := fun _ hb => by
            by_cases hc : .committed r ∈ m.journal
            · exact .inl (hat.closed (List.mem_append_left _ hc) (hbound i r hb))
            · obtain ⟨W, he, -⟩ := hb
              have hmem : .update r W ∈ m.journal := by simpa [Master.replayed, Master.new] using he
              exact .inr (.inr ⟨⟨_, replayMasters_of_mem hmem hc, rfl, Finset.mem_univ i, .inr rfl⟩, hrec r⟩)
          closed := fun hc hb => hat.closed (hclosed r hc) (hbound i r hb) }
    · simp [Master.replayed, Master.new]
    · rw [hin] at hmem
      cases hmem
    · rcases hget with hget | hget | ⟨l, hl, -⟩
      · rw [hout] at hget
        cases hget
      · cases hget
      · simp [Master.replayed, Master.new] at hl

/-- A slave fails. -/
theorem slaveFails (h : Linked m slaves ins outs) (who : Fin n) :
    Linked (if m.state = .down then m else m.handleMdsFailure who)
      (Function.update slaves who (.new .down (slaves who).journal)) (Function.update ins who [])
      (Function.update outs who []) := by
  by_cases hd : m.state = .down
  case pos =>
    rw [if_pos hd]
    have hnew := h.ok.down hd
    refine ⟨h.ok, fun i => ?_⟩
    by_cases hi : i = who
    case pos =>
      subst hi
      rw [Function.update_self, Function.update_self, Function.update_self]
      refine (h.link i).fails (fun _ => id) (fun _ => id) (fun _ => id) (fun r hw => h.ok.not_down_of_waits hw hd)
        (fun r hw => h.ok.not_down_of_witnessed hw hd) id (fun _ hup => (hup hd).elim) (fun hup => (hup hd).elim) ?_
        fun msg => ?_
      · rw [hnew]
        simp [Master.new]
      · rw [hnew]
        simp [Master.new]
    case neg =>
      rw [Function.update_of_ne hi, Function.update_of_ne hi, Function.update_of_ne hi]
      exact h.link i
  case neg =>
    rw [if_neg hd]
    refine ⟨h.ok.handleMdsFailure hd who, fun i => ?_⟩
    by_cases hi : i = who
    case pos =>
      subst hi
      rw [Function.update_self, Function.update_self, Function.update_self]
      exact (h.link i).slaveFails hd
    case neg =>
      rw [Function.update_of_ne hi, Function.update_of_ne hi, Function.update_of_ne hi]
      exact (h.link i).otherFails hi

end Linked

end CephMds.TwoPhase
