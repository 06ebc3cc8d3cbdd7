import CephMds.Proof.TwoPhase.Masters

/-!
# Resolves

What the master makes of a resolve. A slave is told to commit what has an entry
that is in the journal, and is waited for from then on; it is told to abort what
has none, which is closed, so the slave has committed it, or does not name it.
-/

namespace CephMds.TwoPhase

open Checked Slave Writes

variable {n : ℕ} {m m' : Master n} {i src who : Fin n} {r : ℕ} {s : Slave} {u : UMaster n} {l : List ℕ}
  {slaves : Fin n → Slave} {ins : Fin n → List ToSlave} {outs : Fin n → List ToMaster}

/-! ## Answers -/

namespace Master

theorem addSlave_masters (m : Master n) (src : Fin n) (x r : ℕ) :
    (addSlave src m x).uncommittedMasters[r]? =
      m.uncommittedMasters[r]?.map fun u => if r = x then { u with slaves := insert src u.slaves } else u := by
  unfold addSlave
  cases hx : m.uncommittedMasters[x]? with
  | none =>
    by_cases hr : r = x
    · simp [hr, hx]
    · simp [hr]
  | some u =>
    by_cases hr : r = x
    · simp [setMaster, hr, hx]
    · simp [setMaster, getElem?_insert, hr]

theorem addSlaves_eq (l : List ℕ) (m : Master n) : l.foldl (addSlave src) m =
    { m with uncommittedMasters := (l.foldl (addSlave src) m).uncommittedMasters } := by
  induction l generalizing m with
  | nil => rfl
  | cons x l ih =>
    rw [List.foldl_cons, ih]
    unfold addSlave
    cases m.uncommittedMasters[x]? with
    | none => rfl
    | some u => rfl

theorem addSlaves_masters (l : List ℕ) (m : Master n) (r : ℕ) :
    (l.foldl (addSlave src) m).uncommittedMasters[r]? =
      m.uncommittedMasters[r]?.map fun u => if r ∈ l then { u with slaves := insert src u.slaves } else u := by
  induction l generalizing m with
  | nil => simp
  | cons x l ih =>
    rw [List.foldl_cons, ih, addSlave_masters, Option.map_map]
    congr 1
    funext u
    by_cases hr : r = x
    · by_cases hl : r ∈ l
      · simp [hr, hr ▸ hl]
      · simp [hr, hr ▸ hl]
    · simp [hr]

end Master

/-- It has all slaves as before, and more. -/
theorem carries_addSlaves (l : List ℕ) (hm : m'.uncommittedMasters = m.uncommittedMasters) :
    Carries m (l.foldl (Master.addSlave src) m') i := by
  intro r u hu hc
  refine ⟨_, by rw [Master.addSlaves_masters, hm, hu, Option.map_some], ?_⟩
  split
  · exact ⟨hc, fun hi => Finset.mem_insert_of_mem hi, id⟩
  · exact ⟨hc, id, id⟩

/-- The answer to a resolve, when all that it tells of is in the journal or is not known. -/
theorem inOk_resolveAck {inbox : List ToSlave} {outbox : List ToMaster} (h : Link m src s inbox outbox)
    (hup : m.state ≠ .down) (hm : m.Ok) (hmsg : OutOk m src s (.resolve l))
    (hsafe : ∀ r ∈ l, ∀ u, m.uncommittedMasters[r]? = some u → u.safe = true) (hq : Quiet m m')
    (hmasters : ∀ r, m'.uncommittedMasters[r]? =
      m.uncommittedMasters[r]?.map fun u => if r ∈ l then { u with slaves := insert src u.slaves } else u) :
    InOk m' src s (.resolveAck (l.filter m.commits) (l.filter fun r => !m.commits r)) := by
  have hcredits : ∀ r ∈ l, ∀ u, m.uncommittedMasters[r]? = some u → u.committing = false → m'.Credits src r := by
    intro r hr u hu hc
    refine ⟨{ u with slaves := insert src u.slaves }, ?_, hc, Finset.mem_insert_self src _⟩
    rw [hmasters, hu, Option.map_some, if_pos hr]
  have hbound : ∀ r, m'.Bound src r → m.Bound src r := fun r hb => by
    rwa [Master.Bound, hq.journal, hq.writing] at hb
  refine .resolveAck (fun r hr => ?_) (fun r hr hb hp => ?_) fun r hl => ?_
  · obtain ⟨hr, hcom⟩ := List.mem_filter.mp hr
    obtain ⟨u, hu⟩ := Option.isSome_iff_exists.mp ((Std.ExtTreeMap.isSome_getElem?_eq_contains).trans hcom)
    refine ⟨by rw [Master.Durable, hq.journal]; exact hm.safe r u hu (hsafe r hr u hu), fun hb => ?_⟩
    rcases (h.linkAt r).accounted hup (hbound r hb) with hf | ⟨v, hv, hc, -⟩ | ⟨⟨v, hv, hc, -⟩, -⟩
    · exact .inl hf
    · exact .inr (hcredits r hr v hv hc)
    · exact .inr (hcredits r hr v hv hc)
  · obtain ⟨hr, hcom⟩ := List.mem_filter.mp hr
    have hnone : m.uncommittedMasters[r]? = none := by
      cases hu : m.uncommittedMasters[r]? with
      | none => rfl
      | some u =>
        have hsome := Std.ExtTreeMap.isSome_getElem?_eq_contains (t := m.uncommittedMasters) (a := r)
        rw [hu, Option.isSome_some] at hsome
        simp [Master.commits, ← hsome] at hcom
    exfalso
    rcases (h.linkAt r).accounted hup (hbound r hb) with hf | ⟨v, hv, -⟩ | ⟨⟨v, hv, -⟩, -⟩
    · cases hf.symm.trans hp.1
    · cases hnone.symm.trans hv
    · cases hnone.symm.trans hv
  · rw [hq.state] at hl
    cases hmsg with
    | resolve ht hd =>
      refine (ht r hl).imp_right fun hr => ?_
      by_cases hcom : m.commits r = true
      · exact .inl (List.mem_filter.mpr ⟨hr, hcom⟩)
      · exact .inr (List.mem_filter.mpr ⟨hr, by simpa using hcom⟩)

/-- A resolve waits for the updates that are not in the journal yet. -/
theorem Master.handleResolve_eq (m : Master n) (src : Fin n) (hl : l ≠ []) : ∃ unsafes : List ℕ,
    (∀ r ∈ l, ∀ u, m.uncommittedMasters[r]? = some u → u.safe = false → r ∈ unsafes) ∧
      let m₁ : Master n := { m with
        delayedResolve := m.delayedResolve.erase src
        pendingMasters := m.pendingMasters ∪ unsafes.toFinset }
      m.handleResolve src l = if m₁.pendingMasters ≠ ∅
        then ({ m₁ with delayedResolve := m₁.delayedResolve.insert src l }, [])
        else (l.foldl (Master.addSlave src) m₁,
          [(src, .resolveAck (l.filter m₁.commits) (l.filter fun r => !m₁.commits r))]) := by
  refine ⟨_, fun r hr u hu hs => ?_, if_pos hl⟩
  exact List.mem_filter.mpr ⟨hr, by simp [hu, hs]⟩

namespace Linked

/-- `handle_resolve`, of a slave that tells of updates. -/
theorem handleResolve (h : Linked m slaves ins outs) (hl : l ≠ []) (hup : m.state ≠ .down)
    (hsup : (slaves src).state ≠ .down) (hmsg : OutOk m src (slaves src) (.resolve l)) :
    Linked (m.handleResolve src l).1 slaves (delivered slaves ins (m.handleResolve src l).2) outs ∧
      Quiet m (m.handleResolve src l).1 ∧ ∀ i, Shift m (m.handleResolve src l).1 i (slaves i) := by
  obtain ⟨unsafes, hunsafes, hdef⟩ := Master.handleResolve_eq m src hl
  set m₁ : Master n := { m with
    delayedResolve := m.delayedResolve.erase src
    pendingMasters := m.pendingMasters ∪ unsafes.toFinset } with hm₁
  have hdelayed : ∀ i, m₁.delayedResolve[i]? = if i = src then none else m.delayedResolve[i]? := fun i =>
    getElem?_erase m.delayedResolve src i
  by_cases hpend : m₁.pendingMasters ≠ ∅
  case pos =>
    rw [hdef, if_pos hpend, delivered_nil]
    have hq : Quiet m { m₁ with delayedResolve := m₁.delayedResolve.insert src l } := ⟨rfl, rfl, rfl, rfl, rfl⟩
    have hinsert : ∀ i, (m₁.delayedResolve.insert src l)[i]? = if i = src then some l else m.delayedResolve[i]? := by
      intro i
      rw [getElem?_insert, hdelayed]
      split
      · rfl
      · rfl
    refine ⟨⟨hq.ok h.ok hup (fun r u hu => ⟨u, hu, .inl⟩) h.ok.waiting fun i l' hl' => ?_, fun i => ?_⟩, hq,
      fun i => hq.shift (.of_eq rfl)⟩
    · rw [hinsert] at hl'
      split at hl'
      · cases hl'
        exact hl
      · exact h.ok.delayed i l' hl'
    · refine (h.link i).carry hq (.of_eq rfl) (fun hd hnone => ?_) (.inl rfl) (fun _ => rfl) id fun msg hget => ?_
      · rw [hinsert, if_neg, hnone]
        rintro rfl
        exact hsup hd
      · rcases hget with hget | hget | ⟨l', hl', rfl⟩
        · exact .inl (.inl hget)
        · exact .inl (.inr (.inl hget))
        · rw [hinsert] at hl'
          split at hl'
          case isTrue hi =>
            cases hl'
            exact .inr (hi ▸ hmsg)
          case isFalse => exact .inl (.inr (.inr ⟨l', hl', rfl⟩))
  case neg =>
    rw [hdef, if_neg hpend]
    have hnone : unsafes = [] := by
      have hempty := Finset.union_eq_empty.mp (not_not.mp hpend)
      exact List.toFinset_eq_empty_iff _ |>.mp hempty.2
    have hsafe : ∀ r ∈ l, ∀ u, m.uncommittedMasters[r]? = some u → u.safe = true := by
      intro r hr u hu
      by_contra hs
      have hmem := hunsafes r hr u hu (by simpa using hs)
      rw [hnone] at hmem
      cases hmem
    have hq : Quiet m (l.foldl (Master.addSlave src) m₁) := by
      rw [Master.addSlaves_eq]
      exact ⟨rfl, rfl, rfl, rfl, rfl⟩
    have hwaiting : (l.foldl (Master.addSlave src) m₁).waitingForReplay = m.waitingForReplay := by
      rw [Master.addSlaves_eq]
    have hdelayed' : (l.foldl (Master.addSlave src) m₁).delayedResolve = m₁.delayedResolve := by
      rw [Master.addSlaves_eq]
    have hcarries : ∀ i, Carries m (l.foldl (Master.addSlave src) m₁) i := fun i => carries_addSlaves l rfl
    have hsub : ∀ (i : Fin n) (l' : List ℕ),
        (l.foldl (Master.addSlave src) m₁).delayedResolve[i]? = some l' → m.delayedResolve[i]? = some l' := by
      intro i l' hl'
      rw [hdelayed'] at hl'
      exact getElem?_of_erase hl'
    refine ⟨⟨hq.ok h.ok hup (fun r u' hu' => ?_) (hwaiting ▸ h.ok.waiting)
        fun i l' hl' => h.ok.delayed i l' (hsub i l' hl'),
      fun i => ?_⟩, hq, fun i => hq.shift (hcarries i)⟩
    · rw [Master.addSlaves_masters] at hu'
      obtain ⟨u, hu, rfl⟩ := Option.map_eq_some_iff.mp hu'
      refine ⟨u, hu, fun hs => .inl ?_⟩
      split at hs
      · exact hs
      · exact hs
    · refine (h.link i).carry hq (hcarries i) (fun hd hnone => ?_) ?_ (fun _ => rfl) id fun msg hget => .inl ?_
      · rw [hdelayed', hdelayed, hnone, ite_self]
      · by_cases hi : i = src
        · subst hi
          rw [delivered_self slaves ins hsup]
          exact .inr ⟨⟨hup, hsup⟩, _, rfl,
            inOk_resolveAck (m := m) (h.link i) hup h.ok hmsg hsafe hq (Master.addSlaves_masters l m₁), by simp⟩
        · exact .inl (delivered_of_ne slaves ins hi)
      · rcases hget with hget | hget | ⟨l', hl', rfl⟩
        · exact .inl hget
        · exact .inr (.inl (hwaiting ▸ hget))
        · exact .inr (.inr ⟨l', hsub i l' hl', rfl⟩)

/-- Resolves one after the other. -/
theorem handleResolves {qs : List (Fin n × List ℕ)} {out : List (Fin n × ToSlave)}
    (h : Linked m slaves (delivered slaves ins out) outs) (hup : m.state ≠ .down)
    (hqs : ∀ q ∈ qs, q.2 ≠ [] ∧ (slaves q.1).state ≠ .down ∧ OutOk m q.1 (slaves q.1) (.resolve q.2)) :
    let p := qs.foldl
      (fun (p : Master n × List (Fin n × ToSlave)) q =>
        let n := p.1.handleResolve q.1 q.2
        (n.1, p.2 ++ n.2))
      (m, out)
    Linked p.1 slaves (delivered slaves ins p.2) outs ∧ Quiet m p.1 := by
  induction qs generalizing m out with
  | nil => exact ⟨h, rfl, rfl, rfl, rfl, rfl⟩
  | cons q qs ih =>
    obtain ⟨hne, hsup, hmsg⟩ := hqs q List.mem_cons_self
    obtain ⟨hl, hq, hshift⟩ := h.handleResolve hne hup hsup hmsg
    rw [← delivered_append] at hl
    obtain ⟨hl', hq'⟩ := ih hl (hq.state ▸ hup) fun q' hmem => by
      obtain ⟨hne, hsup, hmsg⟩ := hqs q' (List.mem_cons_of_mem _ hmem)
      exact ⟨hne, hsup, hmsg.shift (hshift q'.1)⟩
    exact ⟨hl', hq.trans hq'⟩

/-- What else is waited for can change. -/
theorem forget (h : Linked m slaves ins outs) (hq : Quiet m m')
    (hmasters : m'.uncommittedMasters = m.uncommittedMasters)
    (hdelayed : ∀ (i : Fin n) (l : List ℕ), m'.delayedResolve[i]? = some l → m.delayedResolve[i]? = some l)
    (hwait : ∀ p ∈ m'.waitingForReplay, p ∈ m.waitingForReplay) (hup : m.state ≠ .down) :
        Linked m' slaves ins outs where
  ok := hq.ok h.ok hup (fun _ u hu => ⟨u, hmasters ▸ hu, .inl⟩) (fun p hp => h.ok.waiting p (hwait p hp))
    fun i l hl => h.ok.delayed i l (hdelayed i l hl)
  link i := by
    refine (h.link i).carry hq (.of_eq hmasters) (fun _ hnone => ?_) (.inl rfl) (fun _ => rfl) id fun msg hget =>
        .inl ?_
    · cases hl : m'.delayedResolve[i]? with
      | none => rfl
      | some l => cases hnone.symm.trans (hdelayed i l hl)
    · exact hget.imp_right fun hget => hget.imp (hwait _) (Exists.imp fun l => And.imp_left (hdelayed i l))

/-- `process_delayed_resolve`. -/
theorem processDelayedResolve (h : Linked m slaves ins outs) (hup : m.state ≠ .down) :
    Linked m.processDelayedResolve.1 slaves (delivered slaves ins m.processDelayedResolve.2) outs ∧
      Quiet m m.processDelayedResolve.1 := by
  have hq : Quiet m { m with delayedResolve := ∅ } := ⟨rfl, rfl, rfl, rfl, rfl⟩
  have h₀ : Linked { m with delayedResolve := ∅ } slaves (delivered slaves ins []) outs := by
    rw [delivered_nil]
    refine h.forget hq rfl (fun i l hl => ?_) (fun _ => id) hup
    simp at hl
  have hqs : ∀ q ∈ m.delayedResolve.toList, q.2 ≠ [] ∧ (slaves q.1).state ≠ .down ∧
      OutOk { m with delayedResolve := ∅ } q.1 (slaves q.1) (.resolve q.2) := by
    intro q hmem
    have hget : m.delayedResolve[q.1]? = some q.2 := Std.ExtTreeMap.mem_toList_iff_getElem?_eq_some.mp hmem
    refine ⟨h.ok.delayed _ _ hget, fun hd => ?_, ?_⟩
    · cases hget.symm.trans ((h.link q.1).gone hd hup).2
    · exact ((h.link q.1).outOk _ (.inr (.inr ⟨_, hget, rfl⟩))).shift (hq.shift (.of_eq rfl))
  obtain ⟨hl, hq'⟩ := h₀.handleResolves hup hqs
  exact ⟨hl, hq.trans hq'⟩

/-! ## The journal of the master -/

/-- `logged_master_update`, of an update that is in the journal. -/
theorem loggedMasterUpdate {out : List (Fin n × ToSlave)} (h : Linked m slaves ins outs) (hup : m.state ≠ .down)
    (hdur : m.Durable r) (hok : m.loggedMasterUpdate r = .ok (m', out)) :
    Linked m' slaves (delivered slaves ins out) outs ∧ Quiet m m' := by
  simp only [Master.loggedMasterUpdate, bind_ok, deref_ok] at hok
  obtain ⟨u, hu, hok⟩ := hok
  have hmasters : ∀ r', (m.setMaster r { u with safe := true }).uncommittedMasters[r']? =
      if r' = r then some { u with safe := true } else m.uncommittedMasters[r']? := fun r' =>
    getElem?_insert m.uncommittedMasters r r' _
  have hq : Quiet m (m.setMaster r { u with safe := true }) := ⟨rfl, rfl, rfl, rfl, rfl⟩
  have hc : ∀ i, Carries m (m.setMaster r { u with safe := true }) i := by
    intro i r' v hv hcv
    by_cases hr : r' = r
    · subst hr
      cases hu.symm.trans hv
      exact ⟨_, (hmasters r').trans (if_pos rfl), hcv, id, id⟩
    · exact ⟨v, by rw [hmasters, if_neg hr, hv], hcv, id, id⟩
  have hset : Linked (m.setMaster r { u with safe := true }) slaves ins outs := by
    refine ⟨hq.ok h.ok hup (fun r' v hv => ?_) h.ok.waiting h.ok.delayed, fun i => ?_⟩
    · rw [hmasters] at hv
      split at hv
      case isTrue hr => exact ⟨u, hr ▸ hu, fun _ => .inr (hr ▸ hdur)⟩
      case isFalse => exact ⟨v, hv, .inl⟩
    · exact (h.link i).carry hq (hc i) (fun _ => id) (.inl rfl) (fun _ => rfl) id fun _ => .inl
  have hpend : ∀ s : Finset ℕ,
      Linked { m.setMaster r { u with safe := true } with pendingMasters := s } slaves ins outs := fun s =>
    hset.forget ⟨rfl, rfl, rfl, rfl, rfl⟩ rfl (fun _ _ => id) (fun _ => id) hup
  split at hok
  · split at hok
    · rw [pure_ok] at hok
      obtain ⟨rfl, rfl⟩ := Prod.ext_iff.mp hok
      obtain ⟨hl, hq'⟩ := (hpend _).processDelayedResolve hup
      exact ⟨hl, hq'.state, hq'.journal, hq'.writing, hq'.activeRequests, hq'.resolveGather⟩
    · cases hok
      rw [delivered_nil]
      exact ⟨hpend _, rfl, rfl, rfl, rfl, rfl⟩
  · cases hok
    rw [delivered_nil]
    exact ⟨hset, hq⟩

/-- A request whose update is in the journal is replied to and finished. -/
theorem finish (h : Linked m slaves ins outs) {mdr : Request n} (hmdr : m.activeRequests[r]? = some mdr)
    (hdur : m.Durable r) : Linked { m with activeRequests := m.activeRequests.erase r } slaves
      (delivered slaves ins ((ascending mdr.slaves).map fun s => (s, .request .finish r))) outs := by
  have hactive : m.state = .active := by
    by_contra hne
    rw [h.ok.requests hne] at hmdr
    simp at hmdr
  have hget : ∀ r', (m.activeRequests.erase r)[r']? = if r' = r then none else m.activeRequests[r']? := fun r' =>
    getElem?_erase m.activeRequests r r'
  have hsub : ∀ (r' : ℕ) (mdr' : Request n), (m.activeRequests.erase r)[r']? = some mdr' →
      m.activeRequests[r']? = some mdr' := fun _ _ => getElem?_of_erase
  have hkeep : ∀ (r' : ℕ) (mdr' : Request n), m.activeRequests[r']? = some mdr' → mdr'.committing = false →
      (m.activeRequests.erase r)[r']? = some mdr' := by
    intro r' mdr' hmdr' hc
    rw [hget, if_neg, hmdr']
    rintro rfl
    exact hdur.not_fresh (h.ok.fresh r' mdr' hmdr' hc)
  refine ⟨⟨fun hd => ?_, h.ok.safe, fun hne => (hne hactive).elim,
    fun r' mdr' hmdr' => h.ok.fresh r' mdr' (hsub r' mdr' hmdr'),
    fun r' mdr' hmdr' => h.ok.disjoint r' mdr' (hsub r' mdr' hmdr'), h.ok.waiting, h.ok.delayed, h.ok.known⟩,
    fun i => ?_⟩
  · cases hactive.symm.trans hd
  · obtain ⟨l, hl, hfin⟩ : ∃ l, delivered slaves ins ((ascending mdr.slaves).map fun s => (s, .request .finish r)) i =
        ins i ++ l ∧ ∀ msg ∈ l, msg = .request .finish r := by
      refine ⟨_, rfl, fun msg hmem => ?_⟩
      split at hmem
      · cases hmem
      · simp only [List.mem_map, List.mem_filter] at hmem
        obtain ⟨q, ⟨⟨_, -, rfl⟩, -⟩, rfl⟩ := hmem
        rfl
    have hcount : ∀ r', l.count (.request .prep r') = 0 := fun r' =>
      List.count_eq_zero.mpr fun hmem => by cases hfin _ hmem
    refine (h.link i).shift ⟨rfl, fun _ => id, fun _ => .inl, fun _ _ => .inr⟩ (fun r' => ?_) Iff.rfl (fun _ => id)
      (fun hnil hd => ⟨?_, hnil.2⟩) (fun msg hmem => (List.mem_append.mp (hl ▸ hmem)).imp_right fun hmem => ?_)
          fun _ => .inl
    · rw [hl, List.count_append, hcount, add_zero]
      have hkept : m.Waits i r' → Master.Waits { m with activeRequests := m.activeRequests.erase r } i r' := by
        rintro ⟨mdr', hmdr', hc, hi⟩
        exact ⟨mdr', hkeep r' mdr' hmdr' hc, hc, hi⟩
      refine ((h.link i).linkAt r').shift id id id (Exists.imp fun mdr' => And.imp_left (hsub r' mdr'))
        ⟨Exists.imp fun mdr' => And.imp_left (hsub r' mdr'), hkept⟩
        (fun _ => .inr) (fun _ h _ => .inr (.inr h)) fun h _ => .inl h
    · rcases hd with hd | hd
      · cases hactive.symm.trans hd
      · simp [delivered, hd, hnil.1]
    · rw [hfin msg hmem]
      exact .finish hdur hactive

/-- An entry is in the journal. -/
theorem logged {out : List (Fin n × ToSlave)} (h : Linked m slaves ins outs) (hok : m.logged = .ok (m', out)) :
    Linked m' slaves (delivered slaves ins out) outs := by
  unfold Master.logged at hok
  cases hw : m.writing with
  | nil =>
    rw [hw] at hok
    cases hok
    rwa [delivered_nil]
  | cons e rest =>
    have hup : m.state ≠ .down := by
      intro hd
      rw [h.ok.down hd] at hw
      cases hw
    have hwrote := h.wrote hw
    rw [hw] at hok
    cases e with
    | update r W =>
      simp only [bind_ok, deref_ok, pure_ok, Prod.mk.injEq] at hok
      obtain ⟨⟨m₁, out₁⟩, h₁, mdr, hmdr, rfl, rfl⟩ := hok
      have hdur : Master.Durable { m with journal := m.journal ++ [.update r W], writing := rest } r := ⟨W, by simp⟩
      obtain ⟨hl, hq⟩ := hwrote.loggedMasterUpdate hup hdur h₁
      rw [delivered_append]
      refine hl.finish hmdr ?_
      rwa [Master.Durable, hq.journal]
    | committed r =>
      simp only [bind_ok, pure_ok, Prod.mk.injEq] at hok
      obtain ⟨m₁, h₁, rfl, rfl⟩ := hok
      rw [delivered_nil]
      exact hwrote.loggedMasterCommit (List.mem_append_left _ (by simp)) h₁

end Linked

/-! ## The end of the resolve stage -/

/-- A slave that has nothing more to tell is not waited for. -/
theorem Link.gathered {inbox : List ToSlave} {outbox : List ToMaster} (h : Link m src s inbox outbox)
    (hup : m.state ≠ .down) (hsup : s.state ≠ .down) (hmsg : OutOk m src s (.resolve [])) :
    Link { m with delayedResolve := m.delayedResolve.erase src, resolveGather := m.resolveGather.erase src } src s
      inbox outbox := by
  cases hmsg with
  | resolve ht hd =>
    obtain ⟨hno, hgather⟩ := hd rfl
    have hshift :
        Shift m { m with delayedResolve := m.delayedResolve.erase src, resolveGather := m.resolveGather.erase src }
          src s :=
      ⟨rfl, fun _ => id, fun _ => .inl, fun _ _ => .inr⟩
    refine ⟨fun r =>
        (h.linkAt r).shift id id id id Iff.rfl (fun _ => .inr) (fun hb hrec hnil => .inl ?_) fun h _ => .inl h,
      h.waiting, h.stage, h.lost, h.silent, fun hd => (hsup hd).elim, fun _ r hl => (hno r hl).elim,
      fun hm hs _ => hgather hm hs, fun hm hs => ⟨Finset.notMem_erase src _, (h.settled hm hs).2⟩,
      fun msg hmem => (h.inOk msg hmem).shift hshift, fun msg hget => (h.outOk msg ?_).shift hshift⟩
    · cases (h.linkAt r).kept (.inl hb) with
      | committed hf => exact hf
      | committing hf hrecords => cases hnil.symm.trans hrecords
      | prepared hp hreplay hrequest =>
        exfalso
        obtain ⟨u, -, -, hg, -⟩ := hrec
        cases hs : s.state with
        | down => exact hsup hs
        | resolve => exact hno r (.inl ⟨hs, hreplay hs⟩)
        | rejoin => exact h.stage hs
        | active =>
          obtain ⟨mdr, hreq, hc, -⟩ := hrequest hs
          cases hm : m.state with
          | down => exact hup hm
          | resolve => exact hno r (.inr ⟨by simp [view, hs], hm, mdr, hreq, hc⟩)
          | rejoin => exact (h.settled (.inl hm) hs).1 hg
          | active => exact (h.settled (.inr hm) hs).1 hg
    · refine hget.imp_right fun hget => hget.imp_right (Exists.imp fun l => And.imp_left fun hl => ?_)
      rw [getElem?_erase, if_pos rfl] at hl
      cases hl

/-- The master gets on. -/
theorem Link.advance {inbox : List ToSlave} {outbox : List ToMaster} {st : State} {w : List (Fin n × ToMaster)}
    (h : Link m i s inbox outbox) (hm : m.state = .resolve ∧ m.resolveGather = ∅ ∨ m.state = .rejoin)
    (hst : st = .rejoin ∨ st = .active) (hw : ∀ p ∈ w, p ∈ m.waitingForReplay) :
    Link { m with state := st, waitingForReplay := w } i s inbox outbox := by
  have hstate : m.state ≠ .down ∧ m.state ≠ .active := by
    rcases hm with ⟨hm, -⟩ | hm
    · simp [hm]
    · simp [hm]
  have hst' : st ≠ .down ∧ st ≠ .resolve := by
    rcases hst with rfl | rfl
    · simp
    · simp
  have hlisted : ∀ r, (s.view r).Listed st → (s.view r).Listed m.state := fun r hl =>
    .inl (hl.resolve_right fun hl => hst'.2 hl.2.1)
  refine ⟨fun r => (h.linkAt r).shift (fun _ => hstate.1) id id id Iff.rfl (fun _ => .inr)
      (fun _ hrec _ => .inr (.inr ?_))
      fun h _ => .inl h,
    h.waiting, h.stage, h.lost, fun hd => h.silent (hd.imp_left fun hd => (hst'.1 hd).elim),
    fun hd _ => h.gone hd hstate.1,
    fun _ r hl => h.listed hstate.1 r (hlisted r hl), fun hm => (hst'.2 hm).elim, fun _ hs => ?_, fun msg hmem => ?_,
    fun msg hget => ?_⟩
  · obtain ⟨u, hu, hc, hg, hrec⟩ := hrec
    refine ⟨u, hu, hc, hg, .inl (hrec.resolve_right fun hres => ?_)⟩
    rcases hm with ⟨-, hnil⟩ | hm
    · simp [hnil] at hg
    · cases hm.symm.trans hres
  · rcases hm with ⟨hm, hnil⟩ | hm
    · have hg : i ∉ m.resolveGather := by simp [hnil]
      exact ⟨hg, h.unasked hm hs hg⟩
    · exact h.settled (.inl hm) hs
  · cases h.inOk msg hmem with
    | prep r => exact .prep r
    | finish hdur hactive => exact (hstate.2 hactive).elim
    | resolveAck hc ha ht =>
      exact .resolveAck hc (fun r hr hb hp => (hstate.2 (ha r hr hb hp).2).elim) fun r hl => ht r (hlisted r hl)
  · cases h.outOk msg (hget.imp_right fun hget => hget.imp_left (hw _)) with
    | prepAck r => exact .prepAck r
    | committed hdur hf => exact .committed hdur hf
    | resolve ht hd =>
      exact .resolve (fun r hl => ht r (hlisted r hl)) fun hnil =>
        ⟨fun r hl => (hd hnil).1 r (hlisted r hl), fun hm => (hst'.2 hm).elim⟩

namespace Linked

theorem advance {st : State} {w : List (Fin n × ToMaster)} (h : Linked m slaves ins outs)
    (hm : m.state = .resolve ∧ m.resolveGather = ∅ ∨ m.state = .rejoin) (hst : st = .rejoin ∨ st = .active)
    (hw : ∀ p ∈ w, p ∈ m.waitingForReplay) : Linked { m with state := st, waitingForReplay := w } slaves ins outs where
  ok :=
    { h.ok with
      down := fun hd => by
        rcases hst with rfl | rfl
        · cases hd
        · cases hd
      requests := fun _ => h.ok.requests (by rcases hm with ⟨hm, -⟩ | hm <;> simp [hm])
      waiting := fun p hp => h.ok.waiting p (hw p hp) }
  link i := (h.link i).advance hm hst hw

/-- `finish_committed_masters`: what nobody is waited for has been committed by all. -/
theorem finishCommittedMasters (h : Linked m slaves ins outs) (hup : m.state ≠ .down) (hgather : m.resolveGather = ∅) :
    Linked m.finishCommittedMasters slaves ins outs := by
  set last : UMaster n → Bool := fun u => !u.committing && decide (u.slaves = ∅) with hlast
  set closed : List (LogEvent n) := (m.uncommittedMasters.toList.filter fun p => last p.2).map fun p => .committed p.1
  have hmem : ∀ e : LogEvent n, e ∈ m.journal ++ (m.writing ++ closed) ↔ e ∈ m.journal ++ m.writing ∨
      ∃ r u, m.uncommittedMasters[r]? = some u ∧ u.committing = false ∧ u.slaves = ∅ ∧ e = .committed r := by
    intro e
    rw [← List.append_assoc, List.mem_append]
    refine or_congr_right ?_
    simp only [closed, hlast, List.mem_map, List.mem_filter, Prod.exists,
      Std.ExtTreeMap.mem_toList_iff_getElem?_eq_some,
      Bool.and_eq_true, Bool.not_eq_true', decide_eq_true_eq]
    constructor
    · rintro ⟨r, u, ⟨hu, hc, hs⟩, rfl⟩
      exact ⟨r, u, hu, hc, hs, rfl⟩
    · rintro ⟨r, u, hu, hc, hs, rfl⟩
      exact ⟨r, u, ⟨hu, hc, hs⟩, rfl⟩
  have hmasters : ∀ r, m.finishCommittedMasters.uncommittedMasters[r]? =
      m.uncommittedMasters[r]?.map fun u : UMaster n =>
        ({ u with recovering := false, committing := u.committing || last u } : UMaster n) := fun r =>
    Std.ExtTreeMap.getElem?_map
  have hbound : ∀ i r, m.finishCommittedMasters.Bound i r → m.Bound i r := by
    rintro i r ⟨W, he, hi⟩
    refine ⟨W, ((hmem _).mp he).resolve_right ?_, hi⟩
    rintro ⟨_, _, -, -, -, heq⟩
    cases heq
  have hcredits : ∀ i r, m.Credits i r → m.finishCommittedMasters.Credits i r := by
    rintro i r ⟨u, hu, hc, hi⟩
    have hne : u.slaves ≠ ∅ := Finset.ne_empty_of_mem hi
    refine ⟨{ u with recovering := false, committing := u.committing || last u }, ?_, by simp [hlast, hc, hne], hi⟩
    rw [hmasters, hu, Option.map_some]
  have hshift : ∀ i, Shift m m.finishCommittedMasters i (slaves i) := fun i =>
    ⟨rfl, fun _ => id, fun r hb => .inl (hbound i r hb), fun r _ hc => .inr (hcredits i r hc)⟩
  refine ⟨⟨fun hd => (hup hd).elim, fun r u' hu' hs => ?_, h.ok.requests, fun r mdr hmdr hc e he => ?_, h.ok.disjoint,
    h.ok.waiting, h.ok.delayed, fun r u' hu' => ?_⟩, fun i => ?_⟩
  · rw [hmasters] at hu'
    obtain ⟨u, hu, rfl⟩ := Option.map_eq_some_iff.mp hu'
    exact h.ok.safe r u hu hs
  · rcases (hmem e).mp he with he | ⟨r', u, hu, -, -, rfl⟩
    · exact h.ok.fresh r mdr hmdr hc e he
    · rintro rfl
      obtain ⟨e, he, hr⟩ := h.ok.known _ u hu
      exact h.ok.fresh _ mdr hmdr hc e he hr
  · rw [hmasters] at hu'
    obtain ⟨u, hu, rfl⟩ := Option.map_eq_some_iff.mp hu'
    obtain ⟨e, he, hr⟩ := h.ok.known r u hu
    exact ⟨e, (hmem e).mpr (.inl he), hr⟩
  · refine (h.link i).shift (hshift i) (fun r => ((h.link i).linkAt r).shift id id (hbound i r) id Iff.rfl
      (fun _ hc => .inr (hcredits i r hc)) (fun _ hrec _ => ?_) fun hc hb => ?_) Iff.rfl (fun _ => id) (fun h _ => h)
      (fun _ => .inl) fun _ => .inl
    · obtain ⟨u, -, -, hg, -⟩ := hrec
      simp [hgather] at hg
    · rcases (hmem _).mp hc with hc | ⟨r', u, hu, hcom, hnil, heq⟩
      · exact .inl hc
      · cases heq
        rcases ((h.link i).linkAt r).accounted hup hb with hf | ⟨v, hv, -, hi⟩ | ⟨⟨v, hv, -, hg, -⟩, -⟩
        · exact .inr hf
        · cases hu.symm.trans hv
          simp [hnil] at hi
        · simp [hgather] at hg

/-- `maybe_resolve_finish`. -/
theorem maybeResolveFinish (h : Linked m slaves ins outs) (hup : m.state ≠ .down) :
    Linked m.maybeResolveFinish slaves ins outs := by
  unfold Master.maybeResolveFinish
  split
  case isTrue => exact h
  case isFalse hg =>
    have hg : m.resolveGather = ∅ := not_not.mp hg
    have hfin := h.finishCommittedMasters hup hg
    dsimp only
    split
    case isTrue hs => exact hfin.advance (.inl ⟨hs, hg⟩) (.inl rfl) fun _ => id
    case isFalse => exact hfin

/-! ## Messages of the slaves -/

theorem not_down_of_mem {msg : ToMaster} (h : Linked m slaves ins outs) (hmem : msg ∈ outs src) :
    m.state ≠ .down ∧ (slaves src).state ≠ .down := by
  constructor
  · intro hd
    simp [((h.link src).silent (.inl hd)).2] at hmem
  · intro hd
    simp [((h.link src).silent (.inr hd)).2] at hmem

/-- A message was taken. -/
theorem drop {msg : ToMaster} {rest : List ToMaster} (h : Linked m slaves ins outs) (hsrc : outs src = msg :: rest)
    (hmsg : ∀ r, msg ≠ .prepAck r) : Linked m slaves ins (Function.update outs src rest) := by
  refine ⟨h.ok, fun i => ?_⟩
  by_cases hi : i = src
  · subst hi
    rw [Function.update_self]
    have hlink := h.link i
    rw [hsrc] at hlink
    refine hlink.of_moves (.refl m i _) (fun r => ?_) rfl (fun _ => rfl) (fun hnil => by cases hnil.2)
      (fun hup r hl => (hlink.listed hup r hl).2) (fun _ => id) fun _ hmem => .inl (List.mem_cons_of_mem _ hmem)
    have hat := hlink.linkAt r
    rwa [List.count_cons_of_ne (hmsg r)] at hat
  · rw [Function.update_of_ne hi]
    exact h.link i

/-- A message that waits until the master is active. -/
theorem wait (h : Linked m slaves ins outs) (hup : m.state ≠ .down) (hok : OutOk m src (slaves src) (.committed r)) :
    Linked { m with waitingForReplay := m.waitingForReplay ++ [(src, .committed r)] } slaves ins outs := by
  have hq : Quiet m { m with waitingForReplay := m.waitingForReplay ++ [(src, .committed r)] } :=
      ⟨rfl, rfl, rfl, rfl, rfl⟩
  refine ⟨hq.ok h.ok hup (fun _ u hu => ⟨u, hu, .inl⟩) (fun p hp => ?_) h.ok.delayed, fun i => ?_⟩
  · rcases List.mem_append.mp hp with hp | hp
    · exact h.ok.waiting p hp
    · exact ⟨r, by rw [List.mem_singleton.mp hp]⟩
  · refine (h.link i).carry hq (.of_eq rfl) (fun _ => id) (.inl rfl) (fun _ => rfl) id fun msg hget => ?_
    rcases hget with hget | hget | hget
    · exact .inl (.inl hget)
    · rcases List.mem_append.mp hget with hget | hget
      · exact .inl (.inr (.inl hget))
      · cases List.mem_singleton.mp hget
        exact .inr hok
    · exact .inl (.inr (.inr hget))

/-- A message of a slave. -/
theorem handle {msg : ToMaster} {rest : List ToMaster} {out : List (Fin n × ToSlave)} (h : Linked m slaves ins outs)
    (hsrc : outs src = msg :: rest) (hok : m.handle src msg = .ok (m', out)) :
    Linked m' slaves (delivered slaves ins out) (Function.update outs src rest) := by
  have hmem : msg ∈ outs src := by simp [hsrc]
  obtain ⟨hup, hsup⟩ := h.not_down_of_mem hmem
  have hmsg := (h.link src).outOk msg (.inl hmem)
  cases msg with
  | prepAck r =>
    have hwaits : m.Waits src r := ((h.link src).linkAt r).waits hup (by simp [hsrc])
    have hactive := ((h.link src).active_of_waits h.ok hwaits).1
    simp only [Master.handle, hactive, ne_eq, not_true_eq_false, if_false, bind_ok, pure_ok, Prod.mk.injEq] at hok
    obtain ⟨m₁, h₁, rfl, rfl⟩ := hok
    rw [delivered_nil]
    exact h.handlePrepAck hsrc h₁
  | committed r =>
    have hdrop := h.drop hsrc (by simp)
    by_cases hactive : m.state = .active
    · simp only [Master.handle, hactive, ne_eq, not_true_eq_false, if_false, bind_ok, pure_ok, Prod.mk.injEq] at hok
      obtain ⟨m₁, h₁, rfl, rfl⟩ := hok
      rw [delivered_nil]
      cases hmsg with
      | committed hdur hf => exact (hdrop.committedMasterSlave hactive hf h₁).1
    · simp only [Master.handle, hactive, ne_eq, not_false_eq_true, if_true, pure_ok, Prod.mk.injEq] at hok
      obtain ⟨rfl, rfl⟩ := hok
      rw [delivered_nil]
      exact hdrop.wait hup hmsg
  | resolve l =>
    have hdrop := h.drop hsrc (by simp)
    simp only [Master.handle, pure_ok] at hok
    obtain ⟨rfl, rfl⟩ := Prod.ext_iff.mp hok
    by_cases hl : l = []
    · subst hl
      have hgather : Linked
          { m with delayedResolve := m.delayedResolve.erase src, resolveGather := m.resolveGather.erase src } slaves ins
          (Function.update outs src rest) := by
        refine ⟨{ h.ok with
            down := fun hd => (hup hd).elim
            delayed := fun i l hl => h.ok.delayed i l (getElem?_of_erase hl) }, fun i => ?_⟩
        by_cases hi : i = src
        case pos => exact hi ▸ (hdrop.link src).gathered hup hsup hmsg
        case neg =>
          have hrecovers : ∀ r, m.Recovers i r → Master.Recovers { m with
              delayedResolve := m.delayedResolve.erase src
              resolveGather := m.resolveGather.erase src } i r := by
            rintro r ⟨u, hu, hc, hg, hrec⟩
            exact ⟨u, hu, hc, Finset.mem_erase.mpr ⟨hi, hg⟩, hrec⟩
          refine (hdrop.link i).shift ⟨rfl, fun _ => id, fun _ => .inl, fun _ _ => .inr⟩
            (fun r => ((hdrop.link i).linkAt r).shift id id id id Iff.rfl (fun _ => .inr)
              (fun _ hrec _ => .inr (.inr (hrecovers r hrec))) fun h _ => .inl h)
            (by simp [hi]) (fun _ hnone => by rw [getElem?_erase, if_neg hi, hnone]) (fun h _ => h) (fun _ => .inl)
            fun msg hget => .inl (hget.imp_right fun hget =>
              hget.imp_right (Exists.imp fun l => And.imp_left getElem?_of_erase))
      have hfin := hgather.maybeResolveFinish hup
      rw [show (m.handleResolve src []).2 = [] from rfl, delivered_nil]
      exact hfin
    · exact (hdrop.handleResolve hl hup hsup hmsg).1

/-- Messages that have waited. -/
theorem handles {qs : List (Fin n × ToMaster)} {out out' : List (Fin n × ToSlave)}
    (h : Linked m slaves (delivered slaves ins out) outs) (hactive : m.state = .active)
    (hqs : ∀ q ∈ qs, ∃ r, q.2 = .committed r ∧ OutOk m q.1 (slaves q.1) (.committed r))
    (hok : qs.foldlM
      (fun (p : Master n × List (Fin n × ToSlave)) q => do
        let n ← p.1.handle q.1 q.2
        pure (n.1, p.2 ++ n.2))
      (m, out) = .ok (m', out')) : Linked m' slaves (delivered slaves ins out') outs := by
  induction qs generalizing m out with
  | nil =>
    cases hok
    exact h
  | cons q qs ih =>
    rw [List.foldlM_cons, bind_ok] at hok
    obtain ⟨p, h₁, hok⟩ := hok
    obtain ⟨r, hr, hmsg⟩ := hqs q List.mem_cons_self
    simp only [hr, Master.handle, hactive, ne_eq, not_true_eq_false, if_false, bind_ok, pure_ok] at h₁
    obtain ⟨_, ⟨m₁, h₁, rfl⟩, rfl⟩ := h₁
    rw [List.append_nil] at hok
    cases hmsg with
    | committed hdur hf =>
      obtain ⟨hl, hs, hshift⟩ := h.committedMasterSlave hactive hf h₁
      refine ih hl hs (fun q' hmem => ?_) hok
      obtain ⟨r', hr', hmsg⟩ := hqs q' (List.mem_cons_of_mem _ hmem)
      exact ⟨r', hr', hmsg.shift (hshift q'.1)⟩

/-- The master gets active. -/
theorem activate {out : List (Fin n × ToSlave)} (h : Linked m slaves ins outs) (hm : m.state = .rejoin)
    (hok : m.activate = .ok (m', out)) : Linked m' slaves (delivered slaves ins out) outs := by
  have hset := h.advance (w := []) (.inr hm) (.inr rfl) (by simp)
  rw [← delivered_nil slaves ins] at hset
  refine hset.handles rfl (fun q hq => ?_) hok
  obtain ⟨r, hr⟩ := h.ok.waiting q hq
  have hmsg := (h.link q.1).outOk q.2 (.inr (.inl hq))
  rw [hr] at hmsg
  cases hmsg with
  | committed hdur hf => exact ⟨r, hr, .committed hdur hf⟩

end Linked

end CephMds.TwoPhase
