import CephMds.Model.Sessions

/-!
# What the operations on sessions return

For each operation, when it returns and with what state: the facts that the
invariants below are proved from, so that no other proof unfolds the model.
-/

namespace CephMds.Sessions

open Checked

theorem insertAll_ok {a b c : Finset ℕ} : insertAll a b = .ok c ↔ Disjoint a b ∧ a ∪ b = c := by
  simp only [insertAll, bind_ok, assert_ok, pure_ok, decide_eq_true_eq, exists_and_left, exists_const]

theorem subtract_ok {a b c : Finset ℕ} : subtract a b = .ok c ↔ b ⊆ a ∧ a \ b = c := by
  simp only [subtract, bind_ok, assert_ok, pure_ok, decide_eq_true_eq, exists_and_left, exists_const]

namespace Free

variable {f g : Free} {ids : Finset ℕ}

theorem alloc_ok : f.alloc ids = .ok g ↔ ids ⊆ f.ids ∧ ⟨f.ids \ ids, f.version + 1⟩ = g := by
  simp only [alloc, bind_ok, subtract_ok, pure_ok]
  constructor
  · rintro ⟨_, ⟨h, rfl⟩, rfl⟩
    exact ⟨h, rfl⟩
  · rintro ⟨h, rfl⟩
    exact ⟨_, ⟨h, rfl⟩, rfl⟩

theorem release_ok : f.release ids = .ok g ↔ Disjoint f.ids ids ∧ ⟨f.ids ∪ ids, f.version + 1⟩ = g := by
  simp only [release, bind_ok, insertAll_ok, pure_ok]
  constructor
  · rintro ⟨_, ⟨h, rfl⟩, rfl⟩
    exact ⟨h, rfl⟩
  · rintro ⟨h, rfl⟩
    exact ⟨_, ⟨h, rfl⟩, rfl⟩

end Free

namespace InoTable

variable {t u : InoTable} {ids : Finset ℕ}

theorem projectAllocIds_ok : t.projectAllocIds ids = .ok u ↔
    ∃ f, t.projected.alloc ids = .ok f ∧ { t with projected := f } = u := by
  simp only [projectAllocIds, bind_ok, pure_ok]

theorem projectReleaseIds_ok : t.projectReleaseIds ids = .ok u ↔
    ∃ f, t.projected.release ids = .ok f ∧ { t with projected := f } = u := by
  simp only [projectReleaseIds, bind_ok, pure_ok]

theorem applyAllocIds_ok : t.applyAllocIds ids = .ok u ↔
    ∃ f, t.applied.alloc ids = .ok f ∧ { t with applied := f } = u := by
  simp only [applyAllocIds, bind_ok, pure_ok]

theorem applyReleaseIds_ok : t.applyReleaseIds ids = .ok u ↔
    ∃ f, t.applied.release ids = .ok f ∧ { t with applied := f } = u := by
  simp only [applyReleaseIds, bind_ok, pure_ok]

end InoTable

namespace Session

variable {s t : Session} {ino : ℕ}

theorem takeIno_ok : s.takeIno ino = .ok t ↔ ino ∈ s.prealloc ∧ Disjoint s.used {ino} ∧
    { s with prealloc := s.prealloc \ {ino}, used := s.used ∪ {ino} } = t := by
  simp only [takeIno, bind_ok, insertAll_ok, subtract_ok, pure_ok, Finset.singleton_subset_iff]
  constructor
  · rintro ⟨_, ⟨hp, rfl⟩, _, ⟨hu, rfl⟩, rfl⟩
    exact ⟨hp, hu, rfl⟩
  · rintro ⟨hp, hu, rfl⟩
    exact ⟨_, ⟨hp, rfl⟩, _, ⟨hu, rfl⟩, rfl⟩

theorem decImporting_ok : s.decImporting = .ok t ↔ s.importing ≠ 0 ∧ { s with importing := s.importing - 1 } = t := by
  simp only [decImporting, bind_ok, assert_ok, pure_ok, decide_eq_true_eq, exists_and_left, exists_const]

theorem finishOpen_ok {o : Option ℕ} : s.finishOpen o = .ok t ↔
    (∃ q, o = some q ∧ (if s.stateSeq ≠ q then s else s.setState .opened) = t) ∨
    (o = none ∧ (s.state = .opened ∨ s.state = .stale) ∧ s = t) := by
  cases o with
  | none => simp [finishOpen, -bind_pure_comp]
  | some q => simp [finishOpen]

theorem finishImport_ok {b : Bool} : s.finishImport b = .ok t ↔
    (b = true → s.importing ≠ 0) ∧ { s with importing := if b then s.importing - 1 else s.importing } = t := by
  cases b <;> simp [finishImport, decImporting_ok, -bind_pure_comp]

end Session

namespace State

variable {conf : ℕ} {x y : State} {i : ℕ}

theorem journalCloseSession_ok {st : SessionState} : x.journalCloseSession i st = .ok y ↔
    Disjoint (x.sessions i).prealloc (x.sessions i).pending ∧ ∃ table piv,
      x.projectRelease ((x.sessions i).prealloc ∪ (x.sessions i).pending) = .ok (table, piv) ∧
      { x.put i { (x.sessions i).setState st with prealloc := ∅, pending := ∅ } with
          projected := x.projected + 1, table }.submit
        (.session i ((x.sessions i).stateSeq + 1) false (x.projected + 1)
          ((x.sessions i).prealloc ∪ (x.sessions i).pending) piv) = y := by
  simp only [journalCloseSession, bind_ok, insertAll_ok, pure_ok, Session.setState]
  constructor
  · rintro ⟨_, ⟨hd, rfl⟩, ⟨table, piv⟩, hr, rfl⟩
    exact ⟨hd, table, piv, hr, rfl⟩
  · rintro ⟨hd, table, piv, hr, rfl⟩
    exact ⟨_, ⟨hd, rfl⟩, (table, piv), hr, rfl⟩

/-- The assertion of `kill_session` cannot fail: it is the negation of its guard. -/
theorem killSession_eq : x.killSession i =
    if (x.sessions i).shut = false ∧ (x.sessions i).importing = 0 then x.journalCloseSession i .killing else .ok x := by
  unfold killSession
  by_cases hi : (x.sessions i).importing = 0
  · cases hs : (x.sessions i).state <;> simp [hs, hi, Session.shut] <;> rfl
  · simp only [hi, and_false, if_false]
    have ha : assert (decide ((x.sessions i).state = .closing ∨ (x.sessions i).state = .closed ∨
        (x.sessions i).state = .killing ∨ (x.sessions i).importing ≠ 0)) = .ok () := by
      simp [hi]
    simp only [ne_eq] at ha
    rw [ha]
    rfl

theorem requestClose_eq {seq : ℕ} : x.requestClose i seq =
    if (x.sessions i).shut = true ∨ (x.sessions i).importing ≠ 0 ∨ seq < (x.sessions i).pushSeq then .ok x
    else if seq = (x.sessions i).pushSeq then x.journalCloseSession i .closing else .error .assert := by
  have hassert : (x.sessions i).shut = false → decide ((x.sessions i).state = .opened ∨ (x.sessions i).state = .stale ∨
      (x.sessions i).state = .opening) = true := by
    cases hs : (x.sessions i).state <;> simp [Session.shut, hs]
  simp only [requestClose]
  by_cases hs : (x.sessions i).shut = true
  · simp [hs]
  by_cases hi : (x.sessions i).importing = 0
  · rw [if_neg hs, if_neg (by simp [hi]), hassert (by simpa using hs), assert_true_bind]
    by_cases hlt : seq < (x.sessions i).pushSeq
    · simp [hlt]
    · rw [if_neg hlt, if_neg (by simp [hs, hi, hlt])]
      by_cases heq : seq = (x.sessions i).pushSeq
      · rw [if_pos heq, decide_eq_true heq, assert_true_bind]
      · rw [if_neg heq, decide_eq_false heq]
        rfl
  · simp [hs, hi]

theorem addClosed_ok : x.addClosed i = .ok y ↔
    ((x.sessions i).state = .closed ∧ x.sessionmap (x.sessions i).client = none ∧
      x.setMap (x.sessions i).client (some i) = y) ∨ ((x.sessions i).state ≠ .closed ∧ x = y) := by
  simp [addClosed, addSession, ite_ok, -bind_pure_comp, Option.isNone_iff_eq_none]

theorem requestOpen_ok : x.requestOpen i = .ok y ↔
    ((x.sessions i).state ≠ .closed ∧ (x.sessions i).state ≠ .closing ∧ x = y) ∨
    (((x.sessions i).state = .closed ∨ (x.sessions i).state = .closing) ∧ ∃ z, x.addClosed i = .ok z ∧
      { z.put i ((x.sessions i).setState .opening) with projected := z.projected + 1 }.submit
        (.session i ((x.sessions i).stateSeq + 1) true (z.projected + 1) ∅ 0) = y) := by
  unfold requestOpen
  cases hs : (x.sessions i).state <;> simp [hs, -bind_pure_comp]

/-- What `prepare_force_open_sessions` does for a client: its session, if it has one, is opened where it is shut. -/
theorem forceOpenSession_ok {m m' : ℕ → Option ℕ} {c : ℕ} (h : forceOpenSession (x, m) c = .ok (y, m')) :
    (∃ i, x.sessionmap c = some i ∧ (x.sessions i).shut = true ∧
      x.put i { (x.sessions i).setState .opening with importing := (x.sessions i).importing + 1 } = y ∧
      Function.update m c (some ((x.sessions i).stateSeq + 1)) = m') ∨
    (∃ i, x.sessionmap c = some i ∧ (x.sessions i).shut = false ∧
      x.put i { x.sessions i with importing := (x.sessions i).importing + 1 } = y ∧ m = m') ∨
    (x.sessionmap c = none ∧
      ((x.newSession c false).setMap c (some x.made)).put x.made
        { Session.setState { client := c, connected := false } .opening with importing := 1 } = y ∧
      Function.update m c (some 1) = m') := by
  unfold forceOpenSession getOrAddSession at h
  cases hM : x.sessionmap c with
  | some i =>
    simp only [hM, bind_ok, deref_ok, Option.some.injEq, ite_ok, pure_ok, Prod.mk.injEq] at h
    obtain ⟨_, rfl, ⟨hs, rfl, rfl⟩ | ⟨hs, _, _, rfl, rfl⟩⟩ := h
    · exact .inl ⟨_, rfl, hs, rfl, rfl⟩
    · exact .inr (.inl ⟨_, rfl, by simpa using hs, rfl, rfl⟩)
  | none =>
    simp [hM, newSession, setMap, put, Session.shut, Session.setState, -bind_pure_comp] at h
    obtain ⟨rfl, rfl⟩ := h
    exact .inr (.inr ⟨rfl, by simp [newSession, setMap, put, Session.setState], rfl⟩)

theorem finishForceOpen_ok {m : ℕ → Option ℕ} {b : Bool} {c : ℕ} : finishForceOpen m b x c = .ok y ↔
    ∃ i, x.sessionmap c = some i ∧ ∃ s, (x.sessions i).finishOpen (m c) = .ok s ∧ ∃ t, s.finishImport b = .ok t ∧
      x.put i t = y := by
  unfold finishForceOpen getSession
  cases hM : x.sessionmap c <;> simp [bind_ok, -bind_pure_comp]

theorem endImport_ok {c : ℕ} : x.endImport c = .ok y ↔
    ∃ i, x.sessionmap c = some i ∧ (x.sessions i).importing ≠ 0 ∧
      x.put i { x.sessions i with importing := (x.sessions i).importing - 1 } = y := by
  unfold endImport getSession
  cases hM : x.sessionmap c <;> simp [bind_ok, Session.decImporting_ok, -bind_pure_comp]

theorem assignIno_ok {ino : ℕ} {alloc used : Option ℕ} : x.assignIno i ino = .ok (y, alloc, used) ↔
    ((x.sessions i).prealloc.card ≠ 0 ∧ ∃ s, (x.sessions i).takeIno ino = .ok s ∧
      { x.put i s with projected := x.projected + 1 } = y ∧ alloc = none ∧ used = some ino) ∨
    ((x.sessions i).prealloc.card = 0 ∧ ∃ table, x.table.projectAllocIds {ino} = .ok table ∧
      { x with table, given := insert ino x.given } = y ∧ alloc = some ino ∧ used = none) := by
  unfold assignIno
  by_cases h : (x.sessions i).prealloc.card = 0
  · simp only [h, ne_eq, not_true_eq_false, if_false, false_and, false_or, true_and, bind_ok, pure_ok, Prod.mk.injEq]
    simp only [eq_comm]
  · simp only [h, ne_eq, not_false_eq_true, if_true, false_and, or_false, true_and, bind_ok, pure_ok, Prod.mk.injEq]
    simp only [eq_comm]

theorem preallocate_ok {ids got : Finset ℕ} : x.preallocate conf i ids = .ok (y, got) ↔
    (x.wanted conf i ≠ 0 ∧ ∃ table, x.table.projectAllocIds ids = .ok table ∧ ids.card ≠ 0 ∧
      Disjoint (x.sessions i).pending ids ∧
      { x.put i { x.sessions i with pending := (x.sessions i).pending ∪ ids } with
        projected := x.projected + 1, table } = y ∧ ids = got) ∨
    (x.wanted conf i = 0 ∧ x = y ∧ got = ∅) := by
  unfold preallocate
  by_cases h : x.wanted conf i = 0
  · simp only [h, ne_eq, not_true_eq_false, if_false, false_and, false_or, true_and, pure_ok, Prod.mk.injEq]
    simp only [eq_comm]
  · simp only [h, ne_eq, not_false_eq_true, if_true, false_and, or_false, true_and, bind_ok, assert_ok, insertAll_ok,
      pure_ok, Prod.mk.injEq, decide_eq_true_eq]
    constructor
    · rintro ⟨table, ht, _, hc, _, ⟨hd, rfl⟩, rfl, rfl⟩
      exact ⟨table, ht, hc, hd, rfl, rfl⟩
    · rintro ⟨table, ht, hc, hd, rfl, rfl⟩
      exact ⟨table, ht, (), hc, _, ⟨hd, rfl⟩, rfl, rfl⟩

theorem prepareNewInode_ok {ino : ℕ} {ids : Finset ℕ} : x.prepareNewInode conf i ino ids = .ok y ↔
    ∃ z alloc used, x.assignIno i ino = .ok (z, alloc, used) ∧ ∃ w got, z.preallocate conf i ids = .ok (w, got) ∧
      w.submit (.update i alloc used got w.projected w.table.projected.version) = y := by
  unfold prepareNewInode
  simp only [bind_ok, pure_ok, Prod.exists]

theorem applyAllocIno_ok {o : Option ℕ} : x.applyAllocIno o = .ok y ↔
    (∃ ino table, o = some ino ∧ x.table.applyAllocIds {ino} = .ok table ∧ { x with table } = y) ∨ (o = none ∧ x = y) := by
  cases o <;> simp only [applyAllocIno, bind_ok, pure_ok] <;> simp

theorem applyPrealloc_ok {ids : Finset ℕ} : x.applyPrealloc i ids = .ok y ↔
    (ids.card ≠ 0 ∧ ids ⊆ (x.sessions i).pending ∧ Disjoint (x.sessions i).prealloc ids ∧
      ∃ table, x.table.applyAllocIds ids = .ok table ∧
      { x.put i { x.sessions i with
          pending := (x.sessions i).pending \ ids, prealloc := (x.sessions i).prealloc ∪ ids } with
        version := x.version + 1, table } = y) ∨ (ids.card = 0 ∧ x = y) := by
  unfold applyPrealloc
  by_cases h : ids.card = 0
  · simp only [h, ne_eq, not_true_eq_false, if_false, false_and, false_or, true_and, pure_ok]
  · simp only [h, ne_eq, not_false_eq_true, if_true, false_and, or_false, true_and, bind_ok, insertAll_ok, subtract_ok,
      pure_ok]
    constructor
    · rintro ⟨_, ⟨hs, rfl⟩, _, ⟨hd, rfl⟩, table, ht, rfl⟩
      exact ⟨hs, hd, table, ht, rfl⟩
    · rintro ⟨hs, hd, table, ht, rfl⟩
      exact ⟨_, ⟨hs, rfl⟩, _, ⟨hd, rfl⟩, table, ht, rfl⟩

theorem applyUsed_ok {o : Option ℕ} : x.applyUsed i o = .ok y ↔
    (∃ ino, o = some ino ∧ ino ∈ (x.sessions i).used ∧
      { x.put i { x.sessions i with used := (x.sessions i).used \ {ino} } with
        version := x.version + 1, given := insert ino x.given } = y) ∨ (o = none ∧ x = y) := by
  cases o with
  | none => simp [applyUsed]
  | some ino =>
    simp only [applyUsed, bind_ok, subtract_ok, pure_ok, Finset.singleton_subset_iff, Option.some.injEq, exists_eq_left',
      reduceCtorEq, false_and, or_false]
    constructor
    · rintro ⟨_, ⟨hm, rfl⟩, rfl⟩
      exact ⟨hm, rfl⟩
    · rintro ⟨hm, rfl⟩
      exact ⟨_, ⟨hm, rfl⟩, rfl⟩

theorem releaseInos_ok {inos : Finset ℕ} {piv : ℕ} : x.releaseInos inos piv = .ok y ↔
    (piv ≠ 0 ∧ ∃ table, x.table.applyReleaseIds inos = .ok table ∧ table.applied.version = piv ∧ { x with table } = y) ∨
    (piv = 0 ∧ x = y) := by
  unfold releaseInos
  by_cases h : piv = 0
  · simp only [h, ne_eq, not_true_eq_false, if_false, false_and, false_or, true_and, pure_ok]
  · simp only [h, ne_eq, not_false_eq_true, if_true, false_and, or_false, true_and, bind_ok, assert_ok, pure_ok,
      decide_eq_true_eq, exists_and_left, exists_const]

/-- What `_session_logged` does to the state of the session. -/
theorem enterState_ok {q : ℕ} {o : Bool} (h : x.enterState i q o = .ok y) :
    ((x.sessions i).stateSeq ≠ q ∧ x = y) ∨ ((x.sessions i).stateSeq = q ∧
    ((o = true ∧ (x.sessions i).state = .opening ∧ x.put i ((x.sessions i).setState .opened) = y) ∨
    (o = false ∧ (x.sessions i).state = .closing ∧
      (x.put i ((x.sessions i).setState .closed).clear).setMap (x.sessions i).client none = y) ∨
    (o = false ∧ (x.sessions i).state = .killing ∧ x.setMap (x.sessions i).client none = y))) := by
  unfold enterState at h
  by_cases hq : (x.sessions i).stateSeq = q
  · cases o with
    | true => 
      simp only [hq, ne_eq, not_true_eq_false, if_false, if_true, bind_ok, assert_ok, pure_ok, decide_eq_true_eq] at h
      obtain ⟨_, hs, _, _, rfl⟩ := h
      exact .inr ⟨hq, .inl ⟨rfl, hs, rfl⟩⟩
    | false =>
      simp only [hq, ne_eq, not_true_eq_false, if_false, Bool.false_eq_true, ite_ok, pure_ok] at h
      rcases h with ⟨hs, rfl⟩ | ⟨_, ⟨hs, rfl⟩ | ⟨_, h⟩⟩
      · exact .inr ⟨hq, .inr (.inl ⟨rfl, hs, rfl⟩)⟩
      · exact .inr ⟨hq, .inr (.inr ⟨rfl, hs, rfl⟩)⟩
      · cases h
  · simp only [ne_eq, hq, not_false_eq_true, if_true, pure_ok] at h
    exact .inl ⟨hq, h⟩

end State

end CephMds.Sessions
