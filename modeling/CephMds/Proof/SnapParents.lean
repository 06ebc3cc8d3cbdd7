import CephMds.Model.SnapParents

/-!
# Missing past parents

Every key of `missing_snap_parents` is the inode of a realm, with one pin for
it (`Tidy`). The functions keep this as long as no cap is imported while the
past parents of its realm are missing (`Sends`); `open_snap_parents` removes
the realms that it opens (`openSnapParents_ok`). A cap that is imported too
early is never sent (`delayed_subset`).
-/

namespace CephMds.SnapParents

open Checked Mds

variable {ι : Type} [LinearOrder ι] {cache : Cache ι} {s s' : Mds ι} {opened : ι → Bool} {a : Action ι}
  {as : List (Action ι)}

/-- What is held for the realms that are missing, and nothing for a cap. -/
structure Tidy (cache : Cache ι) (s : Mds ι) : Prop where
  pins : ∀ i, s.pins i = if i ∈ s.missingSnapParents then 1 else 0
  realm : ∀ i ∈ s.missingSnapParents, cache.realm i = i
  delayed : s.delayedImportedCaps = ∅
  authPins : ∀ i, s.authPins i = 0
  suppress : ∀ c i, s.suppress c i = 0

theorem tidy_initial (session : ℕ → Bool) (o : Finset ι) (caps : ι → Std.ExtTreeMap ℕ ι) :
    Tidy cache (initial session o caps) :=
  ⟨fun _ => rfl, fun _ h => absurd h (Finset.notMem_empty _), rfl, fun _ => rfl, fun _ _ => rfl⟩

/-! ## The walk over the inodes -/

theorem Tidy.checkRealmPastParents (h : Tidy cache s) {r : ι} (hr : cache.realm r = r) :
    Tidy cache (s.checkRealmPastParents r) := by
  rw [Mds.checkRealmPastParents]
  split
  · exact h
  · split
    · exact h
    · next hno hnew =>
      refine ⟨fun i => ?_, fun i hi => ?_, h.delayed, h.authPins, h.suppress⟩
      · show bump s.pins r i = if i ∈ insert r s.missingSnapParents then 1 else 0
        have hi := h.pins i
        rw [bump]
        by_cases hir : i = r
        · subst hir
          rw [if_neg hnew] at hi
          simp [hi]
        · rw [Function.update_of_ne hir, hi]
          simp [hir]
      · rcases Finset.mem_insert.mp hi with rfl | hi
        · exact hr
        · exact h.realm i hi

theorem checkRealmPastParents_mem (s : Mds ι) (r : ι) :
    r ∈ (s.checkRealmPastParents r).pastParentsOpen ∨ r ∈ (s.checkRealmPastParents r).missingSnapParents := by
  rw [Mds.checkRealmPastParents]
  split
  · next h => exact .inl h
  · split
    · next h => exact .inr h
    · exact .inr (Finset.mem_insert_self r _)

/-- A cap changes only the splits of the realms that are missing. -/
theorem visitCap_fst {r : ι} {t : Mds ι × Splits ι} (i : ι) (cap : ℕ × ι)
    (h : r ∈ t.1.pastParentsOpen ∨ r ∈ t.1.missingSnapParents) :
    ∃ f, (visitCap r i t cap).1 = { t.1 with missingSplits := f } := by
  rw [visitCap]
  split
  · exact ⟨t.1.missingSplits, rfl⟩
  · split
    · exact ⟨t.1.missingSplits, rfl⟩
    · next hno =>
      rw [Finset.insert_eq_of_mem (h.resolve_left hno)]
      exact ⟨_, rfl⟩

theorem visitCaps_fst {r i : ι} {l : List (ℕ × ι)} {t : Mds ι × Splits ι}
    (h : r ∈ t.1.pastParentsOpen ∨ r ∈ t.1.missingSnapParents) :
    ∃ f, (l.foldl (visitCap r i) t).1 = { t.1 with missingSplits := f } := by
  induction l generalizing t with
  | nil => exact ⟨t.1.missingSplits, rfl⟩
  | cons x l ih =>
    obtain ⟨f, hf⟩ := visitCap_fst i x h
    obtain ⟨g, hg⟩ := ih (t := visitCap r i t x) (by rw [hf]; exact h)
    refine ⟨g, ?_⟩
    rw [List.foldl_cons, hg, hf]

theorem Tidy.visitInode {st : Mds ι × Splits ι} (h : Tidy cache st.1) (i : ι) : Tidy cache (visitInode cache st i).1 := by
  have hc := h.checkRealmPastParents (cache.realm_realm i)
  obtain ⟨f, hf⟩ := visitCaps_fst (i := i) (l := (st.1.reconnectedCaps i).toList)
    (t := (st.1.checkRealmPastParents (cache.realm i), st.2)) (checkRealmPastParents_mem st.1 (cache.realm i))
  rw [Mds.visitInode, hf]
  exact ⟨hc.pins, hc.realm, hc.delayed, hc.authPins, hc.suppress⟩

theorem Tidy.choose (h : Tidy cache s) : Tidy cache (s.chooseLockStatesAndReconnectCaps cache) := by
  have hwalk : ∀ (l : List ι) (st : Mds ι × Splits ι), Tidy cache st.1 →
      Tidy cache (l.foldl (Mds.visitInode cache) st).1 := by
    intro l
    induction l with
    | nil => exact fun st h => h
    | cons i l ih => exact fun st h => ih _ (h.visitInode i)
  have := hwalk cache.inodes (s, fun _ => none) h
  exact ⟨this.pins, this.realm, this.delayed, this.authPins, this.suppress⟩

/-! ## The opening of the past parents -/

/-- The past parents of a key are open when `open_snap_parents` is done with it. -/
def Opens (s : Mds ι) (opened : ι → Bool) (i : ι) : Prop := i ∈ s.pastParentsOpen ∨ opened i = true

instance decidableOpens (s : Mds ι) (opened : ι → Bool) (i : ι) : Decidable (Opens s opened i) :=
  inferInstanceAs (Decidable (_ ∨ _))

/-- The split messages of a list of a realm, a client and an inode each. -/
def prepared (l : List (ι × ℕ × ι)) : Splits ι :=
  l.foldl (fun m x => prepareRealmSplit x.1 x.2.1 x.2.2 m) fun _ => none

omit [LinearOrder ι] in
theorem prepared_append {l m : List (ι × ℕ × ι)} :
    prepared (l ++ m) = m.foldl (fun m x => prepareRealmSplit x.1 x.2.1 x.2.2 m) (prepared l) := List.foldl_append

/-- The splits that wait for a realm. -/
def waiting (s : Mds ι) (r : ι) : List (ι × ℕ × ι) := (ascending (s.missingSplits r)).map fun x => (r, ofLex x)

/-- The state without the realms in `d`, which are open now. -/
def opening (s : Mds ι) (d : Finset ι) : Mds ι :=
  { s with
    pastParentsOpen := s.pastParentsOpen ∪ d
    missingSnapParents := s.missingSnapParents \ d
    missingSplits := fun r => if r ∈ d then ∅ else s.missingSplits r
    pins := fun r => if r ∈ d then 0 else s.pins r }

theorem opening_insert {d : Finset ι} {x : ι} :
    opening s (insert x d) =
      { opening s d with
        pastParentsOpen := insert x (opening s d).pastParentsOpen
        missingSnapParents := (opening s d).missingSnapParents.erase x
        missingSplits := Function.update (opening s d).missingSplits x ∅
        pins := Function.update (opening s d).pins x 0 } := by
  have hf : ∀ {κ : Type} (z : κ) (f : ι → κ), (fun r => if r ∈ insert x d then z else f r) =
      Function.update (fun r => if r ∈ d then z else f r) x z := by
    intro κ z f
    funext r
    by_cases hr : r = x
    · subst hr
      simp
    · simp [hr]
  simp only [opening]
  rw [hf, hf, Finset.union_insert, Finset.sdiff_insert]

theorem Tidy.opening (h : Tidy cache s) (d : Finset ι) : Tidy cache (opening s d) where
  pins i := by
    have hi := h.pins i
    by_cases hd : i ∈ d
    · simp [SnapParents.opening, hd]
    · simp [SnapParents.opening, hd, hi]
  realm i hi := h.realm i (Finset.mem_sdiff.mp hi).1
  delayed := h.delayed
  authPins := h.authPins
  suppress := h.suppress

/-- One key, after those that `d` were removed of. -/
theorem openKey_ok (h : Tidy cache s) {d : Finset ι} {x : ι} (hx : x ∈ s.missingSnapParents) (hd : x ∉ d) (m : Splits ι) :
    openKey cache opened (opening s d, m) x =
      .ok (if Opens s opened x then (opening s (insert x d), (waiting s x).foldl
          (fun m y => prepareRealmSplit y.1 y.2.1 y.2.2 m) m) else (opening s d, m)) := by
  have hiff : (x ∈ (opening s d).pastParentsOpen ∨ opened x = true) ↔ Opens s opened x := by
    simp [SnapParents.opening, Opens, hd]
  have hsplits : (opening s d).missingSplits x = s.missingSplits x := if_neg hd
  have hpins : (opening s d).pins x = 1 := ((h.opening d).pins x).trans (if_pos (Finset.mem_sdiff.mpr ⟨hx, hd⟩))
  simp only [openKey, decide_eq_true (h.realm x hx), hiff]
  rw [assert_true_bind]
  split
  · rw [put]
    show (do assert (0 < (opening s d).pins x); _) >>= _ = _
    rw [hpins, waiting, List.foldl_map, opening_insert, hsplits]
    rfl
  · rfl

/-- The splits that are prepared, in order. -/
def openedSplits (s : Mds ι) (opened : ι → Bool) (l : List ι) : List (ι × ℕ × ι) :=
  (l.filter fun r => Opens s opened r).flatMap (waiting s)

theorem openedSplits_concat {l : List ι} {x : ι} :
    openedSplits s opened (l ++ [x]) = openedSplits s opened l ++ if Opens s opened x then waiting s x else [] := by
  rw [openedSplits, List.filter_append, List.flatMap_append]
  by_cases h : Opens s opened x
  · simp [h, openedSplits]
  · simp [h, openedSplits]

theorem openKeys_ok (h : Tidy cache s) (opened : ι → Bool) {l : List ι} (hl : l.Nodup) (hmem : ∀ x ∈ l, x ∈ s.missingSnapParents) :
    l.foldlM (openKey cache opened) (s, fun _ => none) =
      .ok (opening s (l.filter fun r => Opens s opened r).toFinset, prepared (openedSplits s opened l)) := by
  have hloop : ∃ st, l.foldlM (openKey cache opened) (s, fun _ => none) = .ok st ∧
      st = (opening s (l.filter fun r => Opens s opened r).toFinset, prepared (openedSplits s opened l)) := by
    refine foldlM_done (P := fun done st =>
        st = (opening s (done.filter fun r => Opens s opened r).toFinset, prepared (openedSplits s opened done)))
      (fun done x rest st hdone hP => ?_) ?_
    · subst hP
      have hx : x ∉ (done.filter fun r => Opens s opened r).toFinset := by
        intro hm
        rw [List.mem_toFinset, List.mem_filter] at hm
        rw [hdone] at hl
        exact (List.nodup_append.mp hl).2.2 x hm.1 x List.mem_cons_self rfl
      refine ⟨_, openKey_ok h (hmem x (by rw [hdone]; simp)) hx _, ?_⟩
      rw [openedSplits_concat, prepared_append, List.filter_append]
      by_cases ho : Opens s opened x
      · have hset : ((done.filter fun r => Opens s opened r) ++ [x]).toFinset =
            insert x (done.filter fun r => Opens s opened r).toFinset := by
          ext y
          simp
        rw [if_pos ho, if_pos ho, List.filter_singleton, decide_eq_true ho, cond_true, hset]
      · simp [ho]
    · simp [openedSplits, prepared, opening]
  obtain ⟨st, hst, rfl⟩ := hloop
  exact hst

/-- The realms that a call of `open_snap_parents` opens. -/
def openedRealms (s : Mds ι) (opened : ι → Bool) : Finset ι := s.missingSnapParents.filter fun r => Opens s opened r

theorem openSnapParents_ok (h : Tidy cache s) (opened : ι → Bool) :
    s.openSnapParents cache opened = .ok
      { (opening s (openedRealms s opened)).sendSnaps
          (prepared (openedSplits s opened (ascending s.missingSnapParents))) with
        done := s.done || s.missingSnapParents = ∅ } := by
  have hkeys := openKeys_ok h opened (nodup_ascending s.missingSnapParents) fun x => mem_ascending.mp
  have hd : ((ascending s.missingSnapParents).filter fun r => Opens s opened r).toFinset = openedRealms s opened := by
    ext x
    simp [openedRealms]
  rw [hd] at hkeys
  rw [openSnapParents, hkeys]
  by_cases hm : s.missingSnapParents = ∅
  · have ht : ((opening s (openedRealms s opened)).sendSnaps
        (prepared (openedSplits s opened (ascending s.missingSnapParents)))).missingSnapParents = ∅ := by
      simp [opening, sendSnaps, hm]
    have hdel : ((opening s (openedRealms s opened)).sendSnaps
        (prepared (openedSplits s opened (ascending s.missingSnapParents)))).delayedImportedCaps = ∅ := h.delayed
    show (if s.missingSnapParents ≠ ∅ then _ else _) = _
    rw [if_neg (not_not.mpr hm), decide_eq_true ht, assert_true_bind, doDelayedCapImports, decide_eq_true hdel]
    simp [hm]
    rfl
  · show (if s.missingSnapParents ≠ ∅ then _ else _) = _
    rw [if_pos hm]
    simp [hm, opening, sendSnaps]

theorem Tidy.openSnapParents (h : Tidy cache s) (hs : s.openSnapParents cache opened = .ok s') : Tidy cache s' := by
  rw [openSnapParents_ok h opened] at hs
  cases hs
  have := h.opening (openedRealms s opened)
  exact ⟨this.pins, this.realm, this.delayed, this.authPins, this.suppress⟩

/-! ## Runs -/

/-- No cap is imported while the past parents of its realm are missing. -/
def Sends (cache : Cache ι) (s : Mds ι) : Action ι → Prop
  | .doCapImport _ i => cache.realm i ∈ s.pastParentsOpen
  | _ => True

instance decidableSends (cache : Cache ι) (s : Mds ι) : ∀ a, Decidable (Sends cache s a)
  | .addReconnectedCap _ _ _ => .isTrue trivial
  | .checkRealmPastParents _ => .isTrue trivial
  | .doCapImport _ i => inferInstanceAs (Decidable (cache.realm i ∈ s.pastParentsOpen))
  | .chooseLockStatesAndReconnectCaps => .isTrue trivial
  | .openSnapParents _ => .isTrue trivial
  | .opened _ => .isTrue trivial

theorem doCapImport_of_sends {c : ℕ} {i : ι} (h : cache.realm i ∈ s.pastParentsOpen) :
    s.doCapImport cache c i = { s with imports := s.imports ++ [⟨c, i, cache.realm i⟩] } := if_pos h

theorem tidy_perform (h : Tidy cache s) (hs : Sends cache s a) : ∃ s', s.perform cache a = .ok s' ∧ Tidy cache s' := by
  cases a with
  | addReconnectedCap i c r => exact ⟨_, rfl, h.pins, h.realm, h.delayed, h.authPins, h.suppress⟩
  | checkRealmPastParents i => exact ⟨_, rfl, h.checkRealmPastParents (cache.realm_realm i)⟩
  | doCapImport c i =>
    refine ⟨_, rfl, ?_⟩
    rw [doCapImport_of_sends hs]
    exact ⟨h.pins, h.realm, h.delayed, h.authPins, h.suppress⟩
  | chooseLockStatesAndReconnectCaps => exact ⟨_, rfl, h.choose⟩
  | openSnapParents o => exact ⟨_, openSnapParents_ok h o, h.openSnapParents (openSnapParents_ok h o)⟩
  | opened r => exact ⟨_, rfl, h.pins, h.realm, h.delayed, h.authPins, h.suppress⟩

theorem tidy_run {session : ℕ → Bool} {o : Finset ι} {caps : ι → Std.ExtTreeMap ℕ ι}
    (hok : Meets (step cache) (Sends cache) (initial session o caps) as)
    (h : run (step cache) (initial session o caps) as = some s) : Tidy cache s := by
  refine run_invariant_of (fun t a t' ht hs hstep => ?_) (tidy_initial session o caps) hok h
  obtain ⟨u, hu, hinv⟩ := tidy_perform ht hs
  rw [step, toOption_eq_some] at hstep
  cases hu.symm.trans hstep
  exact hinv

theorem foldl_imports {l : List ι} {st : Mds ι × Splits ι} :
    (l.foldl (visitInode cache) st).1.imports = st.1.imports := by
  have hcap : ∀ (r i : ι) (caps : List (ℕ × ι)) (st : Mds ι × Splits ι),
      (caps.foldl (visitCap r i) st).1.imports = st.1.imports := by
    intro r i caps
    induction caps with
    | nil => exact fun st => rfl
    | cons x caps ih =>
      intro st
      rw [List.foldl_cons, ih, visitCap]
      split
      · rfl
      · split <;> rfl
  induction l generalizing st with
  | nil => rfl
  | cons i l ih =>
    rw [List.foldl_cons, ih, visitInode, hcap, checkRealmPastParents]
    split
    · rfl
    · split <;> rfl

theorem imports_mem_step {x : Import ι} (h : Tidy cache s) (hx : x ∈ s.imports) (hs : s.perform cache a = .ok s') :
    x ∈ s'.imports := by
  cases a with
  | addReconnectedCap i c r =>
    cases hs
    exact hx
  | checkRealmPastParents i =>
    cases hs
    rw [checkRealmPastParents]
    split
    · exact hx
    · split <;> exact hx
  | doCapImport c i =>
    cases hs
    rw [doCapImport]
    split
    · exact List.mem_append_left _ hx
    · exact hx
  | chooseLockStatesAndReconnectCaps =>
    cases hs
    show x ∈ (cache.inodes.foldl (visitInode cache) (s, fun _ => none)).1.imports
    rwa [foldl_imports]
  | openSnapParents o =>
    have := (openSnapParents_ok h o).symm.trans hs
    cases this
    exact hx
  | opened r =>
    cases hs
    exact hx

/-- Every import of a run whose steps all meet `Sends` is sent. -/
theorem imports_sent (h : Tidy cache s) (hok : Meets (step cache) (Sends cache) s as)
    (hr : run (step cache) s as = some s') :
    (∀ x ∈ s.imports, x ∈ s'.imports) ∧
      ∀ c i, Action.doCapImport c i ∈ as → ⟨c, i, cache.realm i⟩ ∈ s'.imports := by
  induction as generalizing s with
  | nil =>
    cases hr
    exact ⟨fun _ hx => hx, fun _ _ hm => absurd hm List.not_mem_nil⟩
  | cons a as ih =>
    obtain ⟨t, ht, hr⟩ := run_cons.mp hr
    have hrest := hok.2 t ht
    rw [step, toOption_eq_some] at ht
    obtain ⟨u, hu, hinv⟩ := tidy_perform h hok.1
    cases hu.symm.trans ht
    obtain ⟨hkeep, hsent⟩ := ih hinv hrest hr
    refine ⟨fun x hx => hkeep x (imports_mem_step h hx ht), fun c i hm => ?_⟩
    rcases List.mem_cons.mp hm with rfl | hm
    · cases ht
      refine hkeep _ ?_
      rw [doCapImport_of_sends hok.1]
      exact List.mem_append_right _ (List.mem_singleton_self _)
    · exact hsent c i hm

/-- Once the past parents of all realms open, `rejoin_done` is reached. -/
theorem rejoin_done (h : Tidy cache s) : ∃ s', run (step cache) s
    [.openSnapParents fun _ => true, .openSnapParents fun _ => true] = some s' ∧ s'.done = true := by
  have h₁ := openSnapParents_ok h fun _ => true
  have h₂ := openSnapParents_ok (h.openSnapParents h₁) fun _ => true
  refine ⟨_, run_cons.mpr ⟨_, toOption_eq_some.mpr h₁, run_cons.mpr ⟨_, toOption_eq_some.mpr h₂, rfl⟩⟩, ?_⟩
  have hnone : s.missingSnapParents \ openedRealms s (fun _ => true) = ∅ := by
    rw [openedRealms, Finset.sdiff_eq_empty_iff_subset]
    intro x hx
    exact Finset.mem_filter.mpr ⟨hx, .inr rfl⟩
  show (_ || decide (s.missingSnapParents \ openedRealms s (fun _ => true) = ∅)) = true
  rw [hnone]
  simp

/-! ## Delayed imports -/

theorem openKey_frame {st st' : Mds ι × Splits ι} {i : ι} (h : openKey cache opened st i = .ok st') :
    st'.1.delayedImportedCaps = st.1.delayedImportedCaps ∧ st'.1.done = st.1.done := by
  simp only [openKey, bind_ok, assert_ok] at h
  obtain ⟨_, -, h⟩ := h
  split at h
  · simp only [put, bind_ok, assert_ok, pure_ok] at h
    obtain ⟨_, ⟨_, -, rfl⟩, rfl⟩ := h
    exact ⟨rfl, rfl⟩
  · rw [pure_ok] at h
    rw [← h]
    exact ⟨rfl, rfl⟩

theorem openSnapParents_frame (h : s.openSnapParents cache opened = .ok s') :
    s'.delayedImportedCaps = s.delayedImportedCaps ∧ (s.delayedImportedCaps ≠ ∅ → s'.done = s.done) := by
  rw [Mds.openSnapParents, bind_ok] at h
  obtain ⟨st, hst, h⟩ := h
  obtain ⟨hdel, hdone⟩ := foldlM_invariant
    (P := fun st => st.1.delayedImportedCaps = s.delayedImportedCaps ∧ st.1.done = s.done)
    (fun st x st' _ hP hx => by
      obtain ⟨h₁, h₂⟩ := openKey_frame hx
      exact ⟨h₁.trans hP.1, h₂.trans hP.2⟩) ⟨rfl, rfl⟩ hst
  split at h
  · rw [pure_ok] at h
    rw [← h]
    exact ⟨hdel, fun _ => hdone⟩
  · simp only [bind_ok, assert_ok, doDelayedCapImports, pure_ok, decide_eq_true_eq] at h
    obtain ⟨_, -, _, ⟨_, hnone, rfl⟩, rfl⟩ := h
    exact ⟨hdel, fun hne => absurd (hdel.symm.trans hnone) hne⟩

theorem foldl_delayed (cache : Cache ι) (l : List ι) (st : Mds ι × Splits ι) :
    (l.foldl (visitInode cache) st).1.delayedImportedCaps = st.1.delayedImportedCaps ∧
      (l.foldl (visitInode cache) st).1.done = st.1.done := by
  induction l generalizing st with
  | nil => exact ⟨rfl, rfl⟩
  | cons i l ih =>
    obtain ⟨f, hf⟩ := visitCaps_fst (i := i) (l := (st.1.reconnectedCaps i).toList)
      (t := (st.1.checkRealmPastParents (cache.realm i), st.2)) (checkRealmPastParents_mem st.1 (cache.realm i))
    have hone : (visitInode cache st i).1.delayedImportedCaps = st.1.delayedImportedCaps ∧
        (visitInode cache st i).1.done = st.1.done := by
      rw [visitInode, hf, checkRealmPastParents]
      split
      · exact ⟨rfl, rfl⟩
      · split <;> exact ⟨rfl, rfl⟩
    exact ⟨(ih _).1.trans hone.1, (ih _).2.trans hone.2⟩

/-- A delayed import stays, and keeps `rejoin_done` from being reached. -/
theorem delayed_step (h : s.delayedImportedCaps ≠ ∅) (hs : s.perform cache a = .ok s') :
    s'.delayedImportedCaps ≠ ∅ ∧ s'.done = s.done := by
  cases a with
  | addReconnectedCap i c r =>
    cases hs
    exact ⟨h, rfl⟩
  | checkRealmPastParents i =>
    cases hs
    rw [checkRealmPastParents]
    split
    · exact ⟨h, rfl⟩
    · split <;> exact ⟨h, rfl⟩
  | doCapImport c i =>
    cases hs
    rw [doCapImport]
    split
    · exact ⟨h, rfl⟩
    · exact ⟨Finset.insert_ne_empty _ _, rfl⟩
  | chooseLockStatesAndReconnectCaps =>
    cases hs
    obtain ⟨hdel, hdone⟩ := foldl_delayed cache cache.inodes (s, fun _ => none)
    exact ⟨fun hn => h (hdel.symm.trans hn), hdone⟩
  | openSnapParents o =>
    obtain ⟨hdel, hdone⟩ := openSnapParents_frame hs
    exact ⟨hdel ▸ h, hdone h⟩
  | opened r =>
    cases hs
    exact ⟨h, rfl⟩

theorem delayed_run (h : s.delayedImportedCaps ≠ ∅) (hr : run (step cache) s as = some s') :
    s'.delayedImportedCaps ≠ ∅ ∧ s'.done = s.done := by
  refine run_invariant (P := fun t => t.delayedImportedCaps ≠ ∅ ∧ t.done = s.done)
    (fun t a t' ht hstep => ?_) ⟨h, rfl⟩ hr
  obtain ⟨h₁, h₂⟩ := delayed_step ht.1 (toOption_eq_some.mp hstep)
  exact ⟨h₁, h₂.trans ht.2⟩

theorem delayed_of_not_meets (h : ¬ Meets (step cache) (Sends cache) s as) (hr : run (step cache) s as = some s') :
    s'.delayedImportedCaps ≠ ∅ := by
  induction as generalizing s with
  | nil => exact absurd trivial h
  | cons a as ih =>
    obtain ⟨t, ht, hr⟩ := run_cons.mp hr
    by_cases hs : Sends cache s a
    · exact ih (fun hm => h ((meets_cons_of_some ht).mpr ⟨hs, hm⟩)) hr
    · refine (delayed_run ?_ hr).1
      rw [step, toOption_eq_some] at ht
      cases a with
      | doCapImport c i =>
        cases ht
        have hno : cache.realm i ∉ s.pastParentsOpen := hs
        rw [doCapImport, if_neg hno]
        exact Finset.insert_ne_empty _ _
      | _ => exact absurd trivial hs

/-- With a delayed import, no call of `open_snap_parents` ends the rejoin. -/
theorem openSnapParents_fault (h : s.delayedImportedCaps ≠ ∅) (hm : s.missingSnapParents = ∅) :
    (s.openSnapParents cache opened).fault = some .assert := by
  have hasc : ascending (∅ : Finset ι) = [] := rfl
  have hdel : decide ((s.sendSnaps fun _ => none).delayedImportedCaps = ∅) = false := decide_eq_false h
  rw [Mds.openSnapParents, hm, hasc, List.foldlM_nil]
  show Checked.fault (do
    assert ((s.sendSnaps fun _ => none).missingSnapParents = ∅)
    let t ← (s.sendSnaps fun _ => none).doDelayedCapImports
    return { t with done := true }) = _
  rw [decide_eq_true (show (s.sendSnaps fun _ => none).missingSnapParents = ∅ from hm), assert_true_bind,
    doDelayedCapImports, hdel]
  rfl

/-- Pins, keys and imports balance in the runs in which no cap is imported
while the past parents of its realm are missing, and `rejoin_done` is reached
once these open; in all other runs an import stays delayed, and nothing ends
the rejoin any more. -/
theorem snapParents_balance {session : ℕ → Bool} {o : Finset ι}
    (h : run (step cache) (initial session o fun _ => ∅) as = some s) :
    (Meets (step cache) (Sends cache) (initial session o fun _ => ∅) as →
      Tidy cache s ∧ (∀ c i, Action.doCapImport c i ∈ as → ⟨c, i, cache.realm i⟩ ∈ s.imports) ∧
      (∀ a, Sends cache s a → (s.perform cache a).fault = none) ∧
      ∃ s', run (step cache) s [.openSnapParents fun _ => true, .openSnapParents fun _ => true] = some s' ∧
        s'.done = true) ∧
    (¬ Meets (step cache) (Sends cache) (initial session o fun _ => ∅) as →
      ∀ bs s', run (step cache) s bs = some s' → s'.delayedImportedCaps ≠ ∅ ∧ s'.done = s.done ∧
        ∀ opened, s'.missingSnapParents = ∅ → (s'.openSnapParents cache opened).fault = some .assert) := by
  refine ⟨fun hok => ?_, fun hno bs s' hr => ?_⟩
  · have ht := tidy_run hok h
    refine ⟨ht, (imports_sent (tidy_initial _ _ _) hok h).2, fun a hs => ?_, rejoin_done ht⟩
    obtain ⟨t, ha, -⟩ := tidy_perform ht hs
    rw [ha]
    rfl
  · obtain ⟨hdel, hdone⟩ := delayed_run (delayed_of_not_meets hno h) hr
    exact ⟨hdel, hdone, fun opened hm => openSnapParents_fault hdel hm⟩

/-- A realm at 0, with a file in it. -/
def small : Cache ℕ := ⟨[0, 1], by decide, fun _ => 0, fun _ => rfl⟩

theorem snapParents_balance_small :
    ∃ s, run (step small) (initial (fun _ => true) ∅ fun _ => ∅)
        [.checkRealmPastParents 1, .openSnapParents fun _ => true, .doCapImport 7 1] = some s ∧ Tidy small s := by
  have h : run (step small) (initial (fun _ => true) ∅ fun _ => ∅)
    [.checkRealmPastParents 1, .openSnapParents fun _ => true, .doCapImport 7 1] = some _ := rfl
  refine ⟨_, h, ((snapParents_balance h).1 ?_).1⟩
  decide

/-- The cap of the file is imported while the past parents are missing. -/
theorem not_snapParents_balance :
    ∃ s, run (step small) (initial (fun _ => true) ∅ fun _ => ∅) [.doCapImport 7 1] = some s ∧
      ∀ o, (s.openSnapParents small o).fault = some .assert :=
  ⟨_, rfl, fun _ => rfl⟩

end CephMds.SnapParents
