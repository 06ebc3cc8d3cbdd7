import CephMds.Proof.SnapParents

/-!
# The realms that clients are told

The walk over the inodes and every call of `open_snap_parents` send each
client at most one split message, with the realm of the first inode in it
(`prepared_eq`). A cap with a wrong realm is in exactly one of these passes:
the first if the past parents of its realm are open, else that of the call
that opens them (`roundOf`). So the messages are right for a client if and
only if no two of its wrong caps in different realms are in one pass
(`told_iff`).
-/

namespace CephMds.SnapParents

open Checked Mds

/-! ## Messages -/

section Messages

variable {ι : Type}

/-- The message for the splits of one client. -/
def message : List (ι × ℕ × ι) → Option (Split ι)
  | [] => none
  | x :: l => some ⟨x.1, (x :: l).map (·.2.2)⟩

theorem prepared_eq (l : List (ι × ℕ × ι)) (c : ℕ) : prepared l c = message (l.filter fun x => x.2.1 = c) := by
  induction l using List.reverseRecOn with
  | nil => rfl
  | append_singleton l x ih =>
    rw [prepared_append, List.filter_append, List.foldl_cons, List.foldl_nil, prepareRealmSplit]
    by_cases hx : x.2.1 = c
    · subst hx
      rw [Function.update_self, ih, List.filter_singleton, decide_eq_true rfl, cond_true]
      cases l.filter fun y => y.2.1 = x.2.1 with
      | nil => rfl
      | cons y m => simp [message]
    · rw [Function.update_of_ne (Ne.symm hx), ih, List.filter_singleton, decide_eq_false hx, cond_false, List.append_nil]

/-- The message for a client names its inodes. -/
theorem exists_mem_prepared {l : List (ι × ℕ × ι)} {c : ℕ} {i : ι} :
    (∃ m ∈ prepared l c, i ∈ m.inos) ↔ ∃ r, (r, c, i) ∈ l := by
  have hmem : (∃ x ∈ l.filter (fun x => x.2.1 = c), x.2.2 = i) ↔ ∃ r, (r, c, i) ∈ l := by
    constructor
    · rintro ⟨⟨r, c', i'⟩, hx, rfl⟩
      obtain ⟨hx, hc⟩ := List.mem_filter.mp hx
      have hc : c' = c := of_decide_eq_true hc
      exact ⟨r, hc ▸ hx⟩
    · rintro ⟨r, hx⟩
      exact ⟨(r, c, i), List.mem_filter.mpr ⟨hx, decide_eq_true rfl⟩, rfl⟩
  rw [prepared_eq, ← hmem]
  cases l.filter fun x => x.2.1 = c with
  | nil => simp [message]
  | cons y m => simp [message, eq_comm (a := i)]

/-- The realm of the message is that of a split for the client. -/
theorem split_mem {l : List (ι × ℕ × ι)} {c : ℕ} {m : Split ι} (h : m ∈ prepared l c) : ∃ i, (m.split, c, i) ∈ l := by
  rw [prepared_eq] at h
  cases hl : l.filter fun x => x.2.1 = c with
  | nil =>
    rw [hl] at h
    cases h
  | cons y k =>
    rw [hl] at h
    cases h
    have hy : y ∈ l.filter fun x => x.2.1 = c := by rw [hl]; exact List.mem_cons_self
    obtain ⟨hy, hc⟩ := List.mem_filter.mp hy
    have hc : y.2.1 = c := of_decide_eq_true hc
    exact ⟨y.2.2, hc ▸ hy⟩

/-- The messages for a client in passes with these splits. -/
def messages (ps : List (List (ι × ℕ × ι))) (c : ℕ) : List (Split ι) := ps.flatMap fun p => (prepared p c).toList

theorem mem_messages {ps : List (List (ι × ℕ × ι))} {c : ℕ} {m : Split ι} :
    m ∈ messages ps c ↔ ∃ p ∈ ps, m ∈ prepared p c := by
  simp [messages]

theorem countP_messages [DecidableEq ι] (ps : List (List (ι × ℕ × ι))) (c : ℕ) (i : ι) :
    ((messages ps c).countP fun m => m.inos.contains i) = ps.countP fun p => p.any fun x => x.2 = (c, i) := by
  induction ps with
  | nil => rfl
  | cons p ps ih =>
    rw [messages, List.flatMap_cons, List.countP_append, List.countP_cons, ← messages, ih, Nat.add_comm]
    congr 1
    have hiff := exists_mem_prepared (l := p) (c := c) (i := i)
    have hany : (p.any fun x => x.2 = (c, i)) = true ↔ ∃ r, (r, c, i) ∈ p := by simp
    cases hm : prepared p c with
    | none =>
      rw [hm] at hiff
      have hno : ¬ (p.any fun x => x.2 = (c, i)) = true := fun h => by simpa using hiff.mpr (hany.mp h)
      simp only [Option.toList_none, List.countP_nil, if_neg hno]
    | some m =>
      rw [hm] at hiff
      have hiff : i ∈ m.inos ↔ (p.any fun x => x.2 = (c, i)) = true := by
        rw [hany, ← hiff]
        simp
      simp only [Option.toList_some, List.countP_singleton, List.contains_iff_mem, hiff]

theorem countP_eq_one {α : Type} {l : List α} {p : α → Bool} {k : ℕ} (hk : k < l.length)
    (h : ∀ j (hj : j < l.length), p l[j] = true ↔ j = k) : l.countP p = 1 := by
  induction l generalizing k with
  | nil => exact absurd hk (Nat.not_lt_zero k)
  | cons a l ih =>
    have h₀ := h 0 (Nat.zero_lt_succ _)
    rw [List.getElem_cons_zero] at h₀
    have hs : ∀ j (hj : j < l.length), p l[j] = true ↔ j + 1 = k := fun j hj => h (j + 1) (Nat.succ_lt_succ hj)
    cases k with
    | zero =>
      rw [List.countP_cons_of_pos (h₀.mpr rfl), List.countP_eq_zero.mpr]
      intro x hx
      obtain ⟨j, hj, rfl⟩ := List.getElem_of_mem hx
      exact fun hp => Nat.succ_ne_zero j ((hs j hj).mp hp)
    | succ k =>
      rw [List.countP_cons_of_neg fun hp => Nat.succ_ne_zero k (h₀.mp hp).symm]
      exact ih (Nat.lt_of_succ_lt_succ hk) fun j hj => (hs j hj).trans Nat.succ_inj

/-- The passes send the splits that are needed, each in the pass of its realm.
Then each inode is named once, and with its own realm if no pass has splits
of one client for two realms, and only then. -/
theorem passes_told [DecidableEq ι] {ps : List (List (ι × ℕ × ι))} {needed : ℕ → ι → Prop} {realm : ι → ι}
    {round : ι → ℕ} {c : ℕ}
    (hps : ∀ k (hk : k < ps.length) r d i, (r, d, i) ∈ ps[k] ↔ needed d i ∧ realm i = r ∧ round r = k)
    (hall : ∀ d i, needed d i → round (realm i) < ps.length) :
    ((∀ i, needed c i → (messages ps c).countP (fun m => m.inos.contains i) = 1) ∧
      ∀ m ∈ messages ps c, ∀ i ∈ m.inos, needed c i ∧ realm i = m.split) ↔
    ∀ i j, needed c i → needed c j → round (realm i) = round (realm j) → realm i = realm j := by
  have hone : ∀ i, needed c i → (messages ps c).countP (fun m => m.inos.contains i) = 1 := by
    intro i hi
    rw [countP_messages]
    refine countP_eq_one (hall c i hi) fun k hk => ?_
    have hany : (ps[k].any fun x => x.2 = (c, i)) = true ↔ ∃ r, (r, c, i) ∈ ps[k] := by simp
    rw [hany]
    constructor
    · rintro ⟨r, hr⟩
      obtain ⟨-, rfl, rfl⟩ := (hps k hk r c i).mp hr
      rfl
    · rintro rfl
      exact ⟨realm i, (hps _ hk _ c i).mpr ⟨hi, rfl, rfl⟩⟩
  refine ⟨fun ⟨_, hreal⟩ i j hi hj hij => ?_, fun h => ⟨hone, fun m hm i hmi => ?_⟩⟩
  · have hk := hall c i hi
    -- both inodes are in the message of the pass of their realms
    have hpi : (realm i, c, i) ∈ ps[round (realm i)] := (hps _ hk _ c i).mpr ⟨hi, rfl, rfl⟩
    have hpj : (realm j, c, j) ∈ ps[round (realm i)] := (hps _ hk _ c j).mpr ⟨hj, rfl, hij.symm⟩
    obtain ⟨m, hm, hmi⟩ := exists_mem_prepared.mpr ⟨_, hpi⟩
    obtain ⟨m', hm', hmj⟩ := exists_mem_prepared.mpr ⟨_, hpj⟩
    cases Option.mem_unique hm hm'
    have hmem : m ∈ messages ps c := mem_messages.mpr ⟨_, List.getElem_mem hk, hm⟩
    exact (hreal m hmem i hmi).2.trans (hreal m hmem j hmj).2.symm
  · obtain ⟨p, hp, hm⟩ := mem_messages.mp hm
    obtain ⟨k, hk, rfl⟩ := List.getElem_of_mem hp
    obtain ⟨r, hr⟩ := exists_mem_prepared.mp ⟨m, hm, hmi⟩
    obtain ⟨hi, rfl, hround⟩ := (hps k hk r c i).mp hr
    obtain ⟨j, hj⟩ := split_mem hm
    obtain ⟨hj, hsplit, hround'⟩ := (hps k hk _ c j).mp hj
    refine ⟨hi, (h i j hi hj ?_).trans hsplit⟩
    rw [hround, hsplit, hround']

end Messages

variable {ι : Type} [LinearOrder ι] {cache : Cache ι} {s : Mds ι} {opened : ι → Bool}
  {caps : ι → Std.ExtTreeMap ℕ ι}

/-! ## The walk over the inodes -/

/-- The client believes that the inode is in another realm. -/
def Wrong (cache : Cache ι) (caps : ι → Std.ExtTreeMap ℕ ι) (c : ℕ) (i : ι) : Prop :=
  i ∈ cache.inodes ∧ ∃ b, (caps i)[c]? = some b ∧ b ≠ cache.realm i

/-- The splits for the caps of an inode in `r`. -/
def wrongCaps (r i : ι) (l : List (ℕ × ι)) : List (ι × ℕ × ι) :=
  (l.filter fun x => x.2 ≠ r).map fun x => (r, x.1, i)

theorem visitCaps_open {r i : ι} {l : List (ℕ × ι)} {m : List (ι × ℕ × ι)} (h : r ∈ s.pastParentsOpen) :
    l.foldl (visitCap r i) (s, prepared m) = (s, prepared (m ++ wrongCaps r i l)) := by
  induction l generalizing m with
  | nil => rw [wrongCaps, List.filter_nil, List.map_nil, List.append_nil, List.foldl_nil]
  | cons x l ih =>
    rw [List.foldl_cons, visitCap]
    by_cases hx : x.2 = r
    · rw [if_pos hx, ih, wrongCaps, wrongCaps, List.filter_cons_of_neg (by simpa using hx)]
    · have hm : prepareRealmSplit r x.1 i (prepared m) = prepared (m ++ [(r, x.1, i)]) :=
        (prepared_append (m := [(r, x.1, i)])).symm
      rw [if_neg hx, if_pos h, hm, ih, wrongCaps, wrongCaps, List.filter_cons_of_pos (by simpa using hx),
        List.map_cons, List.append_assoc]
      rfl

theorem visitCaps_missing {r i : ι} {l : List (ℕ × ι)} {m : Splits ι} {s : Mds ι} (h : r ∉ s.pastParentsOpen)
    (hr : r ∈ s.missingSnapParents) : ∃ f, l.foldl (visitCap r i) (s, m) = ({ s with missingSplits := f }, m) ∧
      ∀ q x, x ∈ f q ↔ x ∈ s.missingSplits q ∨ (q, ofLex x) ∈ wrongCaps r i l := by
  induction l generalizing s with
  | nil => exact ⟨s.missingSplits, rfl, by simp [wrongCaps]⟩
  | cons x l ih =>
    rw [List.foldl_cons, visitCap]
    by_cases hx : x.2 = r
    · rw [if_pos hx]
      obtain ⟨f, hf, hmem⟩ := ih h hr
      refine ⟨f, hf, fun q y => ?_⟩
      rw [hmem, wrongCaps, wrongCaps, List.filter_cons_of_neg (by simpa using hx)]
    · rw [if_neg hx, if_neg h, Finset.insert_eq_of_mem hr]
      obtain ⟨f, hf, hmem⟩ := ih (s := { s with
        missingSplits := Function.update s.missingSplits r (insert (toLex (x.1, i)) (s.missingSplits r)) }) h hr
      refine ⟨f, hf, fun q y => ?_⟩
      rw [hmem, wrongCaps, wrongCaps, List.filter_cons_of_pos (by simpa using hx), List.map_cons, List.mem_cons, ← or_assoc]
      refine or_congr_left ?_
      show y ∈ Function.update s.missingSplits r (insert (toLex (x.1, i)) (s.missingSplits r)) q ↔ _
      by_cases hq : q = r
      · subst hq
        rw [Function.update_self, Finset.mem_insert, or_comm]
        refine or_congr_right ?_
        rw [Prod.mk.injEq]
        exact ⟨fun h => ⟨rfl, h ▸ rfl⟩, fun h => h.2 ▸ rfl⟩
      · rw [Function.update_of_ne hq]
        simp [hq]

/-- The state after the walk over some inodes of a state without missing realms. -/
structure Walked (cache : Cache ι) (s : Mds ι) (l : List ι) (st : Mds ι × Splits ι) (m : List (ι × ℕ × ι)) : Prop where
  splits : st.2 = prepared m
  session : st.1.session = s.session
  sent : st.1.splits = s.splits
  caps : st.1.reconnectedCaps = s.reconnectedCaps
  pastParentsOpen : st.1.pastParentsOpen = s.pastParentsOpen
  mem : ∀ r c i, (r, c, i) ∈ m ↔ i ∈ l ∧ (∃ b, (s.reconnectedCaps i)[c]? = some b ∧ b ≠ cache.realm i) ∧
    cache.realm i = r ∧ r ∈ s.pastParentsOpen
  missing : ∀ r, r ∈ st.1.missingSnapParents ↔ (∃ i ∈ l, cache.realm i = r) ∧ r ∉ s.pastParentsOpen
  missingSplits : ∀ r c i, toLex (c, i) ∈ st.1.missingSplits r ↔
    i ∈ l ∧ (∃ b, (s.reconnectedCaps i)[c]? = some b ∧ b ≠ cache.realm i) ∧ cache.realm i = r ∧ r ∉ s.pastParentsOpen

theorem mem_wrongCaps {r i : ι} {t : Std.ExtTreeMap ℕ ι} {q : ι} {c : ℕ} {j : ι} :
    (q, c, j) ∈ wrongCaps r i t.toList ↔ q = r ∧ j = i ∧ ∃ b, t[c]? = some b ∧ b ≠ r := by
  simp only [wrongCaps, List.mem_map, List.mem_filter, decide_eq_true_eq, Prod.mk.injEq, Prod.exists,
    Std.ExtTreeMap.mem_toList_iff_getElem?_eq_some]
  constructor
  · rintro ⟨c', b, ⟨hc, hb⟩, rfl, rfl, rfl⟩
    exact ⟨rfl, rfl, b, hc, hb⟩
  · rintro ⟨rfl, rfl, b, hc, hb⟩
    exact ⟨c, b, ⟨hc, hb⟩, rfl, rfl, rfl⟩

theorem walked_foldl (cache : Cache ι) (hm : s.missingSnapParents = ∅) (hs : ∀ r, s.missingSplits r = ∅) (l : List ι) :
    ∃ m, Walked cache s l (l.foldl (visitInode cache) (s, fun _ => none)) m := by
  induction l using List.reverseRecOn with
  | nil => exact ⟨[], rfl, rfl, rfl, rfl, rfl, by simp, by simp [hm], by simp [hs]⟩
  | append_singleton l i ih =>
    obtain ⟨m, h⟩ := ih
    rw [List.foldl_append, List.foldl_cons, List.foldl_nil]
    obtain ⟨t, hst⟩ : ∃ t, l.foldl (visitInode cache) (s, fun _ => none) = t := ⟨_, rfl⟩
    rw [hst] at h ⊢
    rw [visitInode, h.splits, h.caps]
    by_cases ho : cache.realm i ∈ s.pastParentsOpen
    · have ho' : cache.realm i ∈ t.1.pastParentsOpen := h.pastParentsOpen ▸ ho
      rw [checkRealmPastParents, if_pos ho', visitCaps_open ho']
      refine ⟨_, rfl, h.session, h.sent, h.caps, h.pastParentsOpen, fun r c j => ?_, fun r => ?_, fun r c j => ?_⟩
      · rw [List.mem_append, h.mem, mem_wrongCaps, List.mem_append, List.mem_singleton]
        constructor
        · rintro (⟨hj, hb, hr, hro⟩ | ⟨rfl, rfl, hb⟩)
          · exact ⟨.inl hj, hb, hr, hro⟩
          · exact ⟨.inr rfl, hb, rfl, ho⟩
        · rintro ⟨hj | rfl, hb, hr, hro⟩
          · exact .inl ⟨hj, hb, hr, hro⟩
          · exact .inr ⟨hr.symm, rfl, hb⟩
      · rw [h.missing]
        refine and_congr_left fun hr => ?_
        constructor
        · rintro ⟨j, hj, hjr⟩
          exact ⟨j, List.mem_append_left _ hj, hjr⟩
        · rintro ⟨j, hj, hjr⟩
          rcases List.mem_append.mp hj with hj | hj
          · exact ⟨j, hj, hjr⟩
          · rw [List.mem_singleton] at hj
            rw [hj] at hjr
            exact absurd (hjr ▸ ho) hr
      · rw [h.missingSplits, List.mem_append, List.mem_singleton]
        constructor
        · rintro ⟨hj, hb, hr⟩
          exact ⟨.inl hj, hb, hr⟩
        · rintro ⟨hj | rfl, hb, hjr, hr⟩
          · exact ⟨hj, hb, hjr, hr⟩
          · exact absurd (hjr ▸ ho) hr
    · have ho' : cache.realm i ∉ t.1.pastParentsOpen := h.pastParentsOpen ▸ ho
      obtain ⟨u, hu⟩ : ∃ u, t.1.checkRealmPastParents (cache.realm i) = u := ⟨_, rfl⟩
      have hframe : u.session = t.1.session ∧ u.splits = t.1.splits ∧ u.reconnectedCaps = t.1.reconnectedCaps ∧
          u.pastParentsOpen = t.1.pastParentsOpen ∧ u.missingSplits = t.1.missingSplits ∧
          u.missingSnapParents = insert (cache.realm i) t.1.missingSnapParents := by
        rw [← hu, checkRealmPastParents, if_neg ho']
        split
        · next hin => exact ⟨rfl, rfl, rfl, rfl, rfl, (Finset.insert_eq_of_mem hin).symm⟩
        · exact ⟨rfl, rfl, rfl, rfl, rfl, rfl⟩
      obtain ⟨h₁, h₂, h₃, h₄, h₅, h₆⟩ := hframe
      obtain ⟨f, hf, hfmem⟩ := visitCaps_missing (i := i) (l := (s.reconnectedCaps i).toList) (m := prepared m) (s := u)
        (h₄ ▸ ho') (h₆ ▸ Finset.mem_insert_self _ _)
      rw [hu, hf]
      refine ⟨m, rfl, h₁.trans h.session, h₂.trans h.sent, h₃.trans h.caps, h₄.trans h.pastParentsOpen,
        fun r c j => ?_, fun r => ?_, fun r c j => ?_⟩
      · rw [h.mem, List.mem_append, List.mem_singleton]
        constructor
        · rintro ⟨hj, hb, hr⟩
          exact ⟨.inl hj, hb, hr⟩
        · rintro ⟨hj | rfl, hb, hjr, hr⟩
          · exact ⟨hj, hb, hjr, hr⟩
          · exact absurd hr (hjr ▸ ho)
      · show r ∈ u.missingSnapParents ↔ _
        rw [h₆, Finset.mem_insert, h.missing]
        constructor
        · rintro (rfl | ⟨⟨j, hj, hjr⟩, hr⟩)
          · exact ⟨⟨i, List.mem_append_right _ (List.mem_singleton_self i), rfl⟩, ho⟩
          · exact ⟨⟨j, List.mem_append_left _ hj, hjr⟩, hr⟩
        · rintro ⟨⟨j, hj, hjr⟩, hr⟩
          rcases List.mem_append.mp hj with hj | hj
          · exact .inr ⟨⟨j, hj, hjr⟩, hr⟩
          · rw [List.mem_singleton] at hj
            rw [hj] at hjr
            exact .inl hjr.symm
      · show toLex (c, j) ∈ f r ↔ _
        rw [hfmem, h₅, h.missingSplits]
        show _ ∨ (r, c, j) ∈ _ ↔ _
        rw [mem_wrongCaps, List.mem_append, List.mem_singleton]
        constructor
        · rintro (⟨hj, hb, hr⟩ | ⟨rfl, rfl, hb⟩)
          · exact ⟨.inl hj, hb, hr⟩
          · exact ⟨.inr rfl, hb, rfl, ho⟩
        · rintro ⟨hj | rfl, hb, hjr, hr⟩
          · exact .inl ⟨hj, hb, hjr, hr⟩
          · exact .inr ⟨hjr.symm, rfl, hb⟩

/-! ## The calls of `open_snap_parents` -/

def openAll (cache : Cache ι) (s : Mds ι) (os : List (ι → Bool)) : Checked (Mds ι) :=
  os.foldlM (fun s opened => s.openSnapParents cache opened) s

theorem mem_waiting {r q : ι} {c : ℕ} {i : ι} : (q, c, i) ∈ waiting s r ↔ q = r ∧ toLex (c, i) ∈ s.missingSplits r := by
  simp only [waiting, List.mem_map, mem_ascending, Prod.mk.injEq]
  constructor
  · rintro ⟨x, hx, rfl, rfl⟩
    exact ⟨rfl, hx⟩
  · rintro ⟨rfl, hx⟩
    exact ⟨_, hx, rfl, rfl⟩

theorem mem_openedSplits {q : ι} {c : ℕ} {i : ι} :
    (q, c, i) ∈ openedSplits s opened (ascending s.missingSnapParents) ↔
      q ∈ openedRealms s opened ∧ toLex (c, i) ∈ s.missingSplits q := by
  simp only [openedSplits, List.mem_flatMap, List.mem_filter, mem_ascending, decide_eq_true_eq, mem_waiting,
    openedRealms, Finset.mem_filter]
  constructor
  · rintro ⟨r, hr, rfl, hx⟩
    exact ⟨hr, hx⟩
  · rintro ⟨hr, hx⟩
    exact ⟨q, hr, rfl, hx⟩

/-- The splits of a realm are sent by the first call that opens it. -/
theorem openAll_ok (os : List (ι → Bool)) (h : Tidy cache s) (hdis : ∀ r ∈ s.missingSnapParents, r ∉ s.pastParentsOpen) :
    ∃ s' ps, openAll cache s os = .ok s' ∧ s'.session = s.session ∧ ps.length = os.length ∧
      (∀ c, s.session c = true → s'.splits c = s.splits c ++ messages ps c) ∧
      (∀ r ∈ s.missingSnapParents, r ∉ s'.missingSnapParents → os.findIdx (· r) < os.length) ∧
      ∀ k (hk : k < ps.length) r c i, (r, c, i) ∈ ps[k] ↔
        r ∈ s.missingSnapParents ∧ toLex (c, i) ∈ s.missingSplits r ∧ os.findIdx (· r) = k := by
  induction os generalizing s with
  | nil =>
    refine ⟨s, [], rfl, rfl, rfl, fun c _ => (List.append_nil _).symm, fun r hr hn => absurd hr hn, ?_⟩
    exact fun k hk => absurd hk (Nat.not_lt_zero k)
  | cons o os ih =>
    have hok := openSnapParents_ok h o
    obtain ⟨t, ht⟩ : ∃ t, s.openSnapParents cache o = .ok t := ⟨_, hok⟩
    have htidy := h.openSnapParents ht
    cases hok.symm.trans ht
    have hopened : ∀ r, r ∈ openedRealms s o ↔ r ∈ s.missingSnapParents ∧ o r = true := by
      intro r
      rw [openedRealms, Finset.mem_filter]
      exact and_congr_right fun hr => or_iff_right (hdis r hr)
    have hmissing : ∀ r, r ∈ s.missingSnapParents \ openedRealms s o ↔ r ∈ s.missingSnapParents ∧ o r = false := by
      intro r
      rw [Finset.mem_sdiff, hopened]
      refine and_congr_right fun hr => ?_
      rw [not_and, Bool.not_eq_true]
      exact ⟨fun h => h hr, fun h _ => h⟩
    obtain ⟨s', ps, hs', hsession, hlen, hsplits, hall, hmem⟩ := ih htidy fun r hr hro => by
      obtain ⟨hr, hno⟩ := Finset.mem_sdiff.mp hr
      rcases Finset.mem_union.mp hro with hro | hro
      · exact hdis r hr hro
      · exact hno hro
    refine ⟨s', openedSplits s o (ascending s.missingSnapParents) :: ps, ?_, hsession, congrArg (· + 1) hlen,
      fun c hc => ?_, fun r hr hn => ?_, fun k hk r c i => ?_⟩
    · rw [openAll, List.foldlM_cons, ht]
      exact hs'
    · rw [hsplits c hc]
      show (s.splits c ++ if s.session c then _ else _) ++ _ = _
      rw [if_pos hc, List.append_assoc]
      rfl
    · rw [List.findIdx_cons]
      cases hor : o r with
      | true => exact Nat.zero_lt_succ _
      | false => exact Nat.succ_lt_succ (hall r ((hmissing r).mpr ⟨hr, hor⟩) hn)
    · rw [List.findIdx_cons]
      cases k with
      | zero =>
        rw [List.getElem_cons_zero, mem_openedSplits, hopened]
        cases hor : o r with
        | true => simp
        | false => simp
      | succ k =>
        rw [List.getElem_cons_succ, hmem k (Nat.lt_of_succ_lt_succ hk)]
        show r ∈ s.missingSnapParents \ openedRealms s o ∧ _ ∈ (if r ∈ openedRealms s o then ∅ else s.missingSplits r) ∧ _ ↔ _
        rw [hmissing]
        simp only [hopened]
        cases hor : o r with
        | true => simp
        | false => simp

/-! ## A rejoin -/

/-- `choose_lock_states_and_reconnect_caps`, then these calls of `open_snap_parents`. -/
def rejoin (cache : Cache ι) (session : ℕ → Bool) (pastParentsOpen : Finset ι) (caps : ι → Std.ExtTreeMap ℕ ι)
    (os : List (ι → Bool)) : Checked (Mds ι) :=
  openAll cache ((initial session pastParentsOpen caps).chooseLockStatesAndReconnectCaps cache) os

/-- The pass in which the past parents of a realm are open. -/
def roundOf (pastParentsOpen : Finset ι) (os : List (ι → Bool)) (r : ι) : ℕ :=
  if r ∈ pastParentsOpen then 0 else os.findIdx (· r) + 1

/-- A client is told of each inode that it has in a wrong realm by one message
with the inode's own realm, and of no inode in another realm. -/
def Told (cache : Cache ι) (caps : ι → Std.ExtTreeMap ℕ ι) (c : ℕ) (sent : List (Split ι)) : Prop :=
  (∀ i, Wrong cache caps c i → sent.countP (fun m => m.inos.contains i) = 1) ∧
    ∀ m ∈ sent, ∀ i ∈ m.inos, Wrong cache caps c i ∧ cache.realm i = m.split

/-- The inodes that a client has in a wrong realm, and whose realms have their
past parents open in the same pass, are in one realm. -/
def OneRealm (cache : Cache ι) (o : Finset ι) (caps : ι → Std.ExtTreeMap ℕ ι) (os : List (ι → Bool)) (c : ℕ) : Prop :=
  ∀ i j, Wrong cache caps c i → Wrong cache caps c j →
    roundOf o os (cache.realm i) = roundOf o os (cache.realm j) → cache.realm i = cache.realm j

/-- A rejoin fails no assertion; and once the past parents of all realms are
open, a client with a session is told the right realms if and only if it has
no two inodes of different realms in one pass. -/
theorem told_iff (cache : Cache ι) (session : ℕ → Bool) (o : Finset ι) (caps : ι → Std.ExtTreeMap ℕ ι)
    (os : List (ι → Bool)) :
    ∃ s, rejoin cache session o caps os = .ok s ∧
      (s.missingSnapParents = ∅ → ∀ c, session c = true →
        (Told cache caps c (s.splits c) ↔ OneRealm cache o caps os c)) := by
  obtain ⟨m, hw⟩ := walked_foldl cache (s := initial session o caps) rfl (fun _ => rfl) cache.inodes
  obtain ⟨st, hst⟩ : ∃ st, cache.inodes.foldl (visitInode cache) (initial session o caps, fun _ => none) = st := ⟨_, rfl⟩
  rw [hst] at hw
  have hchoose : (initial session o caps).chooseLockStatesAndReconnectCaps cache =
      { st.1 with reconnectedCaps := fun _ => ∅ }.sendSnaps st.2 := by
    rw [chooseLockStatesAndReconnectCaps, hst]
  have htidy : Tidy cache _ := (tidy_initial session o caps).choose
  have hdis : ∀ r ∈ ((initial session o caps).chooseLockStatesAndReconnectCaps cache).missingSnapParents,
      r ∉ ((initial session o caps).chooseLockStatesAndReconnectCaps cache).pastParentsOpen := by
    rw [hchoose]
    intro r hr hro
    exact ((hw.missing r).mp hr).2 (hw.pastParentsOpen ▸ hro)
  obtain ⟨s, ps, hs, -, hlen, hsplits, hall, hmem⟩ := openAll_ok os htidy hdis
  rw [hchoose] at hsplits hall hmem
  refine ⟨s, hs, fun hnone c hc => ?_⟩
  have hsession : st.1.session c = true := hw.session ▸ hc
  have hsent : s.splits c = messages (m :: ps) c := by
    rw [hsplits c hsession]
    show (st.1.splits c ++ if st.1.session c then (st.2 c).toList else []) ++ _ = _
    rw [hw.sent, hw.splits, if_pos hsession]
    rfl
  rw [hsent]
  refine passes_told (fun k hk r d i => ?_) fun d i hi => ?_
  · cases k with
    | zero =>
      rw [List.getElem_cons_zero, hw.mem, Wrong, roundOf, and_assoc]
      refine and_congr_right fun _ => and_congr_right fun _ => and_congr_right fun _ => ?_
      show r ∈ o ↔ _
      split
      · next h => simpa using h
      · next h => simpa using h
    | succ k =>
      rw [List.getElem_cons_succ, hmem k (Nat.lt_of_succ_lt_succ hk)]
      show r ∈ st.1.missingSnapParents ∧ toLex (d, i) ∈ st.1.missingSplits r ∧ _ ↔ _
      rw [hw.missing, hw.missingSplits, Wrong, roundOf]
      constructor
      · rintro ⟨-, ⟨hi, hb, hr, hno⟩, rfl⟩
        exact ⟨⟨hi, hb⟩, hr, if_neg hno⟩
      · rintro ⟨⟨hi, hb⟩, rfl, hround⟩
        by_cases hno : cache.realm i ∈ o
        · rw [if_pos hno] at hround
          cases hround
        · rw [if_neg hno] at hround
          exact ⟨⟨⟨i, hi, rfl⟩, hno⟩, ⟨hi, hb, rfl, hno⟩, Nat.succ.inj hround⟩
  · rw [roundOf, List.length_cons]
    split
    · exact Nat.zero_lt_succ _
    · next hno =>
      rw [hlen]
      refine Nat.succ_lt_succ (hall _ ((hw.missing _).mpr ⟨⟨i, hi.1, rfl⟩, hno⟩) ?_)
      rw [hnone]
      exact Finset.notMem_empty _

/-! ## Two realms -/

/-- The realms 1 and 2, with the file 11 in the first and 12 in the second. -/
def two : Cache ℕ where
  inodes := [1, 2, 11, 12]
  nodup := by decide
  realm i := if i = 11 then 1 else if i = 12 then 2 else i
  realm_realm i := by split <;> [rfl; split <;> [rfl; simp_all]]

/-- Client 7 has caps on both files, and believes them in a third realm. -/
def twoCaps (i : ℕ) : Std.ExtTreeMap ℕ ℕ :=
  if i = 11 then (∅ : Std.ExtTreeMap ℕ ℕ).insert 7 3 else if i = 12 then (∅ : Std.ExtTreeMap ℕ ℕ).insert 7 3 else ∅

theorem wrong_twoCaps {i : ℕ} (h : Wrong two twoCaps 7 i) : i = 11 ∨ i = 12 := by
  obtain ⟨-, b, hb, -⟩ := h
  by_contra hno
  rw [not_or] at hno
  rw [twoCaps, if_neg hno.1, if_neg hno.2] at hb
  simp at hb

/-- The past parents of the second realm are opened later. -/
theorem told_iff_two : ∃ s, rejoin two (fun _ => true) {1} twoCaps [fun _ => true] = .ok s ∧
    Told two twoCaps 7 (s.splits 7) := by
  obtain ⟨s, hs, h⟩ := told_iff two (fun _ => true) {1} twoCaps [fun _ => true]
  refine ⟨s, hs, (h ?_ 7 rfl).mpr ?_⟩
  · have hr : (rejoin two (fun _ => true) {1} twoCaps [fun _ => true]).toOption.map Mds.missingSnapParents = some ∅ := by
      decide +kernel
    rw [hs] at hr
    exact Option.some.inj hr
  · intro i j hi hj hij
    rcases wrong_twoCaps hi with rfl | rfl
    · rcases wrong_twoCaps hj with rfl | rfl
      · rfl
      · cases hij
    · rcases wrong_twoCaps hj with rfl | rfl
      · cases hij
      · rfl

/-- With both open, the client is told that both files are in the first. -/
theorem not_told : ∃ s, rejoin two (fun _ => true) {1, 2} twoCaps [] = .ok s ∧ s.missingSnapParents = ∅ ∧
    s.splits 7 = [⟨1, [11, 12]⟩] ∧ ¬ Told two twoCaps 7 (s.splits 7) := by
  have hm : (rejoin two (fun _ => true) {1, 2} twoCaps []).toOption.map
      (fun s => (s.missingSnapParents, s.splits 7)) = some (∅, [⟨1, [11, 12]⟩]) := by decide +kernel
  obtain ⟨s, hs, he⟩ := Option.map_eq_some_iff.mp hm
  obtain ⟨h₁, h₂⟩ := Prod.mk.inj he
  refine ⟨s, toOption_eq_some.mp hs, h₁, h₂, fun h => ?_⟩
  have := (h.2 ⟨1, [11, 12]⟩ (by rw [h₂]; exact List.mem_singleton_self _) 12 (by decide)).2
  cases this

end CephMds.SnapParents
