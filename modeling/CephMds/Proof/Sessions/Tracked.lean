import CephMds.Proof.Sessions.Order

/-!
# The imports of a session

`Tracked` ties the sessions to the imports that are in flight. A session's
count of imports is the number of those that name its client, and while there
are some the session is in the map and not shut. Where an import found the
session opening, the entry that opens it comes before that of the import;
where it opened the session itself, it knows the number of that transition.
-/

namespace CephMds.Sessions

/-- How often the import names the client. -/
def Entry.importsOf (c : ℕ) : Entry → ℕ
  | .imports clients .. => clients.count c
  | _ => 0

/-- The entry opens session `i` of client `c` by its transition `q`. -/
def Entry.Opens (c i q : ℕ) : Entry → Prop
  | .session j sseq isOpen _ _ _ => j = i ∧ sseq = q ∧ isOpen = true
  | .imports clients sseqmap _ _ => c ∈ clients ∧ sseqmap c = some q
  | .update .. => False

/-- The imports in flight for a client: in the journal, or not finished since. -/
def inFlight (J : List Entry) (H : List (List ℕ)) (c : ℕ) : ℕ :=
  (J.map (Entry.importsOf c)).sum + (H.map (List.count c)).sum

/-- The entry is for a new inode. -/
def Entry.isUpdate : Entry → Bool
  | .update .. => true
  | _ => false

structure Tracked (S : ℕ → Session) (M : ℕ → Option ℕ) (J : List Entry) (H : List (List ℕ)) : Prop where
  count : ∀ i, (S i).importing = if M (S i).client = some i then inFlight J H (S i).client else 0
  none : ∀ c, M c = none → inFlight J H c = 0
  shut : ∀ i, (S i).importing ≠ 0 → (S i).shut = false
  opener : ∀ i, (S i).state = .opening → ∃ o ∈ J, o.Opens (S i).client i (S i).stateSeq
  /-- The session was open already when the import came, or an entry before that of the import opens it. -/
  skip : ∀ (k : ℕ) clients m b pv, J[k]? = some (.imports clients m b pv) → ∀ c ∈ clients, m c = Option.none →
    ∀ i, M c = some i → (S i).state = .opening → ∃ k' < k, ∃ o, J[k']? = some o ∧ o.Opens c i (S i).stateSeq
  late : ∀ clients m b pv, Entry.imports clients m b pv ∈ J → ∀ c ∈ clients, ∀ q, m c = some q →
    ∀ i, M c = some i → q ≤ (S i).stateSeq ∧ (q = (S i).stateSeq → (S i).state = .opening)

theorem inFlight_pos {J : List Entry} {H : List (List ℕ)} {c : ℕ} {clients : List ℕ} {m : ℕ → Option ℕ} {b : Bool}
    {pv : ℕ} (he : Entry.imports clients m b pv ∈ J) (hc : c ∈ clients) : inFlight J H c ≠ 0 := by
  have hle := List.single_le_sum (l := J.map (Entry.importsOf c)) (fun _ _ => Nat.zero_le _) _
    (List.mem_map_of_mem he)
  have hpos := List.count_pos_iff.mpr hc
  simp only [Entry.importsOf] at hle
  unfold inFlight
  omega

namespace Tracked

variable {S : ℕ → Session} {M : ℕ → Option ℕ} {J : List Entry} {H : List (List ℕ)} {i : ℕ} {s : Session} {e : Entry}

/-- A client with an import in flight has a session in the map, which is not shut. -/
theorem session (h : Tracked S M J H) (hc : ∀ c i, M c = some i → (S i).client = c) {c : ℕ} (hf : inFlight J H c ≠ 0) :
    ∃ i, M c = some i ∧ (S i).importing = inFlight J H c ∧ (S i).shut = false := by
  cases hM : M c with
  | none => exact absurd (h.none c hM) hf
  | some i =>
    have hi := hc c i hM
    have hcount := h.count i
    rw [hi, if_pos hM] at hcount
    exact ⟨i, rfl, hcount, h.shut i (by omega)⟩

theorem importing_eq_zero (h : Tracked S M J H) (hs : (S i).shut = true) : (S i).importing = 0 := by
  by_contra hne
  have := h.shut i hne
  rw [hs] at this
  cases this

/-- A session that is shut has no import in flight. -/
theorem inFlight_eq_zero (h : Tracked S M J H) (hM : M (S i).client = some i) (hs : (S i).shut = true) :
    inFlight J H (S i).client = 0 := by
  have hcount := h.count i
  rw [if_pos hM, h.importing_eq_zero hs] at hcount
  exact hcount.symm

/-- A session changes, but does not begin to open. -/
theorem put (h : Tracked S M J H) (hc : s.client = (S i).client) (hi : s.importing = (S i).importing)
    (hsh : s.importing ≠ 0 → s.shut = false) (hq : (S i).stateSeq ≤ s.stateSeq)
    (hopen : s.state = .opening → (S i).state = .opening ∧ s.stateSeq = (S i).stateSeq)
    (hsame : s.stateSeq = (S i).stateSeq → s.state = (S i).state) : Tracked (Function.update S i s) M J H := by
  refine ⟨fun j => ?_, h.none, fun j => ?_, fun j => ?_, fun k clients m b pv hk c hcl hm j hM => ?_,
    fun clients m b pv he c hcl q hm j hM => ?_⟩ <;> by_cases hj : j = i
  · subst hj
    rw [Function.update_self, hc, hi]
    exact h.count j
  · rw [Function.update_of_ne hj]
    exact h.count j
  · subst hj
    rw [Function.update_self]
    exact hsh
  · rw [Function.update_of_ne hj]
    exact h.shut j
  · subst hj
    rw [Function.update_self, hc]
    intro hs
    obtain ⟨ho, hseq⟩ := hopen hs
    rw [hseq]
    exact h.opener j ho
  · rw [Function.update_of_ne hj]
    exact h.opener j
  · subst hj
    rw [Function.update_self]
    intro hs
    obtain ⟨ho, hseq⟩ := hopen hs
    rw [hseq]
    exact h.skip k clients m b pv hk c hcl hm j hM ho
  · rw [Function.update_of_ne hj]
    exact h.skip k clients m b pv hk c hcl hm j hM
  · subst hj
    obtain ⟨hle, heq⟩ := h.late clients m b pv he c hcl q hm j hM
    rw [Function.update_self]
    refine ⟨hle.trans hq, fun hnow => ?_⟩
    rw [hsame (by omega)]
    exact heq (by omega)
  · rw [Function.update_of_ne hj]
    exact h.late clients m b pv he c hcl q hm j hM

/-- An entry is submitted that is for no client's import. -/
theorem submit (h : Tracked S M J H) (he : ∀ clients m b pv, e = .imports clients m b pv → clients = []) :
    Tracked S M (J ++ [e]) H := by
  have hz : ∀ c, e.importsOf c = 0 := by
    intro c
    cases e with
    | imports clients m b pv =>
      cases he clients m b pv rfl
      rfl
    | session => rfl
    | update => rfl
  have hf : ∀ c, inFlight (J ++ [e]) H c = inFlight J H c := by
    intro c
    unfold inFlight
    rw [List.map_append, List.sum_append]
    simp [hz]
  refine ⟨fun j => ?_, fun c hM => ?_, h.shut, fun j hs => ?_, fun k clients m b pv hk c hcl hm j hM hs => ?_,
    fun clients m b pv hm => ?_⟩
  · rw [hf]
    exact h.count j
  · rw [hf]
    exact h.none c hM
  · obtain ⟨o, ho, hop⟩ := h.opener j hs
    exact ⟨o, List.mem_append_left _ ho, hop⟩
  · rw [List.getElem?_append] at hk
    split at hk
    · obtain ⟨k', hk', o, ho, hop⟩ := h.skip k clients m b pv hk c hcl hm j hM hs
      refine ⟨k', hk', o, ?_, hop⟩
      rw [List.getElem?_append_left (by omega)]
      exact ho
    · obtain ⟨_, heq⟩ := List.getElem?_eq_some_iff.mp hk
      rw [List.getElem_singleton] at heq
      cases he clients m b pv heq
      cases hcl
  · rcases List.mem_append.mp hm with hm | hm
    · exact h.late clients m b pv hm
    · cases he clients m b pv (List.mem_singleton.mp hm).symm
      exact fun c hcl => by cases hcl

/-- The head of the journal completes. It opens no session that is still opening, and is not for an import. -/
theorem tail (h : Tracked S M (e :: J) H) (he : ∀ c, e.importsOf c = 0)
    (hop : ∀ c i, e.Opens c i (S i).stateSeq → (S i).state ≠ .opening) : Tracked S M J H := by
  have hf : ∀ c, inFlight (e :: J) H c = inFlight J H c := by
    intro c
    unfold inFlight
    rw [List.map_cons, List.sum_cons, he, zero_add]
  refine ⟨fun j => ?_, fun c hM => ?_, h.shut, fun j hs => ?_, fun k clients m b pv hk c hcl hm j hM hs => ?_,
    fun clients m b pv hm => h.late clients m b pv (List.mem_cons_of_mem _ hm)⟩
  · rw [← hf]
    exact h.count j
  · rw [← hf]
    exact h.none c hM
  · obtain ⟨o, ho, hopens⟩ := h.opener j hs
    rcases List.mem_cons.mp ho with rfl | ho
    · exact absurd hs (hop _ j hopens)
    · exact ⟨o, ho, hopens⟩
  · obtain ⟨k', hk', o, ho, hopens⟩ := h.skip (k + 1) clients m b pv hk c hcl hm j hM hs
    cases k' with
    | zero =>
      cases ho
      exact absurd hs (hop _ j hopens)
    | succ k' => exact ⟨k', by omega, o, ho, hopens⟩

/-- A session of a client without imports begins to open, and goes into the map if it is not there. -/
theorem opens (h : Tracked S M J H) (hreg : ∀ c i, M c = some i → (S i).client = c)
    (hf : inFlight J H (S i).client = 0) (hM : M (S i).client = Option.none ∨ M (S i).client = some i)
    (hc : s.client = (S i).client) (hi : s.importing = 0) (pv piv : ℕ) (inos : Finset ℕ) :
    Tracked (Function.update S i s) (Function.update M (S i).client (some i))
      (J ++ [.session i s.stateSeq true pv inos piv]) H := by
  have hother : ∀ {c j}, c ≠ (S i).client → Function.update M (S i).client (some i) c = some j → M c = some j ∧ j ≠ i := by
    intro c j hne hj
    rw [Function.update_of_ne hne] at hj
    refine ⟨hj, ?_⟩
    rintro rfl
    exact hne (hreg c j hj).symm
  have hnot : ∀ {clients m b pv c}, Entry.imports clients m b pv ∈ J → c ∈ clients → c ≠ (S i).client := by
    intro clients m b pv c he hcl heq
    exact inFlight_pos he hcl (heq ▸ hf)
  have hf' : ∀ c, inFlight (J ++ [.session i s.stateSeq true pv inos piv]) H c = inFlight J H c := by
    intro c
    unfold inFlight
    rw [List.map_append, List.sum_append]
    simp [Entry.importsOf]
  refine ⟨fun j => ?_, fun c hN => ?_, fun j => ?_, fun j hsj => ?_, fun k clients m b pv hk c hcl hm j hMj hsj => ?_,
    fun clients m b pv he c hcl q hm j hMj => ?_⟩
  · rw [hf']
    by_cases hj : j = i
    · subst hj
      rw [Function.update_self, hi, hc, hf, ite_self]
    · rw [Function.update_of_ne hj]
      by_cases hcl : (S j).client = (S i).client
      · have hcount := h.count j
        rw [hcl] at hcount ⊢
        rw [Function.update_self, if_neg (fun he => hj (Option.some.inj he).symm), hcount]
        rcases hM with hM | hM
        · rw [hM, if_neg (by simp)]
        · rw [hM, if_neg (fun he => hj (Option.some.inj he).symm)]
      · rw [Function.update_of_ne hcl]
        exact h.count j
  · rw [hf']
    by_cases hcl : c = (S i).client
    · rw [hcl]
      exact hf
    · rw [Function.update_of_ne hcl] at hN
      exact h.none c hN
  · by_cases hj : j = i
    · subst hj
      rw [Function.update_self]
      exact fun hne => absurd hi hne
    · rw [Function.update_of_ne hj]
      exact h.shut j
  · by_cases hj : j = i
    · subst hj
      rw [Function.update_self]
      exact ⟨_, List.mem_append_right _ (List.mem_singleton.mpr rfl), rfl, rfl, rfl⟩
    · rw [Function.update_of_ne hj] at hsj ⊢
      obtain ⟨o, ho, hop⟩ := h.opener j hsj
      exact ⟨o, List.mem_append_left _ ho, hop⟩
  · rw [List.getElem?_append] at hk
    split at hk
    · obtain ⟨hMj', hj⟩ := hother (hnot (List.mem_of_getElem? hk) hcl) hMj
      rw [Function.update_of_ne hj] at hsj ⊢
      obtain ⟨k', hk', o, ho, hop⟩ := h.skip k clients m b pv hk c hcl hm j hMj' hsj
      refine ⟨k', hk', o, ?_, hop⟩
      rw [List.getElem?_append_left (by omega)]
      exact ho
    · have := List.mem_singleton.mp (List.mem_of_getElem? hk)
      cases this
  · rcases List.mem_append.mp he with he | he
    · obtain ⟨hMj', hj⟩ := hother (hnot he hcl) hMj
      rw [Function.update_of_ne hj]
      exact h.late clients m b pv he c hcl q hm j hMj'
    · have := List.mem_singleton.mp he
      cases this

/-- A session without imports leaves the map. -/
theorem remove (h : Tracked S M J H) (hreg : ∀ c i, M c = some i → (S i).client = c)
    (hf : inFlight J H (S i).client = 0) (hM : M (S i).client = some i) (hc : s.client = (S i).client)
    (hi : s.importing = 0) (hs : s.state ≠ .opening) :
    Tracked (Function.update S i s) (Function.update M (S i).client Option.none) J H := by
  have hother : ∀ {c j}, Function.update M (S i).client Option.none c = some j → M c = some j ∧ j ≠ i := by
    intro c j hj
    by_cases hcl : c = (S i).client
    · rw [hcl, Function.update_self] at hj
      cases hj
    · rw [Function.update_of_ne hcl] at hj
      refine ⟨hj, ?_⟩
      rintro rfl
      exact hcl (hreg c j hj).symm
  refine ⟨fun j => ?_, fun c hN => ?_, fun j => ?_, fun j hsj => ?_, fun k clients m b pv hk c hcl hm j hMj hsj => ?_,
    fun clients m b pv he c hcl q hm j hMj => ?_⟩
  · by_cases hj : j = i
    · subst hj
      rw [Function.update_self, hi, hc, hf, ite_self]
    · rw [Function.update_of_ne hj]
      by_cases hcl : (S j).client = (S i).client
      · have hcount := h.count j
        rw [hcl, hM, if_neg (fun he => hj (Option.some.inj he).symm)] at hcount
        rw [hcount, hcl, hf, ite_self]
      · rw [Function.update_of_ne hcl]
        exact h.count j
  · by_cases hcl : c = (S i).client
    · rw [hcl]
      exact hf
    · rw [Function.update_of_ne hcl] at hN
      exact h.none c hN
  · by_cases hj : j = i
    · subst hj
      rw [Function.update_self]
      exact fun hne => absurd hi hne
    · rw [Function.update_of_ne hj]
      exact h.shut j
  · by_cases hj : j = i
    · subst hj
      rw [Function.update_self] at hsj
      exact absurd hsj hs
    · rw [Function.update_of_ne hj] at hsj ⊢
      exact h.opener j hsj
  · obtain ⟨hMj', hj⟩ := hother hMj
    rw [Function.update_of_ne hj] at hsj ⊢
    exact h.skip k clients m b pv hk c hcl hm j hMj' hsj
  · obtain ⟨hMj', hj⟩ := hother hMj
    rw [Function.update_of_ne hj]
    exact h.late clients m b pv he c hcl q hm j hMj'

/-- A session that is not in the map is made anew. -/
theorem new (h : Tracked S M J H) (hno : ∀ c, M c ≠ some i) (hi : s.importing = 0) (hs : s.state = .closed) :
    Tracked (Function.update S i s) M J H := by
  have hne : ∀ {c j}, M c = some j → j ≠ i := by
    rintro c j hM rfl
    exact hno c hM
  refine ⟨fun j => ?_, h.none, fun j => ?_, fun j hsj => ?_, fun k clients m b pv hk c hcl hm j hM hsj => ?_,
    fun clients m b pv he c hcl q hm j hM => ?_⟩
  · by_cases hj : j = i
    · subst hj
      rw [Function.update_self, hi, if_neg (hno _)]
    · rw [Function.update_of_ne hj]
      exact h.count j
  · by_cases hj : j = i
    · subst hj
      rw [Function.update_self]
      exact fun hne => absurd hi hne
    · rw [Function.update_of_ne hj]
      exact h.shut j
  · by_cases hj : j = i
    · subst hj
      rw [Function.update_self, hs] at hsj
      cases hsj
    · rw [Function.update_of_ne hj] at hsj ⊢
      exact h.opener j hsj
  · rw [Function.update_of_ne (hne hM)] at hsj ⊢
    exact h.skip k clients m b pv hk c hcl hm j hM hsj
  · rw [Function.update_of_ne (hne hM)]
    exact h.late clients m b pv he c hcl q hm j hM

/-- The imports that are held are counted anew, where they differ only in one client. -/
theorem recount (h : Tracked S M J H) (H' : List (List ℕ)) {c : ℕ} (hreg : ∀ c i, M c = some i → (S i).client = c)
    (hM : M c = some i) (hother : ∀ c', c' ≠ c → inFlight J H' c' = inFlight J H c') (hne : (S i).importing ≠ 0) :
    Tracked (Function.update S i { S i with importing := inFlight J H' c }) M J H' := by
  have hi := hreg c i hM
  refine ⟨fun j => ?_, fun c' hN => ?_, fun j => ?_, fun j => ?_, fun k clients m b pv hk c' hcl hm j hMj => ?_,
    fun clients m b pv he c' hcl q hm j hMj => ?_⟩
  · by_cases hj : j = i
    · subst hj
      rw [Function.update_self]
      show inFlight J H' c = if M (S j).client = some j then inFlight J H' (S j).client else 0
      rw [hi, if_pos hM]
    · rw [Function.update_of_ne hj, h.count j]
      by_cases hcl : (S j).client = c
      · rw [hcl, hM, if_neg (fun he => hj (Option.some.inj he).symm), if_neg (fun he => hj (Option.some.inj he).symm)]
      · rw [hother _ hcl]
  · rw [hother c' (by rintro rfl; rw [hM] at hN; cases hN)]
    exact h.none c' hN
  · by_cases hj : j = i
    · subst hj
      rw [Function.update_self]
      exact fun _ => h.shut j hne
    · rw [Function.update_of_ne hj]
      exact h.shut j
  · by_cases hj : j = i
    · subst hj
      rw [Function.update_self]
      exact h.opener j
    · rw [Function.update_of_ne hj]
      exact h.opener j
  · by_cases hj : j = i
    · subst hj
      rw [Function.update_self]
      exact h.skip k clients m b pv hk c' hcl hm j hMj
    · rw [Function.update_of_ne hj]
      exact h.skip k clients m b pv hk c' hcl hm j hMj
  · by_cases hj : j = i
    · subst hj
      rw [Function.update_self]
      exact h.late clients m b pv he c' hcl q hm j hMj
    · rw [Function.update_of_ne hj]
      exact h.late clients m b pv he c' hcl q hm j hMj

theorem congr (h : Tracked S M J H) {H' : List (List ℕ)} (hf : ∀ c, inFlight J H' c = inFlight J H c) :
    Tracked S M J H' :=
  ⟨fun j => by rw [hf]; exact h.count j, fun c hN => by rw [hf]; exact h.none c hN, h.shut, h.opener, h.skip, h.late⟩

/-! ## An import that announces its clients -/

section Announce

variable {clients : List ℕ} {m m' : ℕ → Option ℕ} {b : Bool} {pv c : ℕ}

theorem inFlight_announce (c' : ℕ) : inFlight (J ++ [.imports (clients ++ [c]) m' b pv]) H c' =
    inFlight (J ++ [.imports clients m b pv]) H c' + if c = c' then 1 else 0 := by
  unfold inFlight
  simp only [List.map_append, List.sum_append, List.map_cons, List.map_nil, List.sum_singleton, Entry.importsOf,
    List.count_append, List.count_singleton, beq_iff_eq]
  omega

/-- What the last import found opening is opened by an entry before it. -/
theorem opened_before {j : ℕ} (h : Tracked S M (J ++ [.imports clients m b pv]) H) (hc : c ∈ clients)
    (hm : m c = Option.none) (hM : M c = some j) (hs : (S j).state = .opening) :
    ∃ o ∈ J, o.Opens c j (S j).stateSeq := by
  obtain ⟨k, hk, o, ho, hop⟩ := h.skip J.length clients m b pv (by simp) c hc hm j hM hs
  rw [List.getElem?_append_left hk] at ho
  exact ⟨o, List.mem_of_getElem? ho, hop⟩

/-- `skip` with another last entry `e`, if the journal before it opens what it found opening. -/
theorem skip_concat {e' : Entry} {k j v : ℕ} {l : List ℕ} {m₀ : ℕ → Option ℕ} {b₀ : Bool}
    (h : Tracked S M (J ++ [e']) H) (hk : (J ++ [e])[k]? = some (.imports l m₀ b₀ v)) (hcl : c ∈ l)
    (hm : m₀ c = Option.none) (hM : M c = some j) (hs : (S j).state = .opening)
    (hlast : e = .imports l m₀ b₀ v → ∃ o ∈ J, o.Opens c j (S j).stateSeq) :
    ∃ k' < k, ∃ o, (J ++ [e])[k']? = some o ∧ o.Opens c j (S j).stateSeq := by
  rw [List.getElem?_append] at hk
  split at hk
  case isTrue hlt =>
    have hk' : (J ++ [e'])[k]? = some (.imports l m₀ b₀ v) := (List.getElem?_append_left hlt).trans hk
    obtain ⟨k', hlt', o, ho, hop⟩ := h.skip k l m₀ b₀ v hk' c hcl hm j hM hs
    refine ⟨k', hlt', o, ?_, hop⟩
    rw [List.getElem?_append_left (by omega)] at ho ⊢
    exact ho
  case isFalse hge =>
    obtain ⟨hlen, heq⟩ := List.getElem?_eq_some_iff.mp hk
    rw [List.getElem_singleton] at heq
    obtain ⟨o, ho, hop⟩ := hlast heq
    obtain ⟨k', hk', hget⟩ := List.getElem_of_mem ho
    refine ⟨k', by omega, o, ?_, hop⟩
    rw [List.getElem?_append_left hk', List.getElem?_eq_getElem hk', hget]

/-- The import names a client whose session is not shut. -/
theorem announce (h : Tracked S M (J ++ [.imports clients m b pv]) H) (hreg : ∀ c i, M c = some i → (S i).client = c)
    (hM : M c = some i) (hsh : (S i).shut = false) (hdom : c ∉ clients → m c = Option.none) :
    Tracked (Function.update S i { S i with importing := (S i).importing + 1 }) M
      (J ++ [.imports (clients ++ [c]) m b pv]) H := by
  have hi := hreg c i hM
  have hstate : ∀ j, (Function.update S i { S i with importing := (S i).importing + 1 } j).client = (S j).client ∧
      (Function.update S i { S i with importing := (S i).importing + 1 } j).state = (S j).state ∧
      (Function.update S i { S i with importing := (S i).importing + 1 } j).stateSeq = (S j).stateSeq := by
    intro j
    by_cases hj : j = i
    · subst hj
      rw [Function.update_self]
      exact ⟨rfl, rfl, rfl⟩
    · rw [Function.update_of_ne hj]
      exact ⟨rfl, rfl, rfl⟩
  have hopens : ∀ {c' j q}, Entry.Opens c' j q (.imports clients m b pv) →
      Entry.Opens c' j q (.imports (clients ++ [c]) m b pv) :=
    fun ho => ⟨List.mem_append_left _ ho.1, ho.2⟩
  refine ⟨fun j => ?_, fun c' hN => ?_, fun j => ?_, fun j hs => ?_, fun k l m₀ b₀ v hk c' hcl hm j hMj hs => ?_,
    fun l m₀ b₀ v he c' hcl q hm j hMj => ?_⟩
  · rw [(hstate j).1, inFlight_announce (m := m)]
    by_cases hj : j = i
    · subst hj
      rw [Function.update_self, h.count j, hi, if_pos hM, if_pos hM, if_pos rfl]
    · rw [Function.update_of_ne hj, h.count j]
      by_cases hcl : (S j).client = c
      · rw [hcl, hM, if_neg (fun he => hj (Option.some.inj he).symm), if_neg (fun he => hj (Option.some.inj he).symm)]
      · rw [if_neg (Ne.symm hcl), add_zero]
  · have hne : c ≠ c' := by
      rintro rfl
      rw [hM] at hN
      cases hN
    rw [inFlight_announce (m := m), if_neg hne, add_zero]
    exact h.none c' hN
  · by_cases hj : j = i
    · subst hj
      rw [Function.update_self]
      exact fun _ => hsh
    · rw [Function.update_of_ne hj]
      exact h.shut j
  · rw [(hstate j).2.1] at hs
    rw [(hstate j).1, (hstate j).2.2]
    obtain ⟨o, ho, hop⟩ := h.opener j hs
    rcases List.mem_append.mp ho with ho | ho
    · exact ⟨o, List.mem_append_left _ ho, hop⟩
    · cases List.mem_singleton.mp ho
      exact ⟨_, List.mem_append_right _ (List.mem_singleton.mpr rfl), hopens hop⟩
  · rw [(hstate j).2.1] at hs
    rw [(hstate j).2.2]
    refine h.skip_concat hk hcl hm hMj hs fun heq => ?_
    cases heq
    -- the session was opening before the import came, so an entry of the journal opens it
    by_cases hmem : c' ∈ clients
    · exact h.opened_before hmem hm hMj hs
    · obtain ⟨o, ho, hop⟩ := h.opener j hs
      rw [hreg c' j hMj] at hop
      rcases List.mem_append.mp ho with ho | ho
      · exact ⟨o, ho, hop⟩
      · cases List.mem_singleton.mp ho
        exact absurd hop.1 hmem
  · rw [(hstate j).2.1, (hstate j).2.2]
    rcases List.mem_append.mp he with he | he
    · exact h.late l m₀ b₀ v (List.mem_append_left _ he) c' hcl q hm j hMj
    · cases List.mem_singleton.mp he
      refine h.late clients m b pv (List.mem_append_right _ (List.mem_singleton.mpr rfl)) c' ?_ q hm j hMj
      by_contra hmem
      rcases List.mem_append.mp hcl with hcl | hcl
      · exact hmem hcl
      · cases List.mem_singleton.mp hcl
        rw [hdom hmem] at hm
        cases hm

/-- The import names a client without imports, and opens its session, which goes into the map if it is not there. -/
theorem announceOpen (h : Tracked S M (J ++ [.imports clients m b pv]) H)
    (hreg : ∀ c i, M c = some i → (S i).client = c)
    (hf : inFlight (J ++ [.imports clients m b pv]) H (S i).client = 0)
    (hM : M (S i).client = Option.none ∨ M (S i).client = some i) (hc : s.client = (S i).client) (hi : s.importing = 1)
    (hs : s.state = .opening) :
    Tracked (Function.update S i s) (Function.update M (S i).client (some i))
      (J ++ [.imports (clients ++ [(S i).client]) (Function.update m (S i).client (some s.stateSeq)) b pv]) H := by
  have hother : ∀ {c j}, c ≠ (S i).client → Function.update M (S i).client (some i) c = some j → M c = some j ∧ j ≠ i := by
    intro c j hne hj
    rw [Function.update_of_ne hne] at hj
    refine ⟨hj, ?_⟩
    rintro rfl
    exact hne (hreg c j hj).symm
  have hnot : ∀ {l m₀ b₀ v c}, Entry.imports l m₀ b₀ v ∈ J ++ [.imports clients m b pv] → c ∈ l → c ≠ (S i).client := by
    intro l m₀ b₀ v c he hcl heq
    exact inFlight_pos he hcl (heq ▸ hf)
  have hlast : Entry.imports clients m b pv ∈ J ++ [.imports clients m b pv] :=
    List.mem_append_right _ (List.mem_singleton.mpr rfl)
  refine ⟨fun j => ?_, fun c hN => ?_, fun j => ?_, fun j hsj => ?_, fun k l m₀ b₀ v hk c hcl hm j hMj hsj => ?_,
    fun l m₀ b₀ v he c hcl q hm j hMj => ?_⟩
  · rw [inFlight_announce (m := m)]
    by_cases hj : j = i
    · subst hj
      rw [Function.update_self, hi, hc, Function.update_self, if_pos rfl, if_pos rfl, hf]
    · rw [Function.update_of_ne hj]
      by_cases hcl : (S j).client = (S i).client
      · have hcount := h.count j
        rw [hcl] at hcount ⊢
        rw [Function.update_self, if_neg (fun he => hj (Option.some.inj he).symm), hcount, hf, ite_self]
      · rw [Function.update_of_ne hcl, if_neg (Ne.symm hcl), add_zero]
        exact h.count j
  · have hne : c ≠ (S i).client := by
      rintro rfl
      rw [Function.update_self] at hN
      cases hN
    rw [Function.update_of_ne hne] at hN
    rw [inFlight_announce (m := m), if_neg (Ne.symm hne), add_zero]
    exact h.none c hN
  · by_cases hj : j = i
    · subst hj
      rw [Function.update_self]
      intro _
      simp [Session.shut, hs]
    · rw [Function.update_of_ne hj]
      exact h.shut j
  · by_cases hj : j = i
    · subst hj
      rw [Function.update_self, hc]
      exact ⟨_, List.mem_append_right _ (List.mem_singleton.mpr rfl),
        List.mem_append_right _ (List.mem_singleton.mpr rfl), Function.update_self ..⟩
    · rw [Function.update_of_ne hj] at hsj ⊢
      obtain ⟨o, ho, hop⟩ := h.opener j hsj
      rcases List.mem_append.mp ho with ho | ho
      · exact ⟨o, List.mem_append_left _ ho, hop⟩
      · cases List.mem_singleton.mp ho
        refine ⟨_, List.mem_append_right _ (List.mem_singleton.mpr rfl), List.mem_append_left _ hop.1, ?_⟩
        rw [Function.update_of_ne (hnot hlast hop.1)]
        exact hop.2
  · have hne : c ≠ (S i).client := by
      rcases List.mem_append.mp (List.mem_of_getElem? hk) with he | he
      · exact hnot (List.mem_append_left _ he) hcl
      · cases List.mem_singleton.mp he
        rintro rfl
        rw [Function.update_self] at hm
        cases hm
    obtain ⟨hMj', hj⟩ := hother hne hMj
    rw [Function.update_of_ne hj] at hsj ⊢
    refine h.skip_concat hk hcl hm hMj' hsj fun heq => ?_
    cases heq
    rw [Function.update_of_ne hne] at hm
    refine h.opened_before ?_ hm hMj' hsj
    rcases List.mem_append.mp hcl with hcl | hcl
    · exact hcl
    · exact absurd (List.mem_singleton.mp hcl) hne
  · rcases List.mem_append.mp he with he | he
    · obtain ⟨hMj', hj⟩ := hother (hnot (List.mem_append_left _ he) hcl) hMj
      rw [Function.update_of_ne hj]
      exact h.late l m₀ b₀ v (List.mem_append_left _ he) c hcl q hm j hMj'
    · cases List.mem_singleton.mp he
      by_cases hne : c = (S i).client
      · subst hne
        rw [Function.update_self] at hm hMj
        cases hm
        cases hMj
        rw [Function.update_self]
        exact ⟨le_rfl, fun _ => hs⟩
      · rw [Function.update_of_ne hne] at hm
        obtain ⟨hMj', hj⟩ := hother hne hMj
        rw [Function.update_of_ne hj]
        refine h.late clients m b pv hlast c ?_ q hm j hMj'
        rcases List.mem_append.mp hcl with hcl | hcl
        · exact hcl
        · exact absurd (List.mem_singleton.mp hcl) hne

end Announce

/-! ## An import that is safe -/

section Finish

variable {clients : List ℕ} {m : ℕ → Option ℕ} {b : Bool} {pv c : ℕ}

/-- The session of a client that the import still has to do with is not shut. -/
theorem shut_eq_false (h : Tracked S M (.imports (c :: clients) m b pv :: J) H)
    (hreg : ∀ c i, M c = some i → (S i).client = c) (hM : M c = some i) : (S i).shut = false := by
  have hpos := inFlight_pos (H := H) (List.mem_cons_self (a := Entry.imports (c :: clients) m b pv) (l := J))
    List.mem_cons_self
  have hcount := h.count i
  rw [hreg c i hM, if_pos hM] at hcount
  exact h.shut i (by omega)

/-- The import is through with `c`: `skip`, unless it was the one to open the session of `c`. -/
theorem skip_tail {k c' j v : ℕ} {l : List ℕ} {m₀ : ℕ → Option ℕ} {b₀ : Bool}
    (h : Tracked S M (.imports (c :: clients) m b pv :: J) H)
    (hk : (.imports clients m b pv :: J)[k]? = some (.imports l m₀ b₀ v)) (hcl : c' ∈ l) (hm : m₀ c' = Option.none)
    (hM : M c' = some j) (hs : (S j).state = .opening)
    (hopens : Entry.Opens c' j (S j).stateSeq (.imports (c :: clients) m b pv) →
      Entry.Opens c' j (S j).stateSeq (.imports clients m b pv)) :
    ∃ k' < k, ∃ o, (.imports clients m b pv :: J)[k']? = some o ∧ o.Opens c' j (S j).stateSeq := by
  cases k with
  | zero =>
    cases hk
    obtain ⟨k', hk', -⟩ := h.skip 0 (c :: clients) m b pv rfl c' (List.mem_cons_of_mem _ hcl) hm j hM hs
    omega
  | succ k =>
    obtain ⟨k', hk', o, hget, hop⟩ := h.skip (k + 1) l m₀ b₀ v hk c' hcl hm j hM hs
    cases k' with
    | zero =>
      cases hget
      exact ⟨0, by omega, _, rfl, hopens hop⟩
    | succ k' => exact ⟨k' + 1, hk', o, hget, hop⟩

/-- The import is through with its next client, whose session it has opened if it had announced that. -/
theorem finish (h : Tracked S M (.imports (c :: clients) m b pv :: J) H)
    (hreg : ∀ c i, M c = some i → (S i).client = c)
    (hmap : ∀ j, (S j).state = .opening → M (S j).client = some j) (hM : M c = some i) (hc : s.client = (S i).client)
    {H' : List (List ℕ)}
    (hi : s.importing = inFlight (.imports clients m b pv :: J) H' c)
    (hother : ∀ c', c' ≠ c → inFlight (.imports clients m b pv :: J) H' c' =
      inFlight (.imports (c :: clients) m b pv :: J) H c')
    (hs : (s.state = (S i).state ∧ s.stateSeq = (S i).stateSeq ∧ ∀ q, m c = some q → q ≠ (S i).stateSeq) ∨
      (s.state = .opened ∧ s.stateSeq = (S i).stateSeq + 1)) :
    Tracked (Function.update S i s) M (.imports clients m b pv :: J) H' := by
  have hi' := hreg c i hM
  have hopening : s.state = .opening → (S i).state = .opening ∧ s.stateSeq = (S i).stateSeq ∧
      ∀ q, m c = some q → q ≠ (S i).stateSeq := by
    intro ho
    rcases hs with ⟨h₁, h₂, h₃⟩ | ⟨h₁, -⟩
    · exact ⟨h₁ ▸ ho, h₂, h₃⟩
    · rw [h₁] at ho
      cases ho
  -- an entry that opens a session which is still opening does so after the import has finished `c`, too
  have hopens : ∀ {c' j}, M c' = some j → (Function.update S i s j).state = .opening →
      Entry.Opens c' j (S j).stateSeq (.imports (c :: clients) m b pv) →
      Entry.Opens c' j (S j).stateSeq (.imports clients m b pv) := by
    rintro c' j hMj hsj ⟨hmem, hm⟩
    refine ⟨?_, hm⟩
    rcases List.mem_cons.mp hmem with rfl | hmem
    · have hij : i = j := Option.some.inj (hM.symm.trans hMj)
      subst hij
      rw [Function.update_self] at hsj
      exact absurd rfl ((hopening hsj).2.2 _ hm)
    · exact hmem
  have hseq : ∀ j, (Function.update S i s j).state = .opening →
      (S j).state = .opening ∧ (Function.update S i s j).stateSeq = (S j).stateSeq := by
    intro j hsj
    by_cases hj : j = i
    · subst hj
      rw [Function.update_self] at hsj ⊢
      exact ⟨(hopening hsj).1, (hopening hsj).2.1⟩
    · rw [Function.update_of_ne hj] at hsj ⊢
      exact ⟨hsj, rfl⟩
  refine ⟨fun j => ?_, fun c' hN => ?_, fun j => ?_, fun j hsj => ?_, fun k l m₀ b₀ v hk c' hcl hm j hMj hsj => ?_,
    fun l m₀ b₀ v he c' hcl q hm j hMj => ?_⟩
  · by_cases hj : j = i
    · subst hj
      rw [Function.update_self, hc, hi', if_pos hM]
      exact hi
    · rw [Function.update_of_ne hj, h.count j]
      by_cases hcl : (S j).client = c
      · rw [hcl, hM, if_neg (fun he => hj (Option.some.inj he).symm), if_neg (fun he => hj (Option.some.inj he).symm)]
      · rw [hother _ hcl]
  · rw [hother c' (by rintro rfl; rw [hM] at hN; cases hN)]
    exact h.none c' hN
  · by_cases hj : j = i
    · subst hj
      rw [Function.update_self]
      intro _
      have hsh := h.shut_eq_false hreg hM
      rcases hs with ⟨h₁, -⟩ | ⟨h₁, -⟩
      · unfold Session.shut at hsh ⊢
        rw [h₁]
        exact hsh
      · simp [Session.shut, h₁]
    · rw [Function.update_of_ne hj]
      exact h.shut j
  · obtain ⟨ho, hq⟩ := hseq j hsj
    have hcl : (Function.update S i s j).client = (S j).client := by
      by_cases hj : j = i
      · subst hj
        rw [Function.update_self, hc]
      · rw [Function.update_of_ne hj]
    rw [hq, hcl]
    obtain ⟨o, hmem, hop⟩ := h.opener j ho
    rcases List.mem_cons.mp hmem with rfl | hmem
    · exact ⟨_, List.mem_cons_self, hopens (hmap j ho) hsj hop⟩
    · exact ⟨o, List.mem_cons_of_mem _ hmem, hop⟩
  · obtain ⟨ho, hq⟩ := hseq j hsj
    rw [hq]
    exact h.skip_tail hk hcl hm hMj ho (hopens hMj hsj)
  · have hold : q ≤ (S j).stateSeq ∧ (q = (S j).stateSeq → (S j).state = .opening) := by
      rcases List.mem_cons.mp he with he | he
      · cases he
        exact h.late (c :: clients) m b pv List.mem_cons_self c' (List.mem_cons_of_mem _ hcl) q hm j hMj
      · exact h.late l m₀ b₀ v (List.mem_cons_of_mem _ he) c' hcl q hm j hMj
    by_cases hj : j = i
    · subst hj
      rw [Function.update_self]
      rcases hs with ⟨h₁, h₂, -⟩ | ⟨-, h₂⟩
      · rw [h₁, h₂]
        exact hold
      · rw [h₂]
        exact ⟨by omega, fun hq => by omega⟩
    · rw [Function.update_of_ne hj]
      exact hold

end Finish

end Tracked

end CephMds.Sessions
