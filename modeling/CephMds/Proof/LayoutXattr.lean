import CephMds.Model.LayoutXattr

/-!
# Which layouts can be set at once

The fields are set in the order of the keys, and each is followed by the tests
(`fields_eq_ok`). What is tested after the object size is the new object size
with the stripe unit and the pool of before. So a valid layout may be refused
(`parseLayoutVxattr_iff`).
-/

namespace CephMds.LayoutXattr

variable {c : Maps} {l l' : Layout} {ps : List Pair} {k v : List Char} {m : Std.ExtTreeMap (List Char) (List Char)}

/-! ## The map -/

theorem getElem?_receive (ps : List Pair) (k : List Char) :
    (receive ps)[k]? = (ps.find? fun p => p.1 = k).map Prod.snd := by
  have hfold : ∀ (ps : List Pair) (m : Std.ExtTreeMap (List Char) (List Char)),
      (ps.foldl (fun m p => m.insertIfNew p.1 p.2) m)[k]? = m[k]?.or ((ps.find? fun p => p.1 = k).map Prod.snd) := by
    intro ps
    induction ps with
    | nil => simp
    | cons p ps ih =>
      intro m
      rw [List.foldl_cons, ih, Std.ExtTreeMap.getElem?_insertIfNew]
      by_cases hk : p.1 = k
      · subst hk
        rw [List.find?_cons_of_pos (by simp)]
        cases hm : m[p.1]? with
        | none => simp [Std.ExtTreeMap.mem_iff_isSome_getElem?, hm]
        | some v => simp [Std.ExtTreeMap.mem_iff_isSome_getElem?, hm]
      · rw [List.find?_cons_of_neg (by simpa using hk), if_neg (by simp [hk])]
  rw [receive, hfold]
  simp

theorem mem_of_getElem?_receive (h : (receive ps)[k]? = some v) : (k, v) ∈ ps := by
  rw [getElem?_receive, Option.map_eq_some_iff] at h
  obtain ⟨p, hp, rfl⟩ := h
  have hkey := List.find?_some hp
  rw [decide_eq_true_eq] at hkey
  rw [← hkey]
  exact List.mem_of_find?_eq_some hp

/-- Where each key is written once, the order of the pairs is of no matter. -/
theorem receive_perm {qs : List Pair} (h : qs.Perm ps) (hnodup : (ps.map Prod.fst).Nodup) : receive qs = receive ps := by
  apply Std.ExtTreeMap.ext_getElem?
  intro k
  have honce : ∀ {rs : List Pair}, (rs.map Prod.fst).Nodup → ∀ v, (receive rs)[k]? = some v ↔ (k, v) ∈ rs := by
    intro rs hrs v
    refine ⟨mem_of_getElem?_receive, fun hmem => ?_⟩
    cases hv : (receive rs)[k]? with
    | none =>
      rw [getElem?_receive, Option.map_eq_none_iff, List.find?_eq_none] at hv
      exact absurd (hv (k, v) hmem) (by simp)
    | some v' =>
      have := List.inj_on_of_nodup_map hrs (mem_of_getElem?_receive hv) hmem rfl
      exact congrArg (fun p : Pair => some p.2) this
  apply Option.ext
  intro v
  rw [honce ((h.map Prod.fst).nodup_iff.mpr hnodup), honce hnodup, h.mem_iff]

/-- The keys in their order. -/
def keys : List (List Char) := [objectSize, pool, stripeCount, stripeUnit]

/-- A map of these keys is gone through in this order. -/
theorem toList_eq (hm : ∀ k v, m[k]? = some v → k ∈ keys) : m.toList = keys.filterMap fun k => m[k]?.map fun v => (k, v) := by
  have hkeys : keys.Pairwise fun k k' => compare k k' = .lt := by decide
  have hfilter : (keys.filterMap fun k => m[k]?.map fun v => (k, v)).Pairwise fun p q => compare p.1 q.1 = .lt := by
    refine List.Pairwise.filterMap _ ?_ hkeys
    intro k k' hlt p hp q hq
    obtain ⟨_, _, rfl⟩ := Option.map_eq_some_iff.mp hp
    obtain ⟨_, _, rfl⟩ := Option.map_eq_some_iff.mp hq
    exact hlt
  have hasymm : ∀ p q : Pair, compare p.1 q.1 = .lt → compare q.1 p.1 ≠ .lt := fun p q h h' => by
    rw [Std.OrientedCmp.gt_of_lt h] at h'
    cases h'
  have hnodup : ∀ {ps : List Pair}, ps.Pairwise (fun p q => compare p.1 q.1 = .lt) → ps.Nodup := fun h =>
    h.imp fun {p q} hlt he => by
      subst he
      exact hasymm p p hlt hlt
  refine List.Perm.eq_of_pairwise (fun p q _ _ hpq hqp => absurd hqp (hasymm p q hpq)) m.ordered_keys_toList hfilter
    ((List.perm_ext_iff_of_nodup (hnodup m.ordered_keys_toList) (hnodup hfilter)).mpr ?_)
  rintro ⟨k, v⟩
  rw [Std.ExtTreeMap.mem_toList_iff_getElem?_eq_some, List.mem_filterMap]
  constructor
  · intro h
    exact ⟨k, hm k v h, by rw [h]; rfl⟩
  · rintro ⟨k', -, h⟩
    obtain ⟨v', hv', he⟩ := Option.map_eq_some_iff.mp h
    cases he
    exact hv'

/-! ## Fields -/

/-- The pool that a value stands for. -/
def poolOf (c : Maps) (v : List Char) : UInt32 := (lexicalCast v).getD (.ofInt (c.lookupPgPoolName v))

/-- The number that a value stands for. -/
def numberOf (v : List Char) : UInt32 := (lexicalCast v).getD 0

/-- A known key with a number, or with a data pool that exists. -/
def Known (c : Maps) (p : Pair) : Prop :=
  p.1 ∈ [objectSize, stripeCount, stripeUnit] ∧ (lexicalCast p.2).isSome = true ∨
    p.1 = pool ∧ ((lexicalCast p.2).isSome = true ∨ 0 ≤ c.lookupPgPoolName p.2) ∧ c.isDataPool (poolOf c p.2) = true

/-- The layout with one field replaced, where its key is given. -/
def Layout.replacing (c : Maps) (m : Std.ExtTreeMap (List Char) (List Char)) (l : Layout) (k : List Char) : Layout :=
  match m[k]? with
  | none => l
  | some v =>
    if k = objectSize then { l with flObjectSize := numberOf v }
    else if k = stripeUnit then { l with flStripeUnit := numberOf v }
    else if k = stripeCount then { l with flStripeCount := numberOf v }
    else { l with flPgPool := poolOf c v }

/-- The layout with all the fields replaced that are given. -/
def Layout.replaced (c : Maps) (m : Std.ExtTreeMap (List Char) (List Char)) (l : Layout) : Layout where
  flStripeUnit := (m[stripeUnit]?).elim l.flStripeUnit numberOf
  flStripeCount := (m[stripeCount]?).elim l.flStripeCount numberOf
  flObjectSize := (m[objectSize]?).elim l.flObjectSize numberOf
  flPgPool := (m[pool]?).elim l.flPgPool (poolOf c)

theorem setNumber_eq {set : UInt32 → Layout} (h : (lexicalCast v).isSome = true) :
    setNumber v set = .ok (set (numberOf v)) := by
  obtain ⟨n, hn⟩ := Option.isSome_iff_exists.mp h
  rw [setNumber, numberOf, hn]
  rfl

theorem replacing_objectSize : l.replacing c m objectSize =
    { l with flObjectSize := (m[objectSize]?).elim l.flObjectSize numberOf } := by
  rw [Layout.replacing]
  cases m[objectSize]? with
  | none => rfl
  | some v => exact if_pos rfl

theorem replacing_stripeUnit : l.replacing c m stripeUnit =
    { l with flStripeUnit := (m[stripeUnit]?).elim l.flStripeUnit numberOf } := by
  rw [Layout.replacing]
  cases m[stripeUnit]? with
  | none => rfl
  | some v => exact (if_neg (by decide)).trans (if_pos rfl)

theorem replacing_stripeCount : l.replacing c m stripeCount =
    { l with flStripeCount := (m[stripeCount]?).elim l.flStripeCount numberOf } := by
  rw [Layout.replacing]
  cases m[stripeCount]? with
  | none => rfl
  | some v => exact (if_neg (by decide)).trans ((if_neg (by decide)).trans (if_pos rfl))

theorem replacing_pool : l.replacing c m pool = { l with flPgPool := (m[pool]?).elim l.flPgPool (poolOf c) } := by
  rw [Layout.replacing]
  cases m[pool]? with
  | none => rfl
  | some v => exact (if_neg (by decide)).trans ((if_neg (by decide)).trans (if_neg (by decide)))

/-- Setting a field that is known. -/
theorem setField_eq (h : Known c (k, v)) (hm : m[k]? = some v) (l : Layout) :
    setField c l k v = .ok (l.replacing c m k) := by
  rcases h with ⟨hk, hv⟩ | ⟨hk, hv, -⟩
  · dsimp only at hk hv
    simp only [List.mem_cons, List.not_mem_nil, or_false] at hk
    rcases hk with rfl | rfl | rfl
    · rw [replacing_objectSize, hm, setField, if_pos rfl, setNumber_eq hv]
      rfl
    · rw [replacing_stripeCount, hm, setField, if_neg (by decide), if_neg (by decide), if_pos rfl, setNumber_eq hv]
      rfl
    · rw [replacing_stripeUnit, hm, setField, if_neg (by decide), if_pos rfl, setNumber_eq hv]
      rfl
  · dsimp only at hk hv
    subst hk
    rw [replacing_pool, hm, setField, if_neg (by decide), if_neg (by decide), if_neg (by decide), if_pos rfl]
    show _ = Except.ok { l with flPgPool := poolOf c v }
    rw [poolOf]
    cases hn : lexicalCast v with
    | some n => rfl
    | none =>
      have hge := hv.resolve_left (by rw [hn]; exact Bool.false_ne_true)
      exact if_neg (not_lt.mpr hge)

/-- What the tests ask for. -/
def Layout.Accepted (c : Maps) (l : Layout) : Prop := l.isValid = true ∧ c.isDataPool l.flPgPool = true

theorem check_eq_ok : check c l = .ok l' ↔ l.Accepted c ∧ l' = l := by
  rw [check, Layout.Accepted]
  cases l.isValid <;> cases c.isDataPool l.flPgPool <;> simp [eq_comm]

/-- The places of a list: the first one, and those of the rest. -/
theorem forall_split_cons {α : Type*} {P : List α → α → Prop} {a : α} {l : List α} :
    (∀ l₁ x l₂, a :: l = l₁ ++ x :: l₂ → P l₁ x) ↔ P [] a ∧ ∀ l₁ x l₂, l = l₁ ++ x :: l₂ → P (a :: l₁) x := by
  constructor
  · exact fun h => ⟨h [] a l rfl, fun l₁ x l₂ he => h (a :: l₁) x l₂ (by rw [he]; rfl)⟩
  · rintro ⟨h0, h⟩ l₁ x l₂ he
    cases l₁ with
    | nil =>
      cases he
      exact h0
    | cons b l₁ =>
      cases he
      exact h l₁ x l₂ rfl

theorem forall_split_nil {α : Type*} {P : List α → α → Prop} : ∀ l₁ x l₂, ([] : List α) = l₁ ++ x :: l₂ → P l₁ x :=
  fun _ _ _ he => absurd he.symm (List.append_ne_nil_of_right_ne_nil _ (List.cons_ne_nil _ _))

/-- The fields one after the other. -/
theorem fields_eq_ok (ks : List (List Char)) (hm : ∀ k v, m[k]? = some v → Known c (k, v)) :
    (ks.filterMap fun k => m[k]?.map fun v => (k, v)).foldlM (parseLayoutField c) l = .ok l' ↔
      l' = ks.foldl (Layout.replacing c m) l ∧
        ∀ ks₁ k ks₂, ks = ks₁ ++ k :: ks₂ → m[k]?.isSome = true →
          ((ks₁ ++ [k]).foldl (Layout.replacing c m) l).Accepted c := by
  induction ks generalizing l with
  | nil =>
    show Except.ok l = Except.ok l' ↔ _
    rw [Except.ok.injEq, List.foldl_nil, eq_comm (a := l)]
    exact ⟨fun h => ⟨h, forall_split_nil⟩, fun h => h.1⟩
  | cons k ks ih =>
    rw [forall_split_cons (P := fun ks₁ k' => m[k']?.isSome = true →
      ((ks₁ ++ [k']).foldl (Layout.replacing c m) l).Accepted c)]
    cases hk : m[k]? with
    | none =>
      have hsame : l.replacing c m k = l := by rw [Layout.replacing, hk]
      rw [List.filterMap_cons_none (by rw [hk]; rfl), ih]
      simp only [List.foldl_cons, List.cons_append, hsame, Option.isSome_none, Bool.false_eq_true, false_implies, true_and]
    | some v =>
      rw [List.filterMap_cons_some (by rw [hk]; rfl), List.foldlM_cons, parseLayoutField, setField_eq (hm k v hk) hk]
      simp only [List.foldl_cons, List.cons_append, List.nil_append, List.foldl_nil, Option.isSome_some, true_implies]
      show (check c (l.replacing c m k) >>= fun l => List.foldlM (parseLayoutField c) l _) = .ok l' ↔ _
      constructor
      · intro h
        cases hcheck : check c (l.replacing c m k) with
        | error e =>
          rw [hcheck] at h
          cases h
        | ok l₁ =>
          rw [hcheck] at h
          obtain ⟨hacc, rfl⟩ := check_eq_ok.mp hcheck
          obtain ⟨hl', hrest⟩ := ih.mp h
          exact ⟨hl', hacc, hrest⟩
      · rintro ⟨hl', hacc, hrest⟩
        rw [check_eq_ok.mpr ⟨hacc, rfl⟩]
        exact ih.mpr ⟨hl', hrest⟩

theorem foldl_keys : keys.foldl (Layout.replacing c m) l = l.replaced c m := by
  show (((l.replacing c m objectSize).replacing c m pool).replacing c m stripeCount).replacing c m stripeUnit = _
  rw [replacing_stripeUnit, replacing_stripeCount, replacing_pool, replacing_objectSize]
  rfl

/-! ## The whole -/

theorem known_receive (hps : ∀ p ∈ ps, Known c p) : ∀ k v, (receive ps)[k]? = some v → Known c (k, v) :=
  fun _ _ h => hps _ (mem_of_getElem?_receive h)

theorem Known.mem_keys (h : Known c (k, v)) : k ∈ keys := by
  rcases h with ⟨hk, -⟩ | ⟨hk, -, -⟩
  · dsimp only at hk
    simp only [List.mem_cons, List.not_mem_nil, or_false] at hk
    rcases hk with rfl | rfl | rfl <;> decide
  · dsimp only at hk
    subst hk
    decide

/-- What is accepted: the tests succeed after each field that is given, and at the end. -/
theorem parseLayoutVxattr_eq_ok {value : List Char} (hvalue : query value = some (ps, [])) (hps : ∀ p ∈ ps, Known c p) :
    parseLayoutVxattr c value l = .ok l' ↔ l' = l.replaced c (receive ps) ∧
      ((receive ps)[objectSize]?.isSome = true →
        Layout.Accepted c { l with flObjectSize := (l.replaced c (receive ps)).flObjectSize }) ∧
      ((receive ps)[pool]?.isSome = true →
        Layout.Accepted c { l with
          flObjectSize := (l.replaced c (receive ps)).flObjectSize
          flPgPool := (l.replaced c (receive ps)).flPgPool }) ∧
      ((receive ps)[stripeCount]?.isSome = true →
        Layout.Accepted c { l.replaced c (receive ps) with flStripeUnit := l.flStripeUnit }) ∧
      (l.replaced c (receive ps)).Accepted c := by
  have hm := known_receive hps
  have hfields := fun l' => @fields_eq_ok c l l' (receive ps) keys hm
  rw [← toList_eq fun k v h => (hm k v h).mem_keys] at hfields
  have hsplit : ∀ P : List (List Char) → List Char → Prop, (∀ ks₁ k ks₂, keys = ks₁ ++ k :: ks₂ → P ks₁ k) ↔
      P [] objectSize ∧ P [objectSize] pool ∧ P [objectSize, pool] stripeCount ∧
        P [objectSize, pool, stripeCount] stripeUnit := by
    intro P
    rw [keys, forall_split_cons, forall_split_cons, forall_split_cons, forall_split_cons]
    simp
  have hfields' : ∀ l', (receive ps).toList.foldlM (parseLayoutField c) l = .ok l' ↔ _ :=
    fun l' => (hfields l').trans (and_congr Iff.rfl (hsplit fun ks₁ k => (receive ps)[k]?.isSome = true →
      ((ks₁ ++ [k]).foldl (Layout.replacing c (receive ps)) l).Accepted c))
  have h4 : ([objectSize, pool, stripeCount] ++ [stripeUnit]).foldl (Layout.replacing c (receive ps)) l =
      l.replaced c (receive ps) := foldl_keys
  have h3 : ([objectSize, pool] ++ [stripeCount]).foldl (Layout.replacing c (receive ps)) l =
      { l.replaced c (receive ps) with flStripeUnit := l.flStripeUnit } := by
    show ((l.replacing c _ objectSize).replacing c _ pool).replacing c _ stripeCount = _
    rw [replacing_stripeCount, replacing_pool, replacing_objectSize]
    rfl
  have h2 : ([objectSize] ++ [pool]).foldl (Layout.replacing c (receive ps)) l = { l with
      flObjectSize := (l.replaced c (receive ps)).flObjectSize
      flPgPool := (l.replaced c (receive ps)).flPgPool } := by
    show (l.replacing c _ objectSize).replacing c _ pool = _
    rw [replacing_pool, replacing_objectSize]
    rfl
  have h1 : ([] ++ [objectSize]).foldl (Layout.replacing c (receive ps)) l =
      { l with flObjectSize := (l.replaced c (receive ps)).flObjectSize } := replacing_objectSize
  simp only [h1, h2, h3, h4, foldl_keys] at hfields'
  rw [parseLayoutVxattr, hvalue]
  show ((receive ps).toList.foldlM (parseLayoutField c) l >>= check c) = .ok l' ↔ _
  constructor
  · intro h
    cases hrun : (receive ps).toList.foldlM (parseLayoutField c) l with
    | error e =>
      rw [hrun] at h
      cases h
    | ok l₁ =>
      rw [hrun] at h
      obtain ⟨hacc, rfl⟩ := check_eq_ok.mp h
      obtain ⟨rfl, hos, hpool, hsc, -⟩ := (hfields' l').mp hrun
      exact ⟨rfl, hos, hpool, hsc, hacc⟩
  · rintro ⟨rfl, hos, hpool, hsc, hacc⟩
    rw [(hfields' _).mpr ⟨rfl, hos, hpool, hsc, fun _ => hacc⟩]
    exact check_eq_ok.mpr ⟨hacc, rfl⟩

theorem isValid_iff : l.isValid = true ↔ isAligned l.flStripeUnit = true ∧ isAligned l.flObjectSize = true ∧
    l.flObjectSize % l.flStripeUnit = 0 ∧ l.flStripeCount ≠ 0 := by
  rw [Layout.isValid]
  simp [and_assoc]

/-- With a valid layout before, the tests in between ask for no more than that the new object size
is a multiple of the old stripe unit, and the old pool is a data pool where it is tested. -/
theorem accepted_iff (hl : l.isValid = true) (hps : ∀ p ∈ ps, Known c p)
    (htarget : (l.replaced c (receive ps)).isValid = true) :
    (∃ l', l' = l.replaced c (receive ps) ∧
      ((receive ps)[objectSize]?.isSome = true →
        Layout.Accepted c { l with flObjectSize := (l.replaced c (receive ps)).flObjectSize }) ∧
      ((receive ps)[pool]?.isSome = true →
        Layout.Accepted c { l with
          flObjectSize := (l.replaced c (receive ps)).flObjectSize
          flPgPool := (l.replaced c (receive ps)).flPgPool }) ∧
      ((receive ps)[stripeCount]?.isSome = true →
        Layout.Accepted c { l.replaced c (receive ps) with flStripeUnit := l.flStripeUnit }) ∧
      (l.replaced c (receive ps)).Accepted c) ↔
    ((receive ps)[objectSize]?.isSome = true → (l.replaced c (receive ps)).flObjectSize % l.flStripeUnit = 0) ∧
      ((receive ps)[objectSize]?.isSome = true ∨ (receive ps)[pool]?.isSome = false → c.isDataPool l.flPgPool = true) := by
  obtain ⟨hu, ho, hm, hs⟩ := isValid_iff.mp hl
  obtain ⟨hu', ho', hm', hs'⟩ := isValid_iff.mp htarget
  have hpool : (receive ps)[pool]?.isSome = true → c.isDataPool (l.replaced c (receive ps)).flPgPool = true := by
    intro h
    obtain ⟨v, hv⟩ := Option.isSome_iff_exists.mp h
    rcases hps _ (mem_of_getElem?_receive hv) with ⟨hk, -⟩ | ⟨-, -, hp⟩
    · exact absurd hk (show pool ∉ [objectSize, stripeCount, stripeUnit] by decide)
    · show c.isDataPool ((receive ps)[pool]?.elim l.flPgPool (poolOf c)) = true
      rw [hv]
      exact hp
  have hsame : (receive ps)[pool]?.isSome = false → (l.replaced c (receive ps)).flPgPool = l.flPgPool := by
    intro h
    show (receive ps)[pool]?.elim l.flPgPool (poolOf c) = _
    rw [Option.isSome_eq_false_iff, Option.isNone_iff_eq_none] at h
    rw [h]
    rfl
  have hsize : (receive ps)[objectSize]?.isSome = false → (l.replaced c (receive ps)).flObjectSize = l.flObjectSize := by
    intro h
    show (receive ps)[objectSize]?.elim l.flObjectSize numberOf = _
    rw [Option.isSome_eq_false_iff, Option.isNone_iff_eq_none] at h
    rw [h]
    rfl
  simp only [Layout.Accepted, isValid_iff, exists_eq_left, hu, ho', hs, hs', hu', hm', true_and, and_true, ne_eq,
    not_false_eq_true]
  cases hos : (receive ps)[objectSize]?.isSome <;> cases hp : (receive ps)[pool]?.isSome
  · rw [hsame hp, hsize hos]
    simp only [hm, Bool.false_eq_true, false_implies, true_implies, or_true, true_and]
    tauto
  · rw [hsize hos]
    simp [hm, hpool hp]
  · rw [hsame hp]
    simp only [Bool.false_eq_true, false_implies, true_implies, true_or, true_and]
    tauto
  · simp only [hpool hp, true_implies, and_true]
    tauto

/-- A whole layout can be set exactly if it is valid, and is then as asked for, exactly if it is not
valid, or the object size is a multiple of the stripe unit of before where it is given, and the pool
of before is a data pool, unless the pool is given and the object size is not. The order of the
keys is of no matter. -/
theorem parseLayoutVxattr_iff (c : Maps) {l : Layout} (hl : l.isValid = true) {value : List Char}
    (hvalue : query value = some (ps, [])) (hps : ∀ p ∈ ps, Known c p) :
    ((∀ l', parseLayoutVxattr c value l = .ok l' ↔
        (l.replaced c (receive ps)).isValid = true ∧ l' = l.replaced c (receive ps)) ↔
      ((l.replaced c (receive ps)).isValid = true →
        ((receive ps)[objectSize]?.isSome = true → (l.replaced c (receive ps)).flObjectSize % l.flStripeUnit = 0) ∧
        ((receive ps)[objectSize]?.isSome = true ∨ (receive ps)[pool]?.isSome = false →
          c.isDataPool l.flPgPool = true))) ∧
    ∀ value' qs, query value' = some (qs, []) → qs.Perm ps → (ps.map Prod.fst).Nodup →
      parseLayoutVxattr c value' l = parseLayoutVxattr c value l := by
  constructor
  · have hok := fun l' => @parseLayoutVxattr_eq_ok c l l' ps value hvalue hps
    constructor
    · intro h htarget
      rw [← accepted_iff hl hps htarget]
      exact ⟨_, (hok _).mp ((h _).mpr ⟨htarget, rfl⟩)⟩
    · intro h l'
      constructor
      · intro hparse
        obtain ⟨rfl, -, -, -, hacc⟩ := (hok l').mp hparse
        exact ⟨hacc.1, rfl⟩
      · rintro ⟨htarget, rfl⟩
        obtain ⟨l', rfl, hacc⟩ := (accepted_iff hl hps htarget).mpr (h htarget)
        exact (hok _).mpr ⟨rfl, hacc⟩
  · intro value' qs hvalue' hperm hnodup
    rw [parseLayoutVxattr, parseLayoutVxattr, hvalue, hvalue']
    dsimp only
    rw [receive_perm hperm hnodup]

/-- There is one pool, 0. -/
def onePool : Maps := ⟨fun _ => -1, fun p => p = 0⟩

/-- A stripe unit and an object size of 64 KiB. -/
def smallUnits : List Char :=
  stripeUnit ++ ['=', '6', '5', '5', '3', '6', ' '] ++ objectSize ++ ['=', '6', '5', '5', '3', '6']

/-- The stripe unit alone can be set to 64 KiB. -/
theorem parseLayoutVxattr_unit :
    parseLayoutVxattr onePool (stripeUnit ++ ['=', '6', '5', '5', '3', '6']) ⟨4194304, 1, 4194304, 0⟩ =
      .ok ⟨65536, 1, 4194304, 0⟩ := by
  have hquery : query (stripeUnit ++ ['=', '6', '5', '5', '3', '6']) =
      some ([(stripeUnit, ['6', '5', '5', '3', '6'])], []) := by decide +kernel
  have hknown : ∀ p ∈ [(stripeUnit, ['6', '5', '5', '3', '6'])], Known onePool p := by
    intro p hp
    rw [List.mem_singleton.mp hp]
    exact .inl ⟨by decide, by decide +kernel⟩
  refine (((parseLayoutVxattr_iff onePool (l := ⟨4194304, 1, 4194304, 0⟩) (by decide) hquery hknown).1.mpr ?_) _).mpr ?_
  · exact fun _ => ⟨fun h => absurd h (by decide +kernel), fun _ => by decide⟩
  · decide +kernel

/-- Both at once cannot: the object size is tested with the old stripe unit. -/
theorem not_parseLayoutVxattr : ∃ ps, query smallUnits = some (ps, []) ∧ (∀ p ∈ ps, Known onePool p) ∧
    Layout.isValid ⟨4194304, 1, 4194304, 0⟩ = true ∧
    ¬∀ l', parseLayoutVxattr onePool smallUnits ⟨4194304, 1, 4194304, 0⟩ = .ok l' ↔
      (Layout.replaced onePool (receive ps) ⟨4194304, 1, 4194304, 0⟩).isValid = true ∧
        l' = Layout.replaced onePool (receive ps) ⟨4194304, 1, 4194304, 0⟩ := by
  refine ⟨[(stripeUnit, ['6', '5', '5', '3', '6']), (objectSize, ['6', '5', '5', '3', '6'])], by decide +kernel,
    fun p hp => ?_, by decide, fun h => ?_⟩
  · rcases List.mem_cons.mp hp with rfl | hp
    · exact .inl ⟨by decide, by decide +kernel⟩
    · rw [List.mem_singleton.mp hp]
      exact .inl ⟨by decide, by decide +kernel⟩
  · have hok := (h _).mpr ⟨by decide +kernel, rfl⟩
    have herror : parseLayoutVxattr onePool smallUnits ⟨4194304, 1, 4194304, 0⟩ = .error .einval := by decide +kernel
    rw [herror] at hok
    cases hok

end CephMds.LayoutXattr
