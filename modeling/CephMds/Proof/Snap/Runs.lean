import CephMds.Framework.Run
import CephMds.Proof.Snap.Contexts

/-!
# The contexts of a client in its runs

A split moves children below the new realm, without a look at what
`adjust_realm_parent` returns: their contexts are invalidated only with the new
realm itself, by the first entry of the trace. And an inode that is listed twice
is moved twice. So the realms stay `Current` in the runs whose splits are `fair`.
-/

namespace CephMds.Snap

open Checked Writes Ancestry

variable {rs rs' : Realms} {r x p q : ℕ} {realm realm' parent : Realm} {n : ℕ → ℕ} {D : ℕ → Prop}
  {inodes : Std.ExtTreeMap ℕ ℕ} {ino split created : ℕ} {c c' : Client}

/-! ## Inodes -/

/-- The references that the inodes have to a realm. -/
def refs (inodes : Std.ExtTreeMap ℕ ℕ) (r : ℕ) : ℕ := tally (fun x => x == r) inodes

theorem refs_insert (h : inodes[ino]? = none) (r : ℕ) : refs (inodes.insert ino r) = inc (refs inodes) r := by
  funext x
  rw [refs, tally_insert _ h]
  by_cases hx : x = r
  · rw [hx, inc_self, beq_self_eq_true]
    rfl
  · rw [inc_of_ne _ hx, beq_false_of_ne (Ne.symm hx)]
    rfl

theorem refs_eq (h : inodes[ino]? = some r) : refs inodes = inc (refs (inodes.erase ino)) r := by
  funext x
  rw [refs, tally_erase _ h]
  by_cases hx : x = r
  · rw [hx, inc_self, beq_self_eq_true]
    rfl
  · rw [inc_of_ne _ hx, beq_false_of_ne (Ne.symm hx)]
    rfl

theorem refs_erase (h : inodes[ino]? = some r) : refs (inodes.erase ino) = dec (refs inodes) r := by
  rw [refs_eq h, dec_inc]

theorem refs_ne_zero (h : inodes[ino]? = some r) : refs inodes r ≠ 0 := by
  rw [refs_eq h, inc_self]
  exact Nat.succ_ne_zero _

/-- The inodes without those that are being moved. -/
def rest (inodes : Std.ExtTreeMap ℕ ℕ) (toMove : List ℕ) : Std.ExtTreeMap ℕ ℕ :=
  toMove.foldl (fun m ino => m.erase ino) inodes

theorem getElem?_rest (inodes : Std.ExtTreeMap ℕ ℕ) (toMove : List ℕ) (x : ℕ) :
    (rest inodes toMove)[x]? = if x ∈ toMove then none else inodes[x]? := by
  induction toMove generalizing inodes with
  | nil => simp [rest]
  | cons ino toMove ih =>
    show (rest (inodes.erase ino) toMove)[x]? = _
    rw [ih, getElem?_erase]
    by_cases hx : x = ino
    · simp [hx]
    · simp [hx]

/-! ## Splits -/

/-- The realms of `rs'` are realms of `rs`. -/
def Kept (rs rs' : Realms) : Prop := ∀ (x : ℕ) (realm' : Realm), rs'[x]? = some realm' →
  ∃ realm : Realm, rs[x]? = some realm ∧ realm.Same realm'

theorem Kept.refl (rs : Realms) : Kept rs rs := fun _ realm h => ⟨realm, h, .refl realm⟩

theorem Kept.trans {rs'' : Realms} (h : Kept rs rs') (h' : Kept rs' rs'') : Kept rs rs'' := by
  intro x realm'' hx
  obtain ⟨realm', hx', hs'⟩ := h' x realm'' hx
  obtain ⟨realm, hx, hs⟩ := h x realm' hx'
  exact ⟨realm, hx, hs.trans hs'⟩

theorem Sub.kept (h : Sub rs rs') : Kept rs rs' := by
  intro x realm' hx
  obtain ⟨realm, hx, hs, -⟩ := h x realm' hx
  exact ⟨realm, hx, hs⟩

theorem Recached.kept (h : Recached rs rs') : Kept rs rs' := by
  intro x realm' hx
  obtain ⟨realm, hx, he⟩ := h.back hx
  refine ⟨realm, hx, ?_⟩
  rw [he]
  exact ⟨rfl, rfl, rfl, rfl, rfl, rfl, rfl⟩

/-- What was below `q` is so among the realms that are left. -/
theorem Sub.below (h : Sub rs rs') (hs : Shape rs') (hx : rs'[x]? = some realm') (ha : Above (Snap.par rs) x q) :
    Above (Snap.par rs') x q := by
  induction ha using Relation.ReflTransGen.head_induction_on generalizing realm' with
  | refl => exact .refl q
  | @head y p hyp _ ih =>
    obtain ⟨realm, hy, hsame, -⟩ := h y realm' hx
    have hyp' : Snap.par rs' y = some p := by rw [par_eq hx, hsame.2.2.2.2.2.2, ← par_eq hy, hyp]
    obtain ⟨realm₁, hp⟩ := hs.closed y p hyp'
    exact .step hyp' (ih hp)

/-- The inode is in an older realm than the new one. -/
def Client.moves (c : Client) (split created ino : ℕ) : Bool :=
  match c.inodes[ino]? with
  | none => false
  | some r => r != split && (c.realms[r]?).all fun realm => decide (realm.created ≤ created)

theorem splitInode_returns {toMove : List ℕ} (created : ℕ) (h : Sound (inc (refs (rest c.inodes toMove)) split) rs)
    (hkept : Kept (c.realms.getSnapRealm split) rs) (hino : ino ∉ toMove) :
    ∃ rs', splitInode split created c.inodes (rs, toMove) ino =
        .ok (rs', toMove ++ if c.moves split created ino then [ino] else []) ∧
      Sound (inc (refs (rest c.inodes (toMove ++ if c.moves split created ino then [ino] else []))) split) rs' ∧
      Kept (c.realms.getSnapRealm split) rs' := by
  have hstay : c.moves split created ino = false →
      toMove ++ (if c.moves split created ino then [ino] else []) = toMove := by
    intro hm
    rw [hm, if_neg Bool.false_ne_true, List.append_nil]
  rw [splitInode]
  rcases Option.eq_none_or_eq_some c.inodes[ino]? with hr | ⟨r, hr⟩
  · have hm : c.moves split created ino = false := by
      rw [Client.moves, hr]
    rw [hstay hm, hr]
    exact ⟨rs, rfl, h, hkept⟩
  simp only [hr]
  by_cases hsplit : r = split
  · have hm : c.moves split created ino = false := by
      rw [Client.moves, hr]
      simp [hsplit]
    rw [hstay hm, if_pos hsplit]
    exact ⟨rs, rfl, h, hkept⟩
  rw [if_neg hsplit]
  have hrest : (rest c.inodes toMove)[ino]? = some r := by rw [getElem?_rest, if_neg hino, hr]
  have hn : inc (refs (rest c.inodes toMove)) split r ≠ 0 := by
    rw [inc_of_ne _ hsplit]
    exact refs_ne_zero hrest
  obtain ⟨old, hold⟩ := h.counted.alive r hn
  obtain ⟨old₀, hold₀, hsame⟩ := hkept r old hold
  rw [Realms.getSnapRealm, getElem?_insert, if_neg hsplit] at hold₀
  have hm : c.moves split created ino = decide (old.created ≤ created) := by
    rw [Client.moves, hr, hsame.2.1]
    simp [hsplit, hold₀]
  rw [hold, deref_some_bind]
  by_cases hcreated : old.created > created
  · rw [if_pos hcreated]
    rw [decide_eq_false (Nat.not_le.mpr hcreated)] at hm
    rw [hstay hm]
    exact ⟨rs, rfl, h, hkept⟩
  · rw [if_neg hcreated]
    rw [decide_eq_true (Nat.not_lt.mp hcreated)] at hm
    rw [hm, if_pos rfl]
    obtain ⟨ctx, rs₁, hok₁, hrec, hv₁, -⟩ := context_returns h.shape h.valid (fun _ _ _ hp => hp) hold
    have h₁ := h.recached hrec hv₁
    obtain ⟨rs₂, hok₂, h₂, hsub⟩ := h₁.put hn
    have hrefs : dec (inc (refs (rest c.inodes toMove)) split) r = inc (refs (rest c.inodes (toMove ++ [ino]))) split := by
      have he : rest c.inodes (toMove ++ [ino]) = (rest c.inodes toMove).erase ino := by
        rw [rest, List.foldl_append]
        rfl
      rw [he, refs_erase hrest, inc, dec, Function.update_of_ne hsplit, inc, dec,
        Function.update_of_ne (Ne.symm hsplit), Function.update_comm (Ne.symm hsplit)]
    rw [hrefs] at h₂
    refine ⟨rs₂, ?_, h₂, hkept.trans (hrec.kept.trans hsub.kept)⟩
    rw [hok₁]
    show (rs₁.put r >>= _) = _
    rw [hok₂]
    rfl

/-- The inodes are taken out of their realms. -/
theorem splitInodes_returns (l : List ℕ) {toMove : List ℕ} (h : Sound (inc (refs (rest c.inodes toMove)) split) rs)
    (hkept : Kept (c.realms.getSnapRealm split) rs) (hmoves : ∀ ino ∈ toMove, c.moves split created ino = true)
    (hnd : (toMove ++ l.filter (c.moves split created)).Nodup) :
    ∃ rs', l.foldlM (splitInode split created c.inodes) (rs, toMove) =
        .ok (rs', toMove ++ l.filter (c.moves split created)) ∧
      Sound (inc (refs (rest c.inodes (toMove ++ l.filter (c.moves split created)))) split) rs' ∧
      Kept (c.realms.getSnapRealm split) rs' := by
  induction l generalizing rs toMove with
  | nil =>
    rw [List.filter_nil, List.append_nil]
    exact ⟨rs, rfl, h, hkept⟩
  | cons ino l ih =>
    have hsplit : toMove ++ (ino :: l).filter (c.moves split created) =
        (toMove ++ if c.moves split created ino then [ino] else []) ++ l.filter (c.moves split created) := by
      rw [List.filter_cons]
      split
      · rw [List.append_assoc]
        rfl
      · rw [List.append_nil]
    have hino : ino ∉ toMove := by
      intro hmem
      rw [List.filter_cons, if_pos (hmoves ino hmem)] at hnd
      exact (List.nodup_append.mp hnd).2.2 ino hmem ino List.mem_cons_self rfl
    obtain ⟨rs₁, hok₁, h₁, hkept₁⟩ := splitInode_returns created h hkept hino
    have hmoves₁ : ∀ x ∈ toMove ++ (if c.moves split created ino then [ino] else []),
        c.moves split created x = true := by
      intro x hx
      rcases List.mem_append.mp hx with hx | hx
      · exact hmoves x hx
      · split at hx
        · rename_i hm
          rw [List.mem_singleton.mp hx, hm]
        · cases hx
    rw [hsplit] at hnd ⊢
    obtain ⟨rs', hok', h', hkept'⟩ := ih h₁ hkept₁ hmoves₁ hnd
    refine ⟨rs', ?_, h', hkept'⟩
    rw [List.foldlM_cons, hok₁]
    exact hok'

/-- The realms while children are moved below the new one: what is stale is below it. -/
structure Splitting (n : ℕ → ℕ) (split : ℕ) (stale : Prop) (children : List ℕ) (rs₀ rs : Realms) : Prop where
  shape : Shape rs
  counted : Counted n rs
  valid : Valid (fun x => stale ∧ Above (par rs) x split) rs
  kept : ∀ realm', rs[split]? = some realm' → ∃ realm : Realm, rs₀[split]? = some realm ∧ realm.Same realm'
  same : ¬ stale → ∀ child ∈ children, child ≠ split → ∀ realm : Realm, rs[child]? = some realm → realm.parent = split

theorem Splitting.getSnapRealm {stale : Prop} {children : List ℕ} {rs₀ : Realms}
    (h : Splitting n split stale children rs₀ rs) (hr : rs[r]? = some realm) :
    Splitting (inc n r) split stale children rs₀ (rs.getSnapRealm r) := by
  obtain ⟨hs, hc, hpar⟩ := getSnapRealm_spec h.shape h.counted r
  have hback : ∀ (x : ℕ) (realm' : Realm), (rs.getSnapRealm r)[x]? = some realm' →
      ∃ realm : Realm, rs[x]? = some realm ∧ realm.Same realm' := by
    intro x realm' hx
    rw [Realms.getSnapRealm, hr, getElem?_insert] at hx
    split at hx
    · rename_i he
      cases hx
      rw [he]
      exact ⟨realm, hr, rfl, rfl, rfl, rfl, rfl, rfl, rfl⟩
    · exact ⟨realm', hx, .refl _⟩
  refine ⟨hs, hc, ?_, fun realm' hx => ?_, fun hst child hch hne realm' hx => ?_⟩
  · rw [hpar]
    exact h.valid.getSnapRealm r
  · obtain ⟨realm₁, hx₁, hsame₁⟩ := hback split realm' hx
    obtain ⟨realm₀, hx₀, hsame₀⟩ := h.kept realm₁ hx₁
    exact ⟨realm₀, hx₀, hsame₀.trans hsame₁⟩
  · obtain ⟨realm₁, hx₁, hsame₁⟩ := hback child realm' hx
    rw [hsame₁.2.2.1]
    exact h.same hst child hch hne realm₁ hx₁

theorem Splitting.put {stale : Prop} {children : List ℕ} {rs₀ : Realms}
    (h : Splitting n split stale children rs₀ rs) (hn : n r ≠ 0) :
    ∃ rs', rs.put r = .ok rs' ∧ Splitting (dec n r) split stale children rs₀ rs' := by
  obtain ⟨rs', hok, hs, hc, hsub⟩ := put_returns h.shape h.counted hn
  refine ⟨rs', hok, hs, hc, ?_, fun realm' hx => ?_, fun hst child hch hne realm' hx => ?_⟩
  · exact (h.valid.sub hsub hs).mono fun x realm' hx hD => ⟨hD.1, Sub.below hsub hs hx hD.2⟩
  · obtain ⟨realm₁, hx₁, hsame₁⟩ := hsub.kept split realm' hx
    obtain ⟨realm₀, hx₀, hsame₀⟩ := h.kept realm₁ hx₁
    exact ⟨realm₀, hx₀, hsame₀.trans hsame₁⟩
  · obtain ⟨realm₁, hx₁, hsame₁⟩ := hsub.kept child realm' hx
    rw [hsame₁.2.2.1]
    exact h.same hst child hch hne realm₁ hx₁

/-- A child that is moved is stale with all that is below it. -/
theorem Splitting.moved {stale : Prop} {children : List ℕ} {rs₀ : Realms}
    (h : Splitting n split stale children rs₀ rs) (hn : n split ≠ 0) (hst : stale) (hm : Moved n r split rs rs') :
    Splitting n split stale children rs₀ rs' := by
  have hne : split ≠ r := by
    rintro rfl
    exact hm.apart (.refl split)
  refine ⟨hm.shape, hm.counted, ?_, fun realm' hx => ?_, fun hnst => absurd hst hnst⟩
  · refine (hm.valid _ h.valid).mono fun x realm' hx hD => ⟨hst, ?_⟩
    rcases hD with hD | hD
    · exact hm.below_parent hx hD.2
    · exact hD.trans (.step hm.parent (.refl split))
  · obtain ⟨realm₁, hx₁, hsame₁⟩ := hm.kept split hne hn realm' hx
    obtain ⟨realm₀, hx₀, hsame₀⟩ := h.kept realm₁ hx₁
    exact ⟨realm₀, hx₀, hsame₀.trans hsame₁⟩

theorem splitRealm_ends {stale : Prop} {children : List ℕ} {rs₀ : Realms} {child : ℕ}
    (h : Splitting n split stale children rs₀ rs) (hn : n split ≠ 0) (hchild : child ∈ children) :
    Ends (splitRealm split rs child) (Splitting n split stale children rs₀) := by
  rw [splitRealm]
  rcases Option.eq_none_or_eq_some rs[child]? with hr | ⟨realm, hr⟩
  · rw [hr]
    exact h
  simp only [hr]
  have h₁ := h.getSnapRealm hr
  have hnc : inc n child child ≠ 0 := by
    rw [inc_self]
    exact Nat.succ_ne_zero _
  have hns : inc n child split ≠ 0 := by
    by_cases he : split = child
    · rw [he]
      exact hnc
    · rwa [inc_of_ne _ he]
  obtain ⟨realm₁, hr₁⟩ := h₁.counted.alive child hnc
  have hput : ∀ rs₂, Splitting (inc n child) split stale children rs₀ rs₂ →
      Ends (rs₂.put child) (Splitting n split stale children rs₀) := by
    intro rs₂ h₂
    obtain ⟨rs', hok, h'⟩ := h₂.put hnc
    rw [dec_inc] at h'
    exact ends_of_returns ⟨rs', hok, h'⟩
  refine (adjustRealmParent_ends h₁.shape h₁.counted hnc hr₁ split).bind ?_
  rintro ⟨invalidate, rs₂⟩ (⟨ho, -⟩ | ⟨-, hp, hm⟩)
  · cases ho
    exact hput _ h₁
  · refine hput rs₂ (h₁.moved hns ?_ hm)
    by_contra hst
    have hne : child ≠ split := by
      rintro rfl
      exact hm.apart (.refl child)
    exact hp (h₁.same hst child hchild hne realm₁ hr₁)

/-- The inodes are put into the new realm. -/
theorem moveInodes_sound {l : List ℕ} (hnd : l.Nodup) (h : Sound (inc (refs (rest c.inodes l)) split) c.realms) :
    Sound (inc (refs (l.foldl (moveInodes split) c).inodes) split) (l.foldl (moveInodes split) c).realms := by
  induction l generalizing c with
  | nil => exact h
  | cons ino l ih =>
    obtain ⟨hino, hnd'⟩ := List.nodup_cons.mp hnd
    refine ih hnd' ?_
    have he : rest (moveInodes split c ino).inodes l = (rest c.inodes (ino :: l)).insert ino split := by
      refine Std.ExtTreeMap.ext_getElem? fun x => ?_
      rw [getElem?_rest, getElem?_insert, getElem?_rest, moveInodes, getElem?_insert]
      by_cases hx : x = ino
      · simp [hx, hino]
      · simp [hx]
    have hnone : (rest c.inodes (ino :: l))[ino]? = none := by
      rw [getElem?_rest, if_pos List.mem_cons_self]
    rw [he, refs_insert hnone]
    exact h.getSnapRealm split

/-- A split whose trace begins with something new about the new realm, or that moves no realm that
is known, and that lists the inodes to be moved once. -/
def Client.fair (c : Client) : Action → Bool
  | .split split infos splitInos splitRealms =>
    match infos.head? with
    | none => true
    | some info =>
      decide (splitInos.filter (c.moves split info.created)).Nodup &&
        (info.invalidates c.realms ||
          splitRealms.all fun child => (c.realms[child]?).all fun realm => realm.parent == split)
  | _ => true

theorem handleSplit_sound {infos : List Info} {splitInos splitRealms : List ℕ} (h : Sound (refs c.inodes) c.realms)
    (hfair : c.fair (.split split infos splitInos splitRealms) = true)
    (hok : c.handleSplit split infos splitInos splitRealms = .ok c') : Sound (refs c'.inodes) c'.realms := by
  cases infos with
  | nil =>
    rw [Client.handleSplit] at hok
    obtain ⟨-, -, hok⟩ := bind_ok.mp hok
    cases hok
  | cons info infos =>
    rw [Client.fair, List.head?_cons] at hfair
    dsimp only at hfair
    rw [Bool.and_eq_true, decide_eq_true_eq, Bool.or_eq_true, List.all_eq_true] at hfair
    obtain ⟨hnd, hmoved⟩ := hfair
    have hn : ∀ m : Std.ExtTreeMap ℕ ℕ, inc (refs m) split split ≠ 0 := by
      intro m
      rw [inc_self]
      exact Nat.succ_ne_zero _
    have hnil : ∀ ino ∈ ([] : List ℕ), c.moves split info.created ino = true := by
      intro ino hmem
      cases hmem
    have h₀ : Sound (inc (refs (rest c.inodes [])) split) (c.realms.getSnapRealm split) := h.getSnapRealm split
    obtain ⟨rs₁, hok₁, h₁, hkept₁⟩ := splitInodes_returns splitInos h₀ (.refl _) hnil hnd
    rw [List.nil_append] at hok₁ h₁
    generalize splitInos.filter (c.moves split info.created) = toMove at hnd hok₁ h₁
    have hinit : Splitting (inc (refs (rest c.inodes toMove)) split) split (info.invalidates c.realms = true)
        splitRealms rs₁ rs₁ := by
      refine ⟨h₁.shape, h₁.counted, h₁.valid.mono fun _ _ _ hx => hx.elim, fun realm' hx => ⟨realm', hx, .refl _⟩,
        fun hst child hch hne realm' hx => ?_⟩
      obtain ⟨realm, hx₀, hsame⟩ := hkept₁ child realm' hx
      rw [Realms.getSnapRealm, getElem?_insert, if_neg hne] at hx₀
      have hp := hmoved.resolve_left hst child hch
      rw [hx₀, Option.all_some, beq_iff_eq] at hp
      rw [hsame.2.2.1, hp]
    -- What is known of the new realm is what was known before the message.
    have hstale : ∀ rs₂, Splitting (inc (refs (rest c.inodes toMove)) split) split (info.invalidates c.realms = true)
        splitRealms rs₁ rs₂ → info.ino = split → info.invalidates c.realms = true → info.invalidates rs₂ = true := by
      intro rs₂ h₂ hino hst
      obtain ⟨realm₂, hr₂⟩ := h₂.counted.alive split (hn _)
      obtain ⟨realm₁, hr₁, hsame₁⟩ := h₂.kept realm₂ hr₂
      obtain ⟨realm₀, hr₀, hsame₀⟩ := hkept₁ split realm₁ hr₁
      rw [Realms.getSnapRealm, getElem?_insert, if_pos rfl, Option.some.injEq] at hr₀
      have hsame := hsame₀.trans hsame₁
      rw [← hr₀] at hsame
      rw [Info.invalidates, hino] at hst
      rw [Info.invalidates, hino, hr₂, Option.getD_some, Info.newer, hsame.1, hsame.2.2.1]
      exact hst
    rw [Client.handleSplit, List.head?_cons, deref_some_bind] at hok
    obtain ⟨-, -, hok⟩ := bind_ok.mp hok
    obtain ⟨_, hino, hok⟩ := bind_ok.mp hok
    rw [assert_ok, beq_iff_eq] at hino
    dsimp only at hok
    rw [hok₁] at hok
    obtain ⟨_, he, hok⟩ := bind_ok.mp hok
    cases he
    obtain ⟨rs₂, hok₂, hok⟩ := bind_ok.mp hok
    have h₂ := (ends_foldlM (fun rs child hchild hrs => splitRealm_ends hrs (hn _) hchild) hinit).of_ok hok₂
    obtain ⟨rs₃, hok₃, hok⟩ := bind_ok.mp hok
    rw [List.foldlM_cons] at hok₃
    obtain ⟨rs₄, hok₄, hok₃⟩ := bind_ok.mp hok₃
    have h₄ := (traceEntry_ends _ h₂.shape h₂.counted (hino ▸ h₂.valid) (hstale rs₂ h₂ hino)).of_ok hok₄
    have h₃ := (trace_ends h₄).of_ok hok₃
    have h₅ := moveInodes_sound (c := { c with realms := rs₃ }) hnd h₃
    obtain ⟨rs', hok', h', -⟩ := h₅.put (hn _)
    dsimp only at hok
    rw [hok'] at hok
    cases hok
    rwa [dec_inc] at h'

/-! ## What a context should be -/

/-- The snaps of a realm: its own, those of the parents it had before, and those of its parent that
are not older than the move there. -/
inductive IsSnap (rs : Realms) : ℕ → ℕ → Prop
  | own {r s : ℕ} {realm : Realm} : rs[r]? = some realm → s ∈ realm.mySnaps → IsSnap rs r s
  | prior {r s : ℕ} {realm : Realm} : rs[r]? = some realm → s ∈ realm.priorParentSnaps → IsSnap rs r s
  | parent {r s p : ℕ} {realm : Realm} : rs[r]? = some realm → realm.pparent = some p → IsSnap rs p s →
    realm.parentSince ≤ s → IsSnap rs r s

/-- The context of a realm of the present forest. -/
structure FromScratch (rs : Realms) (r : ℕ) (ctx : Context) : Prop where
  snaps : ∀ s, s ∈ ctx.snaps ↔ IsSnap rs r s
  descending : ctx.snaps.Pairwise (· > ·)
  seq : IsGreatest {k | ∃ (x : ℕ) (realm : Realm), Above (par rs) r x ∧ rs[x]? = some realm ∧ realm.seq = k} ctx.seq

theorem FromScratch.unique {ctx ctx' : Context} (h : FromScratch rs r ctx) (h' : FromScratch rs r ctx') :
    ctx = ctx' := by
  obtain ⟨seq, snaps⟩ := ctx
  obtain ⟨seq', snaps'⟩ := ctx'
  have hseq : seq = seq' := h.seq.unique h'.seq
  have hnd : ∀ {l : List ℕ}, l.Pairwise (· > ·) → l.Nodup := fun hl => hl.imp fun hab => ne_of_gt hab
  have hperm : snaps.Perm snaps' :=
    (List.perm_ext_iff_of_nodup (hnd h.descending) (hnd h'.descending)).mpr fun s => (h.snaps s).trans (h'.snaps s).symm
  have hsnaps : snaps = snaps' :=
    hperm.eq_of_pairwise (fun a b _ _ hab hba => absurd hab (Nat.lt_asymm hba)) h.descending h'.descending
  rw [hseq, hsnaps]

theorem mem_buildSnapContext (realm : Realm) (psnapc : Option Context) (s : ℕ) :
    s ∈ (realm.buildSnapContext psnapc).snaps ↔ s ∈ realm.mySnaps ∨ s ∈ realm.priorParentSnaps ∨
      ∃ c, psnapc = some c ∧ s ∈ c.snaps ∧ realm.parentSince ≤ s := by
  cases psnapc with
  | none =>
    simp [Realm.buildSnapContext]
    tauto
  | some c =>
    simp [Realm.buildSnapContext]
    tauto

theorem descending_buildSnapContext (realm : Realm) (psnapc : Option Context) :
    (realm.buildSnapContext psnapc).snaps.Pairwise (· > ·) := by
  unfold Realm.buildSnapContext
  rw [List.pairwise_reverse]
  exact ((pairwise_ascending _).and (nodup_ascending _)).imp fun hab => lt_of_le_of_ne hab.1 hab.2

/-- What `build_snap_context` computes up the chain is the context of the forest. -/
theorem Scratch.fromScratch {ctx : Context} (h : Scratch rs r ctx) : FromScratch rs r ctx := by
  induction h with
  | @root r realm hr hp =>
    have hroot : ∀ x, Above (par rs) r x → x = r := by
      intro x hx
      exact ((above_iff_of_root ((par_eq hr).trans hp)).mp hx).symm
    refine ⟨fun s => ?_, descending_buildSnapContext realm none, ⟨r, realm, .refl r, hr, rfl⟩, ?_⟩
    · rw [mem_buildSnapContext]
      constructor
      · rintro (hs | hs | ⟨c, hc, -⟩)
        · exact .own hr hs
        · exact .prior hr hs
        · cases hc
      · intro hs
        cases hs with
        | own hr' hs =>
          rw [hr, Option.some.injEq] at hr'
          exact .inl (hr' ▸ hs)
        | prior hr' hs =>
          rw [hr, Option.some.injEq] at hr'
          exact .inr (.inl (hr' ▸ hs))
        | parent hr' hp' =>
          rw [hr, Option.some.injEq] at hr'
          rw [← hr', hp] at hp'
          cases hp'
    · rintro k ⟨x, realm', hx, hx', rfl⟩
      rw [hroot x hx, hr, Option.some.injEq] at hx'
      rw [hx']
      exact le_rfl
  | @node r p realm c hr hp _ ih =>
    have hpar : par rs r = some p := (par_eq hr).trans hp
    refine ⟨fun s => ?_, descending_buildSnapContext realm (some c), ?_, ?_⟩
    · rw [mem_buildSnapContext]
      constructor
      · rintro (hs | hs | ⟨c', hc, hs, hsince⟩)
        · exact .own hr hs
        · exact .prior hr hs
        · cases hc
          exact .parent hr hp ((ih.snaps s).mp hs) hsince
      · intro hs
        cases hs with
        | own hr' hs =>
          rw [hr, Option.some.injEq] at hr'
          exact .inl (hr' ▸ hs)
        | prior hr' hs =>
          rw [hr, Option.some.injEq] at hr'
          exact .inr (.inl (hr' ▸ hs))
        | parent hr' hp' hs hsince =>
          rw [hr, Option.some.injEq] at hr'
          subst hr'
          rw [hp, Option.some.injEq] at hp'
          subst hp'
          exact .inr (.inr ⟨c, rfl, (ih.snaps s).mpr hs, hsince⟩)
    · obtain ⟨x, realm', hx, hx', hseq⟩ := ih.seq.1
      show ∃ (x : ℕ) (realm' : Realm), _ ∧ _ ∧ realm'.seq = max realm.seq c.seq
      rcases max_choice realm.seq c.seq with hmax | hmax
      · exact ⟨r, realm, .refl r, hr, hmax.symm⟩
      · exact ⟨x, realm', .step hpar hx, hx', hseq.trans hmax.symm⟩
    · rintro k ⟨x, realm', hx, hx', rfl⟩
      show realm'.seq ≤ max realm.seq c.seq
      rcases (above_iff_of_parent hpar).mp hx with rfl | hx
      · rw [hr, Option.some.injEq] at hx'
        rw [hx']
        exact le_max_left _ _
      · exact le_max_of_le_right (ih.seq.2 ⟨x, realm', hx, hx', rfl⟩)

/-- Every realm that is known has a context. -/
theorem exists_scratch (hs : Shape rs) (hr : rs[r]? = some realm) : ∃ ctx, Scratch rs r ctx := by
  obtain ⟨depth, hd⟩ := hs.acyclic
  generalize hk : depth r = k
  induction k using Nat.strong_induction_on generalizing r realm with
  | _ k ih =>
    rcases Option.eq_none_or_eq_some realm.pparent with hp | ⟨p, hp⟩
    · exact ⟨_, .root hr hp⟩
    · have hpar : par rs r = some p := (par_eq hr).trans hp
      obtain ⟨parent, hparent⟩ := hs.closed r p hpar
      obtain ⟨ctx, hctx⟩ := ih (depth p) (hk ▸ hd r p hpar) hparent rfl
      exact ⟨_, .node hr hp hctx⟩

/-! ## Runs -/

namespace Client

/-- The realms make a forest, mirrored by the children; the references are those of the inodes and
the children; and every context that is asked for is that of the forest. -/
structure Current (c : Client) : Prop where
  closed : ∀ (x p : ℕ) (realm : Realm), c.realms[x]? = some realm → realm.pparent = some p →
    ∃ parent, c.realms[p]? = some parent
  acyclic : Acyclic (par c.realms)
  mirror : ∀ (p : ℕ) (parent : Realm), c.realms[p]? = some parent → ∀ x, x ∈ parent.pchildren ↔
    ∃ realm : Realm, c.realms[x]? = some realm ∧ realm.pparent = some p
  nref : ∀ (r : ℕ) (realm : Realm), c.realms[r]? = some realm →
    realm.nref = (tally (fun x => x == r) c.inodes + realm.pchildren.card : ℕ)
  known : ∀ ino r : ℕ, c.inodes[ino]? = some r → ∃ realm, c.realms[r]? = some realm
  context : ∀ (r : ℕ) (realm : Realm), c.realms[r]? = some realm →
    ∃ ctx rs, c.realms.context r = .ok (ctx, rs) ∧ FromScratch c.realms r ctx

theorem Current.sound (h : c.Current) : Sound (refs c.inodes) c.realms := by
  have hs : Shape c.realms := by
    refine ⟨fun x p hp => ?_, h.acyclic, fun p parent hp x => (h.mirror p parent hp x).trans par_eq_some.symm⟩
    obtain ⟨realm, hx, hp⟩ := par_eq_some.mp hp
    exact h.closed x p realm hx hp
  refine ⟨hs, ⟨h.nref, fun r hr => ?_⟩, fun r realm _ hr hseq => ?_⟩
  · obtain ⟨q, hq, he⟩ := List.countP_pos_iff.mp (Nat.pos_of_ne_zero hr)
    rw [← beq_iff_eq.mp he]
    exact h.known q.1 q.2 (Std.ExtTreeMap.mem_toList_iff_getElem?_eq_some.mp hq)
  · obtain ⟨ctx, rs, hok, hctx⟩ := h.context r realm hr
    rw [Realms.context, getSnapContext, hr, deref_some_bind, if_pos hseq] at hok
    cases hok
    obtain ⟨ctx, hctx'⟩ := exists_scratch hs hr
    rw [hctx.unique hctx'.fromScratch]
    exact hctx'

theorem current_of_sound (h : Sound (refs c.inodes) c.realms) : c.Current where
  closed x p realm hx hp := h.shape.closed x p ((par_eq hx).trans hp)
  acyclic := h.shape.acyclic
  mirror p parent hp x := (h.shape.mirror p parent hp x).trans par_eq_some
  nref := h.counted.nref
  known ino r hr := h.counted.alive r (refs_ne_zero hr)
  context r realm hr := by
    obtain ⟨ctx, rs, hok, -, -, hctx⟩ := context_returns h.shape h.valid (fun _ _ _ hp => hp) hr
    exact ⟨ctx, rs, hok, (hctx fun hx => hx).fromScratch⟩

theorem current_empty : Client.empty.Current := by
  have hnone : ∀ x : ℕ, Client.empty.realms[x]? = none := fun x => by simp [Client.empty]
  refine current_of_sound ⟨⟨fun x p hp => ?_, ⟨fun _ => 0, fun x p hp => ?_⟩, fun p realm hp => ?_⟩,
    ⟨fun r realm hr => ?_, fun r hr => ?_⟩, fun r realm _ hr => ?_⟩
  · rw [par, hnone] at hp
    cases hp
  · rw [par, hnone] at hp
    cases hp
  · rw [hnone] at hp
    cases hp
  · rw [hnone] at hr
    cases hr
  · exact absurd rfl hr
  · rw [hnone] at hr
    cases hr

theorem Current.step {a : Action} (h : c.Current) (hfair : c.fair a = true) (hstep : c.step a = some c') :
    c'.Current := by
  have hs := h.sound
  refine current_of_sound ?_
  cases a with
  | trace infos flush =>
    rw [Client.step, toOption_eq_some, updateSnapTrace] at hstep
    obtain ⟨rs, hok, hstep⟩ := bind_ok.mp hstep
    cases hstep
    exact (trace_ends hs).of_ok hok
  | split split infos splitInos splitRealms => exact handleSplit_sound hs hfair (toOption_eq_some.mp hstep)
  | openRealm ino realm =>
    rw [Client.step, toOption_eq_some, Client.openRealm] at hstep
    obtain ⟨_, hino, hstep⟩ := bind_ok.mp hstep
    have hnone : c.inodes[ino]? = none := by
      rw [assert_ok, Bool.not_eq_true'] at hino
      refine Std.ExtTreeMap.getElem?_eq_none fun hmem => ?_
      rw [Std.ExtTreeMap.mem_iff_contains, hino] at hmem
      cases hmem
    cases hstep
    rw [refs_insert hnone]
    exact hs.getSnapRealm realm
  | closeRealm ino =>
    rw [Client.step, toOption_eq_some, Client.closeRealm] at hstep
    obtain ⟨r, hr, hstep⟩ := bind_ok.mp hstep
    rw [deref_ok] at hr
    obtain ⟨rs', hok, hs', -⟩ := hs.put (refs_ne_zero hr)
    rw [hok] at hstep
    cases hstep
    rw [refs_erase hr]
    exact hs'
  | context r =>
    rw [Client.step, Option.map_eq_some_iff] at hstep
    obtain ⟨⟨ctx, rs⟩, hok, hstep⟩ := hstep
    rw [toOption_eq_some] at hok
    cases hstep
    cases hr : c.realms[r]? with
    | none =>
      rw [Realms.context, getSnapContext, hr] at hok
      cases hok
    | some realm =>
      obtain ⟨ctx', rs', hok', hrec, hv, -⟩ := context_returns hs.shape hs.valid (fun _ _ _ hp => hp) hr
      rw [hok'] at hok
      cases hok
      exact hs.recached hrec hv

/-- In every run whose splits are fair, the contexts are current, the children mirror the parents and
the references are counted right. -/
theorem run_current {as : List Action} (h : c.Current)
    (hfair : Meets Client.step (fun c a => c.fair a = true) c as) (hrun : run Client.step c as = some c') :
    c'.Current :=
  run_invariant_of (fun _ _ _ h hfair hstep => h.step hfair hstep) h hfair hrun

/-! ## Single runs -/

/-- A child of the realm 1 is known, and a realm 10 beside it. -/
def siblings : List Action := [.openRealm 100 20, .openRealm 101 10,
  .trace [⟨20, 2, 2, 1, 1, [], []⟩, ⟨1, 1, 1, 0, 0, [], []⟩] true, .trace [⟨10, 5, 1, 1, 1, [], [5]⟩] true, .context 20]

/-- The realm 20 is moved below 10, which has got a new snap. -/
theorem run_current_split : ∃ c, run Client.step .empty
      (siblings ++ [.split 10 [⟨10, 6, 1, 1, 1, [], [6, 5]⟩] [] [20]]) = some c ∧ c.Current := by
  have hfair : Meets Client.step (fun c a => c.fair a = true) .empty
      (siblings ++ [.split 10 [⟨10, 6, 1, 1, 1, [], [6, 5]⟩] [] [20]]) := by
    decide +kernel
  exact ⟨_, rfl, run_current current_empty hfair rfl⟩

theorem stale_child (hctx : (c.realms.context 20).toOption.map Prod.fst = some ⟨2, []⟩)
    (hchild : c.realms[20]?.map (fun realm => (realm.pparent, realm.parentSince)) = some (some 10, 1))
    (hnew : c.realms[10]?.map Realm.mySnaps = some [5]) : IsSnap c.realms 20 5 ∧ ¬ c.Current := by
  obtain ⟨realm, hr, he⟩ := Option.map_eq_some_iff.mp hchild
  obtain ⟨parent, hp, hsnaps⟩ := Option.map_eq_some_iff.mp hnew
  rw [Prod.mk.injEq] at he
  have hsnap : IsSnap c.realms 20 5 := by
    refine .parent hr he.1 (.own hp ?_) ?_
    · rw [hsnaps]
      exact List.mem_singleton_self 5
    · rw [he.2]
      decide
  refine ⟨hsnap, fun hcur => ?_⟩
  obtain ⟨ctx, rs, hok, hscratch⟩ := hcur.context 20 realm hr
  have hmem := (hscratch.snaps 5).mpr hsnap
  rw [hok] at hctx
  cases hctx
  cases hmem

/-- The realm 20 is moved below 10, of which nothing new is said: its context is the old one, without
the snap 5. And an inode that is listed twice is counted twice. -/
theorem not_current :
    (∃ c, run Client.step .empty (siblings ++ [.split 10 [⟨10, 5, 1, 1, 1, [], [5]⟩] [] [20]]) = some c ∧
      (c.realms.context 20).toOption.map Prod.fst = some ⟨2, []⟩ ∧ IsSnap c.realms 20 5 ∧ ¬ c.Current) ∧
    ∃ c, run Client.step .empty [.openRealm 100 1, .openRealm 101 1, .openRealm 102 1,
        .split 10 [⟨10, 5, 5, 1, 1, [], [5]⟩] [100, 100] []] = some c ∧
      (c.realms[10]?).map Realm.nref = some 2 ∧ (c.realms[10]?).map Realm.pchildren = some ∅ ∧
      tally (fun x => x == 10) c.inodes = 1 := by
  have hrun : ∃ c, run Client.step .empty (siblings ++ [.split 10 [⟨10, 5, 1, 1, 1, [], [5]⟩] [] [20]]) = some c ∧
      (c.realms.context 20).toOption.map Prod.fst = some ⟨2, []⟩ ∧
      c.realms[20]?.map (fun realm => (realm.pparent, realm.parentSince)) = some (some 10, 1) ∧
      c.realms[10]?.map Realm.mySnaps = some [5] :=
    ⟨_, rfl, by decide +kernel, by decide +kernel, by decide +kernel⟩
  obtain ⟨c, hc, hctx, hchild, hnew⟩ := hrun
  refine ⟨⟨c, hc, hctx, stale_child hctx hchild hnew⟩, _, rfl, ?_, ?_, ?_⟩
  · decide +kernel
  · decide +kernel
  · decide +kernel

end Client

end CephMds.Snap
