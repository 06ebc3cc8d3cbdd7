import CephMds.Proof.Snap.Realms

/-!
# The contexts of realms are current

A change of a realm, or of its parent, makes the contexts below it stale
(`Valid.off`), and `update_snap_trace` invalidates these (`traceEntry_ends`).
-/

namespace CephMds.Snap

open Checked Writes Ancestry

variable {rs rs' : Realms} {r x p q : ℕ} {realm realm' parent : Realm} {n : ℕ → ℕ} {D : ℕ → Prop}

/-! ## A new parent -/

/-- The realms of `rs'` other than `r` are realms of `rs`, with the same contexts cached. -/
def Off (r : ℕ) (rs rs' : Realms) : Prop := ∀ x, x ≠ r → ∀ realm' : Realm, rs'[x]? = some realm' →
  ∃ realm : Realm, rs[x]? = some realm ∧ realm.Same realm' ∧ realm'.cachedSnapContext = realm.cachedSnapContext

/-- A change of a realm concerns what is below it. -/
theorem Valid.off (hv : Valid D rs) (hoff : Off r rs rs') (hsh : Shape rs') :
    Valid (fun x => D x ∨ Above (par rs') x r) rs' := by
  intro x realm' hx hx' hseq
  rw [not_or] at hx
  have hne : ∀ y, Above (par rs') x y → y ≠ r := by
    rintro y hy rfl
    exact hx.2 hy
  obtain ⟨realm, hreal, -, hc⟩ := hoff x (hne x (.refl x)) realm' hx'
  rw [hc] at hseq ⊢
  refine (hv x realm hx.1 hreal hseq).back hsh (fun y realm₁ hy hy₁ => ?_) hx'
  obtain ⟨realm₀, hy₀, hsame, -⟩ := hoff y (hne y hy) realm₁ hy₁
  exact ⟨realm₀, hy₀, hsame⟩

theorem off_insert (rs : Realms) (r : ℕ) (realm' : Realm) : Off r rs (rs.insert r realm') := by
  intro x hx realm₁ hx₁
  rw [getElem?_insert, if_neg hx] at hx₁
  exact ⟨realm₁, hx₁, .refl _, rfl⟩

/-- A realm changes, and the children of another one. -/
theorem off_insert_insert (r : ℕ) (realm' : Realm) (cs : Finset ℕ) (hq : rs[q]? = some parent) :
    Off r rs ((rs.insert r realm').insert q { parent with pchildren := cs }) := by
  intro x hx realm₁ hx₁
  rw [getElem?_insert] at hx₁
  split at hx₁
  · rename_i he
    cases hx₁
    rw [he]
    exact ⟨parent, hq, ⟨rfl, rfl, rfl, rfl, rfl, rfl, rfl⟩, rfl⟩
  · exact off_insert rs r realm' x hx realm₁ hx₁

theorem par_insert_insert (realm' : Realm) (cs : Finset ℕ) (hq : rs[q]? = some parent) (hne : q ≠ r) (x : ℕ) :
    par ((rs.insert r realm').insert q { parent with pchildren := cs }) x =
      if x = r then realm'.pparent else par rs x := by
  have hget : (rs.insert r realm')[q]? = some parent := by rw [getElem?_insert, if_neg hne, hq]
  have hpar : par ((rs.insert r realm').insert q { parent with pchildren := cs }) = par (rs.insert r realm') :=
    par_insert_same hget rfl
  rw [hpar, par, getElem?_insert]
  split
  · rfl
  · rfl

/-- A realm is put under another one, or taken from there. -/
theorem Shape.relink {cs : Finset ℕ} (hs : Shape rs) (hr : rs[r]? = some realm) (hq : rs[q]? = some parent)
    (hne : q ≠ r) (hch : realm'.pchildren = realm.pchildren)
    (hold : realm.pparent = none ∨ realm.pparent = some q) (hnew : realm'.pparent = none ∨ realm'.pparent = some q)
    (hcs : ∀ c, c ∈ cs ↔ if c = r then realm'.pparent = some q else c ∈ parent.pchildren)
    (hac : Acyclic fun x => if x = r then realm'.pparent else par rs x) :
    Shape ((rs.insert r realm').insert q { parent with pchildren := cs }) := by
  have hpar : par ((rs.insert r realm').insert q { parent with pchildren := cs }) =
      fun x => if x = r then realm'.pparent else par rs x := funext (par_insert_insert realm' cs hq hne)
  have hknown : ∀ p : ℕ, (∃ realm, rs[p]? = some realm) →
      ∃ realm, ((rs.insert r realm').insert q { parent with pchildren := cs })[p]? = some realm := by
    rintro p ⟨realm₁, hp⟩
    rw [getElem?_insert]
    split
    · exact ⟨_, rfl⟩
    · rw [getElem?_insert]
      split
      · exact ⟨_, rfl⟩
      · exact ⟨realm₁, hp⟩
  refine ⟨fun x p hx => hknown p ?_, hpar ▸ hac, fun p realm₁ hp c => ?_⟩
  · rw [hpar] at hx
    dsimp only at hx
    split at hx
    · rcases hnew with h | h
      · rw [h] at hx
        cases hx
      · rw [h, Option.some.injEq] at hx
        exact ⟨parent, hx ▸ hq⟩
    · exact hs.closed x p hx
  · rw [hpar]
    dsimp only
    rw [getElem?_insert] at hp
    split at hp
    · rename_i he
      cases hp
      rw [hcs, he]
      split
      · rfl
      · exact hs.mirror q parent hq c
    · rename_i hpq
      -- The children of the others stay, and `r` is not one of them.
      have hother : c ∈ realm₁.pchildren ↔ par rs c = some p := by
        rw [getElem?_insert] at hp
        split at hp
        · rename_i he
          cases hp
          rw [hch, he]
          exact hs.mirror r realm hr c
        · exact hs.mirror p realm₁ hp c
      rw [hother]
      split
      · rename_i he
        rw [he, par_eq hr]
        have hold' : realm.pparent ≠ some p := by
          rcases hold with h | h
          · simp [h]
          · simp [h, Ne.symm hpq]
        have hnew' : realm'.pparent ≠ some p := by
          rcases hnew with h | h
          · simp [h]
          · simp [h, Ne.symm hpq]
        simp [hold', hnew']
      · rfl

/-- A realm is taken from its parent, which keeps the reference for now. -/
theorem unlink (realm' : Realm) (hs : Shape rs) (hc : Counted n rs) (hr : rs[r]? = some realm)
    (hp : realm.pparent = some p) (hparent : rs[p]? = some parent) (hp' : realm'.pparent = none)
    (hch : realm'.pchildren = realm.pchildren) (hn : realm'.nref = realm.nref) :
    p ≠ r ∧ Shape ((rs.insert r realm').insert p { parent with pchildren := parent.pchildren.erase r }) ∧
      Counted (inc n p) ((rs.insert r realm').insert p { parent with pchildren := parent.pchildren.erase r }) := by
  have hpar : par rs r = some p := (par_eq hr).trans hp
  have hne : p ≠ r := by
    rintro rfl
    exact hs.acyclic.not_above hpar (.refl p)
  refine ⟨hne, hs.relink hr hparent hne hch (.inr hp) (.inl hp') (fun c => ?_) (hs.acyclic.mono fun x y hx => ?_), ?_⟩
  · rw [Finset.mem_erase, hp']
    split
    · rename_i he
      simp [he]
    · rename_i he
      simp [he]
  · split at hx
    · rw [hp'] at hx
      cases hx
    · exact hx
  · have hc₁ : Counted n (rs.insert r realm') := by
      refine hc.insert ?_ fun _ _ => rfl
      rw [hn, hch]
      exact hc.nref r realm hr
    refine hc₁.insert ?_ fun x hx => inc_of_ne n hx
    have hmem : r ∈ parent.pchildren := (hs.mirror p parent hparent r).mpr hpar
    show parent.nref = ((inc n p p + (parent.pchildren.erase r).card : ℕ) : ℤ)
    rw [inc_self, Finset.card_erase_of_mem hmem, hc.nref p parent hparent]
    have := Finset.card_pos.mpr ⟨r, hmem⟩
    omega

/-- A realm is put below another one, with a reference that is already there. -/
theorem link (hs : Shape rs) (hc : Counted (inc n q) rs) (hr : rs[r]? = some realm) (hp : realm.pparent = none)
    (hq : rs[q]? = some parent) (hqr : ¬ Above (par rs) q r) :
    q ≠ r ∧ Shape ((rs.insert r { realm with pparent := some q }).insert q
        { parent with pchildren := insert r parent.pchildren }) ∧
      Counted n ((rs.insert r { realm with pparent := some q }).insert q
        { parent with pchildren := insert r parent.pchildren }) := by
  have hne : q ≠ r := by
    rintro rfl
    exact hqr (.refl q)
  refine ⟨hne, hs.relink hr hq hne rfl (.inl hp) (.inr rfl) (fun c => ?_) (hs.acyclic.reparent (if_pos rfl) ?_ hqr), ?_⟩
  · rw [Finset.mem_insert]
    split
    · rename_i he
      simp [he]
    · rename_i he
      simp [he]
  · intro x y hx hxy
    rwa [if_neg hx] at hxy
  · have hc₁ : Counted (inc n q) (rs.insert r { realm with pparent := some q }) :=
      hc.insert (hc.nref r realm hr) fun _ _ => rfl
    have hmem : r ∉ parent.pchildren := by
      rw [hs.mirror q parent hq r, par_eq hr, hp]
      simp
    refine hc₁.insert ?_ fun x hx => (inc_of_ne n hx).symm
    show parent.nref = ((n q + (insert r parent.pchildren).card : ℕ) : ℤ)
    rw [Finset.card_insert_of_notMem hmem, hc.nref q parent hq, inc_self]
    omega

/-- A realm is known after `get_snap_realm`, with one more reference. -/
theorem getSnapRealm_spec (hs : Shape rs) (hc : Counted n rs) (r : ℕ) :
    Shape (rs.getSnapRealm r) ∧ Counted (inc n r) (rs.getSnapRealm r) ∧ par (rs.getSnapRealm r) = par rs := by
  rcases Option.eq_none_or_eq_some rs[r]? with hr | ⟨realm, hr⟩
  · have hget : rs.getSnapRealm r = rs.insert r { Realm.new with nref := Realm.new.nref + 1 } := by
      rw [Realms.getSnapRealm, hr]
      rfl
    have hpar : par (rs.getSnapRealm r) = par rs := by
      funext x
      rw [hget, par, par, getElem?_insert]
      split
      · rename_i he
        rw [he, hr]
        rfl
      · rfl
    have hn : n r = 0 := by
      by_contra hn
      obtain ⟨realm, hr'⟩ := hc.alive r hn
      rw [hr] at hr'
      cases hr'
    refine ⟨⟨fun x p hx => ?_, hpar ▸ hs.acyclic, fun p realm₁ hp c => ?_⟩, ?_, hpar⟩
    · rw [hpar] at hx
      obtain ⟨parent, hparent⟩ := hs.closed x p hx
      rw [hget, getElem?_insert]
      split
      · exact ⟨_, rfl⟩
      · exact ⟨parent, hparent⟩
    · rw [hpar]
      rw [hget, getElem?_insert] at hp
      split at hp
      · rename_i he
        cases hp
        constructor
        · intro hmem
          cases hmem
        · intro hmem
          obtain ⟨realm₁, hr₁⟩ := hs.closed c p hmem
          rw [he, hr] at hr₁
          cases hr₁
      · exact hs.mirror p realm₁ hp c
    · rw [hget]
      refine hc.insert ?_ fun x hx => inc_of_ne n hx
      rw [inc_self, hn]
      rfl
  · have hget : rs.getSnapRealm r = rs.insert r { realm with nref := realm.nref + 1 } := by
      rw [Realms.getSnapRealm, hr]
      rfl
    rw [hget]
    refine ⟨hs.insert_same hr rfl rfl, hc.insert ?_ fun x hx => inc_of_ne n hx, par_insert_same hr rfl⟩
    show realm.nref + 1 = ((inc n r r + realm.pchildren.card : ℕ) : ℤ)
    rw [inc_self, hc.nref r realm hr]
    omega

/-- What was known stays, and a new realm has no context cached. -/
theorem getElem?_getSnapRealm (rs : Realms) (r x : ℕ) :
    (∀ realm, rs[x]? = some realm → ∃ k, (rs.getSnapRealm r)[x]? = some { realm with nref := k }) ∧
      (rs[x]? = none → ∀ realm', (rs.getSnapRealm r)[x]? = some realm' → realm' = { Realm.new with nref := 1 }) := by
  rw [Realms.getSnapRealm, getElem?_insert]
  constructor
  · intro realm hx
    split
    · rename_i he
      rw [← he, hx]
      exact ⟨_, rfl⟩
    · exact ⟨realm.nref, hx⟩
  · intro hx realm' hx'
    split at hx'
    · rename_i he
      rw [← he, hx] at hx'
      cases hx'
      rfl
    · rw [hx] at hx'
      cases hx'

theorem Valid.getSnapRealm (hv : Valid D rs) (r : ℕ) : Valid D (rs.getSnapRealm r) := by
  intro x realm' hx hx' hseq
  rcases Option.eq_none_or_eq_some rs[x]? with hr | ⟨realm, hr⟩
  · rw [(getElem?_getSnapRealm rs r x).2 hr realm' hx'] at hseq
    exact absurd rfl hseq
  · obtain ⟨k, hk⟩ := (getElem?_getSnapRealm rs r x).1 realm hr
    rw [hk, Option.some.injEq] at hx'
    subst hx'
    refine (hv x realm hx hr hseq).congr fun y realm₁ _ hy => ?_
    obtain ⟨k₁, hk₁⟩ := (getElem?_getSnapRealm rs r y).1 realm₁ hy
    exact ⟨_, hk₁, rfl, rfl, rfl, rfl, rfl, rfl, rfl⟩

theorem isAbove_of_above {m : ℕ} (hs : Shape rs) (h : Above (par rs) x r)
    (hm : (above (par rs) (dom rs) x).card ≤ m) : isAbove rs r (m + 1) x = true := by
  induction m generalizing x with
  | zero =>
    rcases above_cases h with rfl | ⟨p, hp, -⟩
    · simp [isAbove]
    · obtain ⟨realm, hx, -⟩ := par_eq_some.mp hp
      have := card_above_lt hs.acyclic (mem_dom.mpr ⟨realm, hx⟩) hp
      omega
  | succ m ih =>
    rcases above_cases h with rfl | ⟨p, hp, hpr⟩
    · simp [isAbove]
    · obtain ⟨realm, hx, -⟩ := par_eq_some.mp hp
      have hlt := card_above_lt hs.acyclic (mem_dom.mpr ⟨realm, hx⟩) hp
      have hip := ih hpr (by omega)
      rw [isAbove, show rs[x]?.bind Realm.pparent = some p from hp, Option.any_some, hip, Bool.or_true]

theorem not_above_of_isAbove (hs : Shape rs) (h : isAbove rs r (rs.size + 1) x = false) : ¬ Above (par rs) x r := by
  intro ha
  rw [isAbove_of_above hs ha ((card_above_le x).trans (card_dom_le rs))] at h
  cases h

theorem Off.trans_sub {rs'' : Realms} (h : Off r rs rs') (h' : Sub rs' rs'') : Off r rs rs'' := by
  intro x hx realm'' hx''
  obtain ⟨realm', hx', hsame', hc'⟩ := h' x realm'' hx''
  obtain ⟨realm, hx, hsame, hc⟩ := h x hx realm' hx'
  exact ⟨realm, hx, hsame.trans hsame', hc'.trans hc⟩

theorem Off.par (h : Off r rs rs') (hx : x ≠ r) (hx' : rs'[x]? = some realm') : Snap.par rs' x = Snap.par rs x := by
  obtain ⟨realm, hx₀, hsame, -⟩ := h x hx realm' hx'
  rw [par_eq hx', par_eq hx₀, hsame.2.2.2.2.2.2]

theorem dropParent_returns (hs : Shape rs) (hc : Counted n rs) (hr : rs[r]? = some realm) (hn : n r ≠ 0) (q : ℕ) :
    ∃ rs', Realms.dropParent (rs.insert r { realm with parent := q, pparent := none }) r realm.pparent = .ok rs' ∧
      Shape rs' ∧ Counted n rs' ∧ Off r rs rs' ∧ ∃ realm', rs'[r]? = some realm' ∧ realm'.pparent = none := by
  rcases Option.eq_none_or_eq_some realm.pparent with hp | ⟨p, hp⟩
  · rw [hp]
    exact ⟨_, rfl, hs.insert_same hr hp.symm rfl, hc.insert (hc.nref r realm hr) fun _ _ => rfl, off_insert rs r _, _,
      (getElem?_insert rs r r _).trans (if_pos rfl), rfl⟩
  · rw [hp]
    obtain ⟨parent, hparent⟩ := hs.closed r p ((par_eq hr).trans hp)
    obtain ⟨hne, hs₁, hc₁⟩ := unlink { realm with parent := q, pparent := none } hs hc hr hp hparent rfl rfl rfl
    obtain ⟨rs', hok, hs', hc', hsub⟩ := put_returns hs₁ hc₁ (r := p)
      (by rw [inc_self]; exact Nat.succ_ne_zero _)
    rw [dec_inc] at hc'
    have hget : (rs.insert r { realm with parent := q, pparent := none })[p]? = some parent := by
      rw [getElem?_insert, if_neg hne, hparent]
    refine ⟨rs', ?_, hs', hc', (off_insert_insert r _ _ hparent).trans_sub hsub, ?_⟩
    · rw [Realms.dropParent, hget, deref_some_bind]
      exact hok
    · obtain ⟨realm', hr'⟩ := hc'.alive r hn
      obtain ⟨realm₁, hr₁, hsame, -⟩ := hsub r realm' hr'
      rw [getElem?_insert, if_neg (Ne.symm hne), getElem?_insert, if_pos rfl, Option.some.injEq] at hr₁
      refine ⟨realm', hr', ?_⟩
      rw [hsame.2.2.2.2.2.2, ← hr₁]

/-- `rs'` is `rs` after `r` has been moved to `q`. -/
structure Moved (n : ℕ → ℕ) (r q : ℕ) (rs rs' : Realms) : Prop where
  shape : Shape rs'
  counted : Counted n rs'
  apart : ¬ Above (par rs) q r
  parent : par rs' r = some q
  others : ∀ (x : ℕ) (realm' : Realm), x ≠ r → x ≠ q → rs'[x]? = some realm' → par rs' x = par rs x
  kept : ∀ x, x ≠ r → n x ≠ 0 → ∀ realm', rs'[x]? = some realm' →
    ∃ realm : Realm, rs[x]? = some realm ∧ realm.Same realm'
  valid : ∀ D, Valid D rs → Valid (fun x => D x ∨ Above (par rs') x r) rs'

theorem adjustRealmParent_ends (hs : Shape rs) (hc : Counted n rs) (hn : n r ≠ 0) (hr : rs[r]? = some realm) (q : ℕ) :
    Ends (rs.adjustRealmParent r q) fun o =>
      o = (false, rs) ∧ realm.parent = q ∨ o.1 = true ∧ realm.parent ≠ q ∧ Moved n r q rs o.2 := by
  rw [Realms.adjustRealmParent, hr, deref_some_bind]
  split
  · rename_i hp
    exact .inl ⟨rfl, hp⟩
  rename_i hp
  apply ends_assert
  intro habove
  rw [Bool.not_eq_true', ] at habove
  have hapart := not_above_of_isAbove hs habove
  obtain ⟨rs₁, hok, hs₁, hc₁, hoff₁, realm₁, hr₁, hp₁⟩ := dropParent_returns hs hc hr hn q
  rw [hok]
  obtain ⟨hs₂, hc₂, hpar₂⟩ := getSnapRealm_spec hs₁ hc₁ q
  obtain ⟨k, hr₂⟩ := (getElem?_getSnapRealm rs₁ q r).1 realm₁ hr₁
  have hapart₂ : ¬ Above (par (rs₁.getSnapRealm q)) q r := by
    rw [hpar₂]
    refine fun h => hapart (h.congr_of_ne fun y p hy hyp => ?_)
    obtain ⟨realm', hy', -⟩ := par_eq_some.mp hyp
    rw [← hoff₁.par hy hy', hyp]
  obtain ⟨parent, hq₂⟩ := hc₂.alive q (by rw [inc_self]; exact Nat.succ_ne_zero _)
  obtain ⟨hne, hs₃, hc₃⟩ := link hs₂ hc₂ hr₂ hp₁ hq₂ hapart₂
  have hget : ((rs₁.getSnapRealm q).insert r { realm₁ with pparent := some q, nref := k })[q]? = some parent := by
    rw [getElem?_insert, if_neg hne, hq₂]
  show Ends (deref (rs₁.getSnapRealm q)[r]? >>= _) _
  rw [hr₂, deref_some_bind]
  dsimp only
  rw [hget, deref_some_bind]
  have hpar₃ := par_insert_insert { realm₁ with pparent := some q, nref := k } (insert r parent.pchildren) hq₂ hne
  have hoff₃ := off_insert_insert r { realm₁ with pparent := some q, nref := k } (insert r parent.pchildren) hq₂
  refine .inr ⟨rfl, hp, hs₃, hc₃, hapart, ?_, fun x realm' hx hxq hx' => ?_, fun x hx hnx realm' hx' => ?_,
    fun D hv => ?_⟩
  · rw [hpar₃, if_pos rfl]
  · rw [hpar₃, if_neg hx, hpar₂]
    obtain ⟨realm₂, hx₂, -⟩ := hoff₃ x hx realm' hx'
    rw [Realms.getSnapRealm, getElem?_insert, if_neg hxq] at hx₂
    exact hoff₁.par hx hx₂
  · obtain ⟨realm₂, hx₂, hsame₂, -⟩ := hoff₃ x hx realm' hx'
    obtain ⟨realm₃, hx₃⟩ := hc₁.alive x hnx
    obtain ⟨k', hk'⟩ := (getElem?_getSnapRealm rs₁ q x).1 realm₃ hx₃
    rw [hk', Option.some.injEq] at hx₂
    obtain ⟨realm₀, hx₀, hsame₀, -⟩ := hoff₁ x hx realm₃ hx₃
    refine ⟨realm₀, hx₀, hsame₀.trans ?_⟩
    rw [← hx₂] at hsame₂
    exact hsame₂
  · have hv₂ := ((hv.off hoff₁ hs₁).getSnapRealm q).off hoff₃ hs₃
    refine hv₂.mono fun x realm' _ hx => ?_
    rcases hx with (hx | hx) | hx
    · exact .inl hx
    · refine .inr (hx.congr_of_ne fun y p hy hyp => ?_)
      rw [hpar₃, if_neg hy, hpar₂, hyp]
    · exact .inr hx

/-- What was below `r` is so after the move. -/
theorem Moved.below (h : Moved n r q rs rs') (hx : rs'[x]? = some realm') (ha : Above (par rs) x r) :
    Above (par rs') x r := by
  induction ha using Relation.ReflTransGen.head_induction_on generalizing realm' with
  | refl => exact .refl r
  | @head y p hyp hpr ih =>
    by_cases hy : y = r
    · rw [hy]
      exact .refl r
    · have hyq : y ≠ q := by
        rintro rfl
        exact h.apart (.step hyp hpr)
      have hyp' : par rs' y = some p := (h.others y realm' hy hyq hx).trans hyp
      obtain ⟨realm₁, hp⟩ := h.shape.closed y p hyp'
      exact .step hyp' (ih hp)

/-- What was below `q` is so, too. -/
theorem Moved.below_parent (h : Moved n r q rs rs') (hx : rs'[x]? = some realm') (ha : Above (par rs) x q) :
    Above (par rs') x q := by
  induction ha using Relation.ReflTransGen.head_induction_on generalizing realm' with
  | refl => exact .refl q
  | @head y p hyp _ ih =>
    by_cases hy : y = r
    · rw [hy]
      exact .step h.parent (.refl q)
    · by_cases hyq : y = q
      · rw [hyq]
        exact .refl q
      · have hyp' : par rs' y = some p := (h.others y realm' hy hyq hx).trans hyp
        obtain ⟨realm₁, hp⟩ := h.shape.closed y p hyp'
        exact .step hyp' (ih hp)

/-! ## Traces -/

/-- The state of the realms between the messages, with `n r` references to `r` besides those of its
children. -/
structure Sound (n : ℕ → ℕ) (rs : Realms) : Prop where
  shape : Shape rs
  counted : Counted n rs
  valid : Valid (fun _ => False) rs

/-- A reference to a realm is dropped. -/
theorem Sound.put (h : Sound n rs) (hn : n r ≠ 0) : ∃ rs', rs.put r = .ok rs' ∧ Sound (dec n r) rs' ∧ Sub rs rs' := by
  obtain ⟨rs', hok, hs, hc, hsub⟩ := put_returns h.shape h.counted hn
  exact ⟨rs', hok, ⟨hs, hc, h.valid.sub hsub hs⟩, hsub⟩

theorem Sound.getSnapRealm (h : Sound n rs) (r : ℕ) : Sound (inc n r) (rs.getSnapRealm r) := by
  obtain ⟨hs, hc, -⟩ := getSnapRealm_spec h.shape h.counted r
  exact ⟨hs, hc, h.valid.getSnapRealm r⟩

theorem Sound.recached (h : Sound n rs) (hrec : Recached rs rs') (hv : Valid (fun _ => False) rs') : Sound n rs' :=
  ⟨hrec.shape h.shape, hrec.counted h.counted, hv⟩

theorem flushOld_returns {info : Info} (has : ℕ → Bool) (flush : Bool) (hs : Shape rs) (hv : Valid D rs)
    (hD : Closed D rs) (hr : rs[info.ino]? = some realm) :
    ∃ rs', rs.flushOld has flush info = .ok rs' ∧ Recached rs rs' ∧ Valid D rs' := by
  rw [Realms.flushOld, hr, deref_some_bind]
  split
  · exact flushLoop_returns hs hv hD (fun x hx => by rw [List.mem_singleton.mp hx]; exact ⟨realm, hr⟩)
      (weight_single_le rs info.ino)
  · exact ⟨rs, rfl, .refl rs, hv⟩

/-- What is new invalidates all that is at or below the realm. -/
theorem takeInfo_returns {info : Info} (invalidate : Bool) (hs : Shape rs) (hc : Counted n rs) (hv : Valid D rs)
    (hr : rs[info.ino]? = some realm) (h : info.newer realm = true ∨ invalidate = true) :
    ∃ rs', rs.takeInfo info invalidate = .ok rs' ∧ Shape rs' ∧ Counted n rs' ∧
      Valid (fun x => D x ∧ ¬ Above (par rs) x info.ino) rs' := by
  rw [Realms.takeInfo, hr, deref_some_bind]
  split
  · have hs₁ : Shape (rs.insert info.ino (realm.update info)) := hs.insert_same hr rfl rfl
    have hc₁ : Counted n (rs.insert info.ino (realm.update info)) :=
      hc.insert (hc.nref info.ino realm hr) fun _ _ => rfl
    have hpar : par (rs.insert info.ino (realm.update info)) = par rs := par_insert_same hr rfl
    obtain ⟨rs', hok, hrec, hv'⟩ := invalidate_returns hs₁ (hv.off (off_insert rs info.ino _) hs₁)
      ((getElem?_insert rs info.ino info.ino _).trans (if_pos rfl))
    rw [hpar] at hv'
    refine ⟨rs', hok, hrec.shape hs₁, hrec.counted hc₁, hv'.mono fun x realm' _ hx => ?_⟩
    exact ⟨hx.1.resolve_right hx.2, hx.2⟩
  · rename_i hnew
    rw [if_pos (h.resolve_left hnew)]
    obtain ⟨rs', hok, hrec, hv'⟩ := invalidate_returns hs hv hr
    exact ⟨rs', hok, hrec.shape hs, hrec.counted hc, hv'⟩

theorem takeInfo_old {info : Info} (hr : rs[info.ino]? = some realm) (h : ¬ info.newer realm = true) :
    rs.takeInfo info false = .ok rs := by
  rw [Realms.takeInfo, hr, deref_some_bind, if_neg h, if_neg Bool.false_ne_true]
  rfl

/-- The entry of a trace makes `update_snap_trace` invalidate the realm. -/
def Info.invalidates (info : Info) (rs : Realms) : Bool :=
  let realm := rs[info.ino]?.getD .new
  info.newer realm || realm.parent != info.parent

/-- An entry of a trace: what is stale below its realm is invalidated. -/
theorem traceEntry_ends {info : Info} {has : ℕ → Bool} {flush : Bool} (stale : Prop) (hs : Shape rs)
    (hc : Counted n rs) (hv : Valid (fun x => stale ∧ Above (par rs) x info.ino) rs)
    (hstale : stale → info.invalidates rs = true) : Ends (rs.traceEntry has flush info) (Sound n) := by
  obtain ⟨hs₁, hc₁, hpar₁⟩ := getSnapRealm_spec hs hc info.ino
  have hv₁ := hv.getSnapRealm info.ino
  have hn : inc n info.ino info.ino ≠ 0 := by
    rw [inc_self]
    exact Nat.succ_ne_zero _
  obtain ⟨realm₁, hr₁⟩ := hc₁.alive info.ino hn
  have hclosed : Closed (fun x => stale ∧ Above (par rs) x info.ino) (rs.getSnapRealm info.ino) := by
    intro x p hp hD
    rw [hpar₁] at hp
    exact ⟨hD.1, .step hp hD.2⟩
  obtain ⟨rs₂, hok₂, hrec₂, hv₂⟩ := flushOld_returns has flush hs₁ hv₁ hclosed hr₁
  obtain ⟨c₂, hr₂⟩ := (hrec₂ info.ino).1 realm₁ hr₁
  have hs₂ := hrec₂.shape hs₁
  have hc₂ := hrec₂.counted hc₁
  -- What is known of the realm is as before.
  have hknown : info.invalidates rs = true → realm₁.parent = info.parent → info.newer realm₁ = true := by
    intro hi hp
    rw [Realms.getSnapRealm, getElem?_insert, if_pos rfl, Option.some.injEq] at hr₁
    rw [← hr₁] at hp ⊢
    rw [Info.invalidates, Bool.or_eq_true] at hi
    refine hi.resolve_right fun hne => ?_
    rw [bne_iff_ne] at hne
    exact hne hp
  have hput : ∀ rs₄, Sound (inc n info.ino) rs₄ → Ends (rs₄.put info.ino) (Sound n) := by
    intro rs₄ h₄
    obtain ⟨rs', hok, h', -⟩ := h₄.put hn
    rw [dec_inc] at h'
    exact ends_of_returns ⟨rs', hok, h'⟩
  rw [Realms.traceEntry, hok₂]
  refine (adjustRealmParent_ends hs₂ hc₂ hn hr₂ info.parent).bind ?_
  rintro ⟨invalidate, rs₃⟩ (⟨ho, hp⟩ | ⟨ho, -, hm⟩)
  · cases ho
    by_cases hnew : info.newer realm₁ = true
    · obtain ⟨rs₄, hok₄, hs₄, hc₄, hv₄⟩ := takeInfo_returns false hs₂ hc₂ hv₂ hr₂ (.inl hnew)
      dsimp only
      rw [hok₄]
      refine hput rs₄ ⟨hs₄, hc₄, hv₄.mono fun x _ _ hx => hx.2 ?_⟩
      rw [hrec₂.par, hpar₁]
      exact hx.1.2
    · have hns : ¬ stale := fun h => hnew (hknown (hstale h) hp)
      dsimp only
      rw [takeInfo_old hr₂ hnew]
      exact hput rs₂ ⟨hs₂, hc₂, hv₂.mono fun x _ _ hx => hns hx.1⟩
  · dsimp only at ho hm
    subst ho
    obtain ⟨realm₃, hr₃⟩ := hm.counted.alive info.ino hn
    have hv₃ : Valid (fun x => Above (par rs₃) x info.ino) rs₃ := by
      refine (hm.valid _ hv₂).mono fun x realm₃ hx₃ hx => hx.elim (fun hx => hm.below hx₃ ?_) id
      rw [hrec₂.par, hpar₁]
      exact hx.2
    obtain ⟨rs₄, hok₄, hs₄, hc₄, hv₄⟩ := takeInfo_returns true hm.shape hm.counted hv₃ hr₃ (.inr rfl)
    dsimp only
    rw [hok₄]
    exact hput rs₄ ⟨hs₄, hc₄, hv₄.mono fun x _ _ hx => hx.2 hx.1⟩

theorem trace_ends {infos : List Info} {has : ℕ → Bool} {flush : Bool} (h : Sound n rs) :
    Ends (infos.foldlM (Realms.traceEntry has flush) rs) (Sound n) := by
  refine ends_foldlM (fun rs₁ info _ h₁ => ?_) h
  refine traceEntry_ends False h₁.shape h₁.counted (h₁.valid.mono fun x _ _ hx => ?_) False.elim
  exact hx.elim

end CephMds.Snap
