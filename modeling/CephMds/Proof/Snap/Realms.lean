import CephMds.Framework.Ancestry
import CephMds.Model.SnapRealm

/-!
# The forest of realms

`Shape` says that the parents are there, without cycles, and mirrored by the
children; `Counted n` that a realm has `n` references besides those of its
children. `Scratch` is the context of a realm as computed from the forest, and
`Valid D` says that the cached contexts are these, but for the realms of `D`,
which lie below one another. Each function keeps them; `put` may delete realms
that are not referenced any more (`Sub`).
-/

namespace CephMds.Snap

open Checked Writes Ancestry

variable {rs rs' : Realms} {q : List ℕ} {r x p : ℕ} {realm realm' : Realm} {n : ℕ → ℕ} {D : ℕ → Prop}

/-- The parent of a realm. -/
def par (rs : Realms) (x : ℕ) : Option ℕ := rs[x]?.bind Realm.pparent

theorem par_eq (h : rs[x]? = some realm) : par rs x = realm.pparent := by
  rw [par, h, Option.bind_some]

theorem par_eq_some : par rs x = some p ↔ ∃ realm, rs[x]? = some realm ∧ realm.pparent = some p :=
  Option.bind_eq_some_iff

/-- The realms that are known. -/
def dom (rs : Realms) : Finset ℕ := rs.keys.toFinset

theorem mem_dom : x ∈ dom rs ↔ ∃ realm, rs[x]? = some realm := by
  rw [dom, List.mem_toFinset, Std.ExtTreeMap.mem_keys, Std.ExtTreeMap.mem_iff_isSome_getElem?,
    Option.isSome_iff_exists]

theorem card_dom_le (rs : Realms) : (dom rs).card ≤ rs.size := by
  rw [← Std.ExtTreeMap.length_keys]
  exact List.toFinset_card_le _

structure Shape (rs : Realms) : Prop where
  closed : ∀ x p, par rs x = some p → ∃ realm, rs[p]? = some realm
  acyclic : Acyclic (par rs)
  mirror : ∀ (p : ℕ) (realm : Realm), rs[p]? = some realm → ∀ c, c ∈ realm.pchildren ↔ par rs c = some p

structure Counted (n : ℕ → ℕ) (rs : Realms) : Prop where
  nref : ∀ (r : ℕ) (realm : Realm), rs[r]? = some realm → realm.nref = (n r + realm.pchildren.card : ℕ)
  alive : ∀ r, n r ≠ 0 → ∃ realm, rs[r]? = some realm

/-- The context computed from scratch. -/
inductive Scratch (rs : Realms) : ℕ → Context → Prop
  | root {r : ℕ} {realm : Realm} : rs[r]? = some realm → realm.pparent = none →
    Scratch rs r (realm.buildSnapContext none)
  | node {r p : ℕ} {realm : Realm} {c : Context} : rs[r]? = some realm → realm.pparent = some p → Scratch rs p c →
    Scratch rs r (realm.buildSnapContext (some c))

/-- The cached contexts outside `D` are current. -/
def Valid (D : ℕ → Prop) (rs : Realms) : Prop := ∀ (r : ℕ) (realm : Realm), ¬ D r → rs[r]? = some realm →
  realm.cachedSnapContext.seq ≠ 0 → Scratch rs r realm.cachedSnapContext

/-- With a realm `D` has all that is below it. -/
def Closed (D : ℕ → Prop) (rs : Realms) : Prop := ∀ x p, par rs x = some p → D p → D x

/-! ## What does not matter -/

/-- Two realms that differ at most in the cached context, the children and the references. -/
def Realm.Same (realm realm' : Realm) : Prop :=
  realm'.seq = realm.seq ∧ realm'.created = realm.created ∧ realm'.parent = realm.parent ∧
    realm'.parentSince = realm.parentSince ∧ realm'.priorParentSnaps = realm.priorParentSnaps ∧
    realm'.mySnaps = realm.mySnaps ∧ realm'.pparent = realm.pparent

theorem Realm.Same.refl (realm : Realm) : realm.Same realm := ⟨rfl, rfl, rfl, rfl, rfl, rfl, rfl⟩

theorem Realm.Same.trans {a b c : Realm} (h : a.Same b) (h' : b.Same c) : a.Same c :=
  ⟨h'.1.trans h.1, h'.2.1.trans h.2.1, h'.2.2.1.trans h.2.2.1, h'.2.2.2.1.trans h.2.2.2.1,
    h'.2.2.2.2.1.trans h.2.2.2.2.1, h'.2.2.2.2.2.1.trans h.2.2.2.2.2.1, h'.2.2.2.2.2.2.trans h.2.2.2.2.2.2⟩

theorem Realm.Same.build {a b : Realm} (h : a.Same b) (c : Option Context) :
    b.buildSnapContext c = a.buildSnapContext c := by
  obtain ⟨h₁, -, -, h₄, h₅, h₆, -⟩ := h
  simp only [Realm.buildSnapContext, h₁, h₄, h₅, h₆]

theorem Scratch.unique {c c' : Context} (h : Scratch rs r c) (h' : Scratch rs r c') : c = c' := by
  induction h generalizing c' with
  | root hr hp =>
    cases h' with
    | root hr' _ =>
      rw [hr, Option.some.injEq] at hr'
      rw [hr']
    | node hr' hp' _ =>
      rw [hr, Option.some.injEq] at hr'
      rw [← hr', hp] at hp'
      cases hp'
  | node hr hp _ ih =>
    cases h' with
    | root hr' hp' =>
      rw [hr, Option.some.injEq] at hr'
      rw [← hr', hp] at hp'
      cases hp'
    | node hr' hp' hc' =>
      rw [hr, Option.some.injEq] at hr'
      subst hr'
      rw [hp, Option.some.injEq] at hp'
      subst hp'
      rw [ih hc']

/-- The context of a realm depends on the realms at or above it. -/
theorem Scratch.congr {c : Context} (h : Scratch rs r c)
    (hsame : ∀ (x : ℕ) (realm : Realm), Above (par rs) r x → rs[x]? = some realm →
      ∃ realm', rs'[x]? = some realm' ∧ realm.Same realm') :
    Scratch rs' r c := by
  induction h with
  | root hr hp =>
    obtain ⟨realm', hr', hs⟩ := hsame _ _ (.refl _) hr
    rw [← hs.build]
    exact .root hr' (hs.2.2.2.2.2.2.trans hp)
  | node hr hp _ ih =>
    obtain ⟨realm', hr', hs⟩ := hsame _ _ (.refl _) hr
    rw [← hs.build]
    refine .node hr' (hs.2.2.2.2.2.2.trans hp) (ih fun x realm hx => hsame x realm (.step ?_ hx))
    rw [par_eq hr, hp]

/-- The realms of `rs'` are realms of `rs`, with the same contexts cached. -/
def Sub (rs rs' : Realms) : Prop := ∀ (x : ℕ) (realm' : Realm), rs'[x]? = some realm' →
  ∃ realm : Realm, rs[x]? = some realm ∧ realm.Same realm' ∧ realm'.cachedSnapContext = realm.cachedSnapContext

theorem Sub.refl (rs : Realms) : Sub rs rs := fun _ realm h => ⟨realm, h, .refl realm, rfl⟩

theorem Sub.trans {rs'' : Realms} (h : Sub rs rs') (h' : Sub rs' rs'') : Sub rs rs'' := by
  intro x realm'' hx
  obtain ⟨realm', hx', hs', hc'⟩ := h' x realm'' hx
  obtain ⟨realm, hx, hs, hc⟩ := h x realm' hx'
  exact ⟨realm, hx, hs.trans hs', hc'.trans hc⟩

theorem Sub.par (h : Sub rs rs') (hp : par rs' x = some p) : par rs x = some p := by
  obtain ⟨realm', hx', hp'⟩ := par_eq_some.mp hp
  obtain ⟨realm, hx, hs, -⟩ := h x realm' hx'
  rw [par_eq hx, ← hs.2.2.2.2.2.2, hp']

theorem Sub.above (h : Sub rs rs') (ha : Above (Snap.par rs') x r) : Above (Snap.par rs) x r := by
  induction ha using Relation.ReflTransGen.head_induction_on with
  | refl => exact .refl _
  | head hxp _ ih => exact .step (h.par hxp) ih

/-- The context of a realm that is left, where the realms above it are those of before. -/
theorem Scratch.back {c : Context} (h : Scratch rs r c) (hsh : Shape rs')
    (hs : ∀ (x : ℕ) (realm' : Realm), Above (par rs') r x → rs'[x]? = some realm' →
      ∃ realm : Realm, rs[x]? = some realm ∧ realm.Same realm')
    (hr : rs'[r]? = some realm') : Scratch rs' r c := by
  induction h generalizing realm' with
  | root hr₀ hp₀ =>
    obtain ⟨realm, hx, hsame⟩ := hs _ _ (.refl _) hr
    rw [hx, Option.some.injEq] at hr₀
    subst hr₀
    rw [← hsame.build]
    exact .root hr (hsame.2.2.2.2.2.2.trans hp₀)
  | node hr₀ hp₀ _ ih =>
    obtain ⟨realm, hx, hsame⟩ := hs _ _ (.refl _) hr
    rw [hx, Option.some.injEq] at hr₀
    subst hr₀
    have hp' := hsame.2.2.2.2.2.2.trans hp₀
    have hpar := (par_eq hr).trans hp'
    obtain ⟨q', hq'⟩ := hsh.closed _ _ hpar
    rw [← hsame.build]
    exact .node hr hp' (ih (fun x realm' hx => hs x realm' (.step hpar hx)) hq')

/-- Deletion leaves the contexts of the other realms. -/
theorem Valid.sub (hv : Valid D rs) (hs : Sub rs rs') (hsh : Shape rs') : Valid D rs' := by
  intro r realm' hr hx' hseq
  obtain ⟨realm, hx, -, hc⟩ := hs r realm' hx'
  rw [hc] at hseq ⊢
  refine (hv r realm hr hx hseq).back hsh (fun x realm₁ _ hx₁ => ?_) hx'
  obtain ⟨realm₀, hx₀, hsame, -⟩ := hs x realm₁ hx₁
  exact ⟨realm₀, hx₀, hsame⟩

/-- `D` may shrink to the realms that are there. -/
theorem Valid.mono {D' : ℕ → Prop} (hv : Valid D rs) (hD : ∀ x realm, rs[x]? = some realm → D x → D' x) :
    Valid D' rs := fun r realm hr hx => hv r realm (fun h => hr (hD r realm hx h)) hx

/-! ## Contexts -/

/-- Only cached contexts differ. -/
def Recached (rs rs' : Realms) : Prop := ∀ x : ℕ,
  (∀ realm, rs[x]? = some realm → ∃ c, rs'[x]? = some { realm with cachedSnapContext := c }) ∧
    (rs[x]? = none → rs'[x]? = none)

theorem Recached.refl (rs : Realms) : Recached rs rs := fun _ => ⟨fun realm h => ⟨realm.cachedSnapContext, h⟩, id⟩

theorem Recached.trans {rs'' : Realms} (h : Recached rs rs') (h' : Recached rs' rs'') : Recached rs rs'' := by
  intro x
  refine ⟨fun realm hx => ?_, fun hx => (h' x).2 ((h x).2 hx)⟩
  obtain ⟨c, hc⟩ := (h x).1 realm hx
  obtain ⟨c', hc'⟩ := (h' x).1 _ hc
  exact ⟨c', hc'⟩

theorem recached_insert (hr : rs[r]? = some realm) (c : Context) :
    Recached rs (rs.insert r { realm with cachedSnapContext := c }) := by
  intro x
  rw [getElem?_insert]
  split
  · rename_i hx
    subst hx
    refine ⟨fun realm' h => ?_, fun h => ?_⟩
    · rw [hr, Option.some.injEq] at h
      exact ⟨c, by rw [← h]⟩
    · rw [hr] at h
      cases h
  · exact ⟨fun realm' h => ⟨realm'.cachedSnapContext, h⟩, id⟩

theorem Recached.back (h : Recached rs rs') (hx : rs'[x]? = some realm') :
    ∃ realm, rs[x]? = some realm ∧ realm' = { realm with cachedSnapContext := realm'.cachedSnapContext } := by
  cases hr : rs[x]? with
  | none =>
    rw [(h x).2 hr] at hx
    cases hx
  | some realm =>
    obtain ⟨c, hc⟩ := (h x).1 realm hr
    rw [hc, Option.some.injEq] at hx
    exact ⟨realm, rfl, by rw [← hx]⟩

theorem Recached.par (h : Recached rs rs') : par rs' = par rs := by
  funext x
  cases hr : rs[x]? with
  | none => rw [Snap.par, Snap.par, hr, (h x).2 hr]
  | some realm =>
    obtain ⟨c, hc⟩ := (h x).1 realm hr
    rw [par_eq hr, par_eq hc]

theorem Recached.shape (h : Recached rs rs') (hs : Shape rs) : Shape rs' := by
  refine ⟨fun x p hp => ?_, h.par ▸ hs.acyclic, fun p realm' hr c => ?_⟩
  · rw [h.par] at hp
    obtain ⟨realm, hr⟩ := hs.closed x p hp
    obtain ⟨c, hc⟩ := (h p).1 realm hr
    exact ⟨_, hc⟩
  · obtain ⟨realm, hr', he⟩ := h.back hr
    rw [h.par, he]
    exact hs.mirror p realm hr' c

theorem Recached.counted (h : Recached rs rs') (hc : Counted n rs) : Counted n rs' := by
  refine ⟨fun r realm' hr => ?_, fun r hn => ?_⟩
  · obtain ⟨realm, hr', he⟩ := h.back hr
    rw [he]
    exact hc.nref r realm hr'
  · obtain ⟨realm, hr⟩ := hc.alive r hn
    obtain ⟨c, hc⟩ := (h r).1 realm hr
    exact ⟨_, hc⟩

theorem Recached.scratch {c : Context} (h : Recached rs rs') (hc : Scratch rs r c) : Scratch rs' r c := by
  refine hc.congr fun x realm _ hx => ?_
  obtain ⟨c, hc⟩ := (h x).1 realm hx
  exact ⟨_, hc, rfl, rfl, rfl, rfl, rfl, rfl, rfl⟩

theorem Recached.closed (h : Recached rs rs') (hD : Closed D rs) : Closed D rs' := by
  intro x p hp
  rw [h.par] at hp
  exact hD x p hp

theorem getSnapContext_returns {m : ℕ} (hs : Shape rs) (hv : Valid D rs) (hD : Closed D rs)
    (hr : rs[r]? = some realm) (hm : (above (par rs) (dom rs) r).card ≤ m) :
    ∃ c rs', getSnapContext m rs r = .ok (c, rs') ∧ Recached rs rs' ∧ Valid D rs' ∧ (¬ D r → Scratch rs r c) := by
  induction m generalizing r realm with
  | zero =>
    have hself : r ∈ above (par rs) (dom rs) r := mem_above.mpr ⟨mem_dom.mpr ⟨realm, hr⟩, .refl r⟩
    rw [Finset.card_eq_zero.mp (Nat.le_zero.mp hm)] at hself
    cases hself
  | succ m ih =>
    simp only [getSnapContext, hr, deref_some_bind]
    by_cases hseq : realm.cachedSnapContext.seq ≠ 0
    · rw [if_pos hseq]
      exact ⟨_, rs, rfl, .refl rs, hv, fun hnD => hv r realm hnD hr hseq⟩
    rw [if_neg hseq]
    -- The context that is built is cached, and the others stay as they are.
    have hbuilt : ∀ (rs₁ : Realms) (c : Context), Recached rs rs₁ → Valid D rs₁ → (¬ D r → Scratch rs r c) →
        Recached rs (rs₁.insert r { realm with cachedSnapContext := c }) ∧
          Valid D (rs₁.insert r { realm with cachedSnapContext := c }) := by
      intro rs₁ c hrec hv₁ hc
      obtain ⟨c₁, hc₁⟩ := (hrec r).1 realm hr
      have hrec₁ := recached_insert hc₁ c
      refine ⟨hrec.trans hrec₁, fun x realm' hx hx' hseq' => ?_⟩
      rw [getElem?_insert] at hx'
      split at hx'
      · rename_i he
        subst he
        cases hx'
        exact (hrec.trans hrec₁).scratch (hc hx)
      · exact hrec₁.scratch (hv₁ x realm' hx hx' hseq')
    rcases Option.eq_none_or_eq_some realm.pparent with hp | ⟨p, hp⟩
    · have hc : ¬ D r → Scratch rs r (realm.buildSnapContext none) := fun _ => .root hr hp
      obtain ⟨h₁, h₂⟩ := hbuilt rs _ (.refl rs) hv hc
      refine ⟨_, _, ?_, h₁, h₂, hc⟩
      simp only [hp]
      rfl
    · have hpar : par rs r = some p := (par_eq hr).trans hp
      obtain ⟨parent, hparent⟩ := hs.closed r p hpar
      have hlt := card_above_lt hs.acyclic (mem_dom.mpr ⟨realm, hr⟩) hpar
      obtain ⟨pc, rs₁, hok, hrec, hv₁, hpc⟩ := ih hparent (by omega)
      have hc : ¬ D r → Scratch rs r (realm.buildSnapContext (some pc)) :=
        fun hnD => .node hr hp (hpc fun h => hnD (hD r p hpar h))
      obtain ⟨h₁, h₂⟩ := hbuilt rs₁ _ hrec hv₁ hc
      refine ⟨_, _, ?_, h₁, h₂, hc⟩
      simp only [hp, hok]
      rfl

theorem context_returns (hs : Shape rs) (hv : Valid D rs) (hD : Closed D rs) (hr : rs[r]? = some realm) :
    ∃ c rs', rs.context r = .ok (c, rs') ∧ Recached rs rs' ∧ Valid D rs' ∧ (¬ D r → Scratch rs r c) :=
  getSnapContext_returns hs hv hD hr ((card_above_le r).trans ((card_dom_le rs).trans (Nat.le_succ _)))

/-! ## Walks over a subtree -/

theorem Recached.dom (h : Recached rs rs') : dom rs' = dom rs := by
  ext x
  rw [mem_dom, mem_dom]
  constructor
  · rintro ⟨realm', hx⟩
    obtain ⟨realm, hx', -⟩ := h.back hx
    exact ⟨realm, hx'⟩
  · rintro ⟨realm, hx⟩
    obtain ⟨c, hc⟩ := (h x).1 realm hx
    exact ⟨_, hc⟩

/-- The number of realms that a walk over the subtrees of a queue visits. -/
noncomputable def weight (rs : Realms) (q : List ℕ) : ℕ := (q.map fun r => (below (par rs) (Snap.dom rs) r).card).sum

theorem Recached.weight (h : Recached rs rs') (q : List ℕ) : weight rs' q = weight rs q := by
  rw [Snap.weight, Snap.weight, h.par, h.dom]

/-- The children come into the queue for their parent. -/
theorem weight_children (hs : Shape rs) (hr : rs[r]? = some realm) (q : List ℕ) :
    weight rs (q ++ ascending realm.pchildren) < weight rs (r :: q) := by
  have hsum : ((ascending realm.pchildren).map fun c => (below (par rs) (dom rs) c).card).sum =
      ∑ c ∈ realm.pchildren, (below (par rs) (dom rs) c).card := by
    rw [← List.sum_toFinset _ (nodup_ascending _)]
    congr 1
    ext c
    simp
  have hcs : ∀ c ∈ realm.pchildren, par rs c = some r := fun c hc => (hs.mirror r realm hr c).mp hc
  have hlt := sum_card_below_lt hs.acyclic (mem_dom.mpr ⟨realm, hr⟩) hcs
  rw [weight, weight, List.map_append, List.sum_append, List.map_cons, List.sum_cons, hsum]
  omega

theorem weight_pos (hr : rs[r]? = some realm) (q : List ℕ) : 0 < weight rs (r :: q) := by
  have hself : r ∈ below (par rs) (dom rs) r := mem_below.mpr ⟨mem_dom.mpr ⟨realm, hr⟩, .refl r⟩
  have := Finset.card_pos.mpr ⟨r, hself⟩
  rw [weight, List.map_cons, List.sum_cons]
  omega

theorem weight_single_le (rs : Realms) (r : ℕ) : weight rs [r] ≤ rs.size := by
  rw [weight, List.map_singleton, List.sum_singleton]
  exact (card_below_le r).trans (card_dom_le rs)

/-- All that is in the queue is known. -/
def Known (rs : Realms) (q : List ℕ) : Prop := ∀ r ∈ q, ∃ realm, rs[r]? = some realm

theorem Known.next (h : Known rs (r :: q)) (hs : Shape rs) (hr : rs[r]? = some realm) (hrec : Recached rs rs') :
    Known rs' (q ++ ascending realm.pchildren) := by
  intro x hx
  have hknown : ∃ realm, rs[x]? = some realm := by
    rcases List.mem_append.mp hx with hx | hx
    · exact h x (List.mem_cons_of_mem r hx)
    · rw [mem_ascending, hs.mirror r realm hr] at hx
      obtain ⟨child, hc, -⟩ := par_eq_some.mp hx
      exact ⟨child, hc⟩
  obtain ⟨realm, hx⟩ := hknown
  obtain ⟨c, hc⟩ := (hrec x).1 realm hx
  exact ⟨_, hc⟩

/-- The realm has no context cached. -/
def Unset (rs : Realms) (x : ℕ) : Prop := ∀ realm, rs[x]? = some realm → realm.cachedSnapContext.seq = 0

theorem invalidateLoop_returns {m : ℕ} {q : List ℕ} (hs : Shape rs) (hq : Known rs q) (hm : weight rs q ≤ m) :
    ∃ rs', invalidateLoop m rs q = .ok rs' ∧ Recached rs rs' ∧
      (∀ x, (Unset rs x ∨ ∃ r ∈ q, Above (par rs) x r) → Unset rs' x) ∧
      ∀ x : ℕ, (¬ ∃ r ∈ q, Above (par rs) x r) → rs'[x]? = rs[x]? := by
  induction m generalizing rs q with
  | zero =>
    cases q with
    | nil =>
      refine ⟨rs, rfl, .refl rs, fun x hx => hx.resolve_right ?_, fun _ _ => rfl⟩
      rintro ⟨r, hr, -⟩
      cases hr
    | cons r q =>
      obtain ⟨realm, hr⟩ := hq r List.mem_cons_self
      have := weight_pos hr q
      omega
  | succ m ih =>
    cases q with
    | nil =>
      refine ⟨rs, rfl, .refl rs, fun x hx => hx.resolve_right ?_, fun _ _ => rfl⟩
      rintro ⟨r, hr, -⟩
      cases hr
    | cons r q =>
      obtain ⟨realm, hr⟩ := hq r List.mem_cons_self
      set rs₁ : Realms := rs.insert r { realm with cachedSnapContext := { realm.cachedSnapContext with seq := 0 } }
        with hrs₁
      have hrec : Recached rs rs₁ := recached_insert hr _
      have hlt := weight_children hs hr q
      obtain ⟨rs', hok, hrec', hunset, hsame⟩ := ih (hrec.shape hs) (hq.next hs hr hrec)
        (by rw [hrec.weight]; omega)
      rw [hrec.par] at hunset hsame
      refine ⟨rs', ?_, hrec.trans hrec', fun x hx => hunset x ?_, fun x hx => ?_⟩
      · rw [invalidateLoop, hr, deref_some_bind]
        exact hok
      · by_cases hxr : x = r
        · refine .inl fun realm' hx' => ?_
          rw [hrs₁, getElem?_insert, if_pos hxr, Option.some.injEq] at hx'
          rw [← hx']
        · rcases hx with hx | ⟨r', hr', hx⟩
          · refine .inl fun realm' hx' => hx realm' ?_
            rwa [hrs₁, getElem?_insert, if_neg hxr] at hx'
          · refine .inr ?_
            rcases List.mem_cons.mp hr' with rfl | hr'
            · obtain ⟨c, hc, hxc⟩ := (above_cases_tail hx).resolve_left hxr
              exact ⟨c, List.mem_append_right _ (mem_ascending.mpr ((hs.mirror r' realm hr c).mpr hc)), hxc⟩
            · exact ⟨r', List.mem_append_left _ hr', hx⟩
      · rw [hsame x ?_, hrs₁, getElem?_insert, if_neg]
        · rintro rfl
          exact hx ⟨x, List.mem_cons_self, .refl x⟩
        · rintro ⟨r', hr', hxr'⟩
          rcases List.mem_append.mp hr' with hr' | hr'
          · exact hx ⟨r', List.mem_cons_of_mem r hr', hxr'⟩
          · rw [mem_ascending, hs.mirror r realm hr] at hr'
            exact hx ⟨r, List.mem_cons_self, hxr'.trans (.step hr' (.refl r))⟩

/-- What is at or below the realm is invalidated, and becomes valid by that. -/
theorem invalidate_returns (hs : Shape rs) (hv : Valid D rs) (hr : rs[r]? = some realm) :
    ∃ rs', rs.invalidateSnaprealmAndChildren r = .ok rs' ∧ Recached rs rs' ∧
      Valid (fun x => D x ∧ ¬ Above (par rs) x r) rs' := by
  obtain ⟨rs', hok, hrec, hunset, hsame⟩ := invalidateLoop_returns hs (q := [r])
    (fun x hx => by rw [List.mem_singleton.mp hx]; exact ⟨realm, hr⟩) (weight_single_le rs r)
  refine ⟨rs', hok, hrec, fun x realm' hx hx' hseq => ?_⟩
  by_cases hb : Above (par rs) x r
  · exact absurd (hunset x (.inr ⟨r, List.mem_singleton_self r, hb⟩) realm' hx') hseq
  · have hx'' := hsame x fun ⟨r', hr', hxr'⟩ => hb (List.mem_singleton.mp hr' ▸ hxr')
    rw [hx''] at hx'
    exact hrec.scratch (hv x realm' (fun hD => hx ⟨hD, hb⟩) hx' hseq)

theorem flushLoop_returns {has : ℕ → Bool} {m : ℕ} {q : List ℕ} (hs : Shape rs) (hv : Valid D rs) (hD : Closed D rs)
    (hq : Known rs q) (hm : weight rs q ≤ m) :
    ∃ rs', flushLoop has m rs q = .ok rs' ∧ Recached rs rs' ∧ Valid D rs' := by
  induction m generalizing rs q with
  | zero =>
    cases q with
    | nil => exact ⟨rs, rfl, .refl rs, hv⟩
    | cons r q =>
      obtain ⟨realm, hr⟩ := hq r List.mem_cons_self
      have := weight_pos hr q
      omega
  | succ m ih =>
    cases q with
    | nil => exact ⟨rs, rfl, .refl rs, hv⟩
    | cons r q =>
      obtain ⟨realm, hr⟩ := hq r List.mem_cons_self
      have hlt := weight_children hs hr q
      rw [flushLoop, hr, deref_some_bind]
      split
      · obtain ⟨c, rs₁, hok, hrec, hv₁, -⟩ := context_returns hs hv hD hr
        obtain ⟨rs', hok', hrec', hv'⟩ := ih (hrec.shape hs) hv₁ (hrec.closed hD) (hq.next hs hr hrec)
          (by rw [hrec.weight]; omega)
        refine ⟨rs', ?_, hrec.trans hrec', hv'⟩
        rw [hok]
        exact hok'
      · exact ih hs hv hD (hq.next hs hr (.refl rs)) (by omega)

/-! ## References -/

/-- One reference less, and one more. -/
def dec (n : ℕ → ℕ) (r : ℕ) : ℕ → ℕ := Function.update n r (n r - 1)

def inc (n : ℕ → ℕ) (r : ℕ) : ℕ → ℕ := Function.update n r (n r + 1)

theorem dec_inc (n : ℕ → ℕ) (r : ℕ) : dec (inc n r) r = n := by
  rw [dec, inc, Function.update_self, Nat.add_sub_cancel, Function.update_idem, Function.update_eq_self]

theorem inc_self (n : ℕ → ℕ) (r : ℕ) : inc n r r = n r + 1 := Function.update_self _ _ _

theorem inc_of_ne (n : ℕ → ℕ) (h : x ≠ r) : inc n r x = n x := Function.update_of_ne h _ _

theorem dec_self (n : ℕ → ℕ) (r : ℕ) : dec n r r = n r - 1 := Function.update_self _ _ _

theorem dec_of_ne (n : ℕ → ℕ) (h : x ≠ r) : dec n r x = n x := Function.update_of_ne h _ _

theorem Counted.insert {m : ℕ → ℕ} (hc : Counted n rs) (h : realm'.nref = (m r + realm'.pchildren.card : ℕ))
    (hm : ∀ x, x ≠ r → m x = n x) : Counted m (rs.insert r realm') := by
  refine ⟨fun x realm₁ hx => ?_, fun x hx => ?_⟩
  · rw [getElem?_insert] at hx
    split at hx
    · rename_i he
      cases hx
      rw [he, h]
    · rename_i he
      rw [hm x he]
      exact hc.nref x realm₁ hx
  · rw [getElem?_insert]
    split
    · exact ⟨_, rfl⟩
    · rename_i he
      rw [hm x he] at hx
      exact hc.alive x hx

theorem Counted.erase {m : ℕ → ℕ} (hc : Counted n rs) (h : m r = 0) (hm : ∀ x, x ≠ r → m x = n x) :
    Counted m (rs.erase r) := by
  refine ⟨fun x realm₁ hx => ?_, fun x hx => ?_⟩
  · rw [getElem?_erase] at hx
    split at hx
    · cases hx
    · rename_i he
      rw [hm x he]
      exact hc.nref x realm₁ hx
  · rw [getElem?_erase]
    split
    · rename_i he
      rw [he] at hx
      exact absurd h hx
    · rename_i he
      rw [hm x he] at hx
      exact hc.alive x hx

/-- Only the references of a realm change. -/
theorem par_insert_same (hr : rs[r]? = some realm) (hp : realm'.pparent = realm.pparent) :
    par (rs.insert r realm') = par rs := by
  funext x
  rw [par, par, getElem?_insert]
  split
  · rename_i hx
    rw [hx, hr, Option.bind_some, Option.bind_some, hp]
  · rfl

theorem Shape.insert_same (hs : Shape rs) (hr : rs[r]? = some realm) (hp : realm'.pparent = realm.pparent)
    (hc : realm'.pchildren = realm.pchildren) : Shape (rs.insert r realm') := by
  have hpar := par_insert_same hr hp
  refine ⟨fun x p hx => ?_, hpar ▸ hs.acyclic, fun p realm₁ hp₁ c => ?_⟩
  · rw [hpar] at hx
    obtain ⟨parent, hparent⟩ := hs.closed x p hx
    rw [getElem?_insert]
    split
    · exact ⟨_, rfl⟩
    · exact ⟨parent, hparent⟩
  · rw [hpar]
    rw [getElem?_insert] at hp₁
    split at hp₁
    · rename_i he
      cases hp₁
      rw [hc, he]
      exact hs.mirror r realm hr c
    · exact hs.mirror p realm₁ hp₁ c

theorem Sub.card_above_le (h : Sub rs rs') (x : ℕ) :
    (Ancestry.above (Snap.par rs') (dom rs') x).card ≤ (Ancestry.above (Snap.par rs) (dom rs) x).card := by
  refine Finset.card_le_card fun y hy => ?_
  obtain ⟨hy, hxy⟩ := mem_above.mp hy
  obtain ⟨realm', hy'⟩ := mem_dom.mp hy
  obtain ⟨realm, hy'', -⟩ := h y realm' hy'
  exact mem_above.mpr ⟨mem_dom.mpr ⟨realm, hy''⟩, h.above hxy⟩

/-- A realm without children is deleted. -/
theorem par_erase (rs : Realms) (r x : ℕ) : par (rs.erase r) x = if x = r then none else par rs x := by
  rw [par, getElem?_erase]
  split
  · rfl
  · rfl

theorem Shape.erase_root (hs : Shape rs) (hr : rs[r]? = some realm) (hp : realm.pparent = none)
    (hc : realm.pchildren = ∅) : Shape (rs.erase r) := by
  have hchild : ∀ x, par rs x ≠ some r := by
    intro x hx
    have := (hs.mirror r realm hr x).mpr hx
    rw [hc] at this
    cases this
  refine ⟨fun x p hx => ?_, hs.acyclic.mono fun x p hx => ?_, fun p realm₁ hp₁ c => ?_⟩
  · rw [par_erase] at hx
    split at hx
    · cases hx
    · obtain ⟨parent, hparent⟩ := hs.closed x p hx
      rw [getElem?_erase, if_neg]
      · exact ⟨parent, hparent⟩
      · rintro rfl
        exact hchild x hx
  · rw [par_erase] at hx
    split at hx
    · cases hx
    · exact hx
  · rw [getElem?_erase] at hp₁
    split at hp₁
    · cases hp₁
    · rw [hs.mirror p realm₁ hp₁ c, par_erase]
      split
      · rename_i he
        rw [he, par_eq hr, hp]
      · rfl

/-- A realm leaves its parent; it has no children itself. -/
theorem Shape.erase_child {parent : Realm} (hs : Shape rs) (hr : rs[r]? = some realm) (hp : realm.pparent = some p)
    (hc : realm.pchildren = ∅) (hparent : rs[p]? = some parent) :
    p ≠ r ∧ Shape ((rs.erase r).insert p { parent with pchildren := parent.pchildren.erase r }) ∧
      Sub rs ((rs.erase r).insert p { parent with pchildren := parent.pchildren.erase r }) := by
  have hpr : par rs r = some p := (par_eq hr).trans hp
  have hne : p ≠ r := by
    rintro rfl
    exact hs.acyclic.not_above hpr (.refl p)
  have hchild : ∀ x, par rs x ≠ some r := by
    intro x hx
    have := (hs.mirror r realm hr x).mpr hx
    rw [hc] at this
    cases this
  have hget : (rs.erase r)[p]? = some parent := by rw [getElem?_erase, if_neg hne, hparent]
  have hpar : ∀ x, par ((rs.erase r).insert p { parent with pchildren := parent.pchildren.erase r }) x =
      if x = r then none else par rs x := by
    intro x
    rw [par_insert_same hget (show Realm.pparent { parent with pchildren := parent.pchildren.erase r } =
      parent.pparent from rfl), par_erase]
  refine ⟨hne, ⟨fun x q hx => ?_, hs.acyclic.mono fun x q hx => ?_, fun q realm₁ hq c => ?_⟩, fun x realm₁ hx => ?_⟩
  · rw [hpar] at hx
    split at hx
    · cases hx
    · obtain ⟨above, habove⟩ := hs.closed x q hx
      rw [getElem?_insert]
      split
      · exact ⟨_, rfl⟩
      · rw [getElem?_erase, if_neg]
        · exact ⟨above, habove⟩
        · rintro rfl
          exact hchild x hx
  · rw [hpar] at hx
    split at hx
    · cases hx
    · exact hx
  · rw [hpar]
    rw [getElem?_insert] at hq
    split at hq
    · rename_i he
      cases hq
      rw [Finset.mem_erase, hs.mirror p parent hparent, he]
      split
      · rename_i hcr
        simp [hcr]
      · rename_i hcr
        simp [hcr]
    · rename_i hqp
      rw [getElem?_erase] at hq
      split at hq
      · cases hq
      · rw [hs.mirror q realm₁ hq c]
        split
        · rename_i hcr
          rw [hcr, hpr]
          simp [Ne.symm hqp]
        · rfl
  · rw [getElem?_insert] at hx
    split at hx
    · rename_i he
      cases hx
      rw [he]
      exact ⟨parent, hparent, ⟨rfl, rfl, rfl, rfl, rfl, rfl, rfl⟩, rfl⟩
    · rw [getElem?_erase] at hx
      split at hx
      · cases hx
      · exact ⟨realm₁, hx, .refl _, rfl⟩

theorem putSnapRealm_returns {m : ℕ} (hs : Shape rs) (hc : Counted n rs) (hn : n r ≠ 0)
    (hm : (above (par rs) (dom rs) r).card ≤ m) :
    ∃ rs', putSnapRealm m rs r = .ok rs' ∧ Shape rs' ∧ Counted (dec n r) rs' ∧ Sub rs rs' := by
  induction m generalizing rs n r with
  | zero =>
    obtain ⟨realm, hr⟩ := hc.alive r hn
    have hself : r ∈ above (par rs) (dom rs) r := mem_above.mpr ⟨mem_dom.mpr ⟨realm, hr⟩, .refl r⟩
    rw [Finset.card_eq_zero.mp (Nat.le_zero.mp hm)] at hself
    cases hself
  | succ m ih =>
    obtain ⟨realm, hr⟩ := hc.alive r hn
    have hnref := hc.nref r realm hr
    rw [putSnapRealm, hr, deref_some_bind]
    by_cases hlast : realm.nref - 1 ≠ 0
    · rw [if_pos hlast]
      refine ⟨_, rfl, hs.insert_same hr rfl rfl, hc.insert ?_ fun x hx => dec_of_ne n hx, fun x realm₁ hx => ?_⟩
      · show realm.nref - 1 = _
        rw [dec_self, hnref]
        show ((n r + realm.pchildren.card : ℕ) : ℤ) - 1 = ((n r - 1 + realm.pchildren.card : ℕ) : ℤ)
        omega
      · rw [getElem?_insert] at hx
        split at hx
        · rename_i he
          cases hx
          rw [he]
          exact ⟨realm, hr, ⟨rfl, rfl, rfl, rfl, rfl, rfl, rfl⟩, rfl⟩
        · exact ⟨realm₁, hx, .refl _, rfl⟩
    rw [if_neg hlast]
    have hcard : n r = 1 ∧ realm.pchildren = ∅ := by
      rw [← Finset.card_eq_zero]
      omega
    rcases Option.eq_none_or_eq_some realm.pparent with hp | ⟨p, hp⟩
    · rw [hp]
      refine ⟨_, rfl, hs.erase_root hr hp hcard.2, hc.erase (by rw [dec_self, hcard.1]) fun x hx => dec_of_ne n hx,
        fun x realm₁ hx => ?_⟩
      rw [getElem?_erase] at hx
      split at hx
      · cases hx
      · exact ⟨realm₁, hx, .refl _, rfl⟩
    · have hpar : par rs r = some p := (par_eq hr).trans hp
      obtain ⟨parent, hparent⟩ := hs.closed r p hpar
      obtain ⟨hne, hs₂, hsub⟩ := hs.erase_child hr hp hcard.2 hparent
      set rs₂ := (rs.erase r).insert p { parent with pchildren := parent.pchildren.erase r } with hrs₂
      have hmem : r ∈ parent.pchildren := (hs.mirror p parent hparent r).mpr hpar
      -- The reference of the child is now one that is to be dropped.
      have hc₁ : Counted (dec n r) (rs.erase r) := hc.erase (by rw [dec_self, hcard.1]) fun x hx => dec_of_ne n hx
      have hc₂ : Counted (inc (dec n r) p) rs₂ := by
        refine hc₁.insert ?_ fun x hx => inc_of_ne _ hx
        show parent.nref = _
        rw [inc_self, dec_of_ne n hne, hc.nref p parent hparent]
        show _ = ((n p + 1 + (parent.pchildren.erase r).card : ℕ) : ℤ)
        rw [Finset.card_erase_of_mem hmem]
        have := Finset.card_pos.mpr ⟨r, hmem⟩
        omega
      have hlt := card_above_lt hs.acyclic (mem_dom.mpr ⟨realm, hr⟩) hpar
      have hle := Sub.card_above_le hsub p
      obtain ⟨rs', hok, hs', hc', hsub'⟩ := ih hs₂ hc₂ (r := p)
        (by rw [inc, Function.update_self]; exact Nat.succ_ne_zero _) (by omega)
      rw [dec_inc] at hc'
      refine ⟨rs', ?_, hs', hc', hsub.trans hsub'⟩
      have hget : (rs.erase r)[p]? = some parent := by rw [getElem?_erase, if_neg hne, hparent]
      rw [hp]
      show (deref (rs.erase r)[p]? >>= _) = _
      rw [hget, deref_some_bind]
      exact hok

theorem put_returns (hs : Shape rs) (hc : Counted n rs) (hn : n r ≠ 0) :
    ∃ rs', rs.put r = .ok rs' ∧ Shape rs' ∧ Counted (dec n r) rs' ∧ Sub rs rs' :=
  putSnapRealm_returns hs hc hn ((card_above_le r).trans (card_dom_le rs))

end CephMds.Snap
