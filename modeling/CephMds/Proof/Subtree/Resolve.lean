import CephMds.Proof.Subtree.Claim

/-!
# Claims of peers after a failure

In the resolve stage every peer names the subtrees it has, and
`handleResolve` gives each the authority of its claimant. A claim that keeps its
bounds changes the authority of its own region only (`handleClaim_spec`), so
that claims of disjoint regions come to the same in every order in which they
keep theirs (`handleResolve_perm`).
-/

namespace CephMds.Cache

variable {ι α L : Type} [LinearOrder α] {I : InodeAuthority ι α} {c : Cache ι α L} {x : α}

open Checked

/-- `x` is in the region of the claim. A root that is not cached has none. -/
def InClaim (t : DirTree ι α) (claim : Option α × Finset α) (x : α) : Prop :=
  ∃ d, claim.1 = some d ∧ t.forest.Region d claim.2 x

/-- The claim fits the cached tree: its root is linked, and its bounds are
directly below. -/
def Fits (t : DirTree ι α) (claim : Option α × Finset α) : Prop :=
  ∀ d, claim.1 = some d → Linked t d ∧
    ∀ b ∈ claim.2, t.forest.above (fun y => y = d ∨ y ∈ claim.2) b = some d

/-- The claims of all messages, each with its sender. -/
def claimsOf (ms : List (Resolve α)) : List (ℤ × Option α × Finset α) :=
  ms.flatMap fun m => m.subtrees.map (m.sender, ·)

omit [LinearOrder α] in
theorem mem_claimsOf {ms : List (Resolve α)} {p : ℤ × Option α × Finset α} :
    p ∈ claimsOf ms ↔ ∃ m ∈ ms, p.1 = m.sender ∧ p.2 ∈ m.subtrees := by
  simp only [claimsOf, List.mem_flatMap, List.mem_map]
  constructor
  · rintro ⟨m, hm, claim, hc, rfl⟩
    exact ⟨m, hm, rfl, hc⟩
  · rintro ⟨m, hm, hp, hc⟩
    exact ⟨m, hm, p.2, hc, by rw [← hp]⟩

theorem Fits.cached {t : DirTree ι α} {claim : Option α × Finset α} (hf : Fits t claim)
    (hx : InClaim t claim x) : x ∈ t.dirs := by
  obtain ⟨d, hd, hR⟩ := hx
  rw [t.mem_dirs]
  by_cases hxd : x = d
  · obtain ⟨⟨i, hi, -⟩, -⟩ := hf d hd
    rw [hxd, hi]; rfl
  · obtain ⟨-, q, hq, -⟩ := hR.parent hxd
    obtain ⟨i, hi, -⟩ := Option.bind_eq_some_iff.mp hq
    rw [hi]; rfl

/-- What the messages are promised to be: the claims fit the cached tree and are
disjoint from each other and from the subtrees of this rank, what is not
claimed belongs to this rank or is undefined, and export bounds hang below
subtrees of this rank. -/
structure Consistent (whoami : ℤ) (c : Cache ι α L) (ms : List (Resolve α)) : Prop where
  inv : Inv c
  covered {x : α} : x ∈ c.tree.dirs → (c.getSubtreeRoot x).isSome
  unclaimed {x : α} {a : Auth} : x ∈ c.tree.dirs → (∀ m ∈ ms, ∀ claim ∈ m.subtrees, ¬ InClaim c.tree claim x) →
    c.rootAuth x = some a → a = cdirAuthUndef ∨ a.first = whoami
  sender {m : Resolve α} : m ∈ ms → 0 ≤ m.sender
  fits {m : Resolve α} {claim : Option α × Finset α} : m ∈ ms → claim ∈ m.subtrees →
    Fits c.tree claim
  others {m : Resolve α} {claim : Option α × Finset α} {x : α} {a : Auth} : m ∈ ms →
    claim ∈ m.subtrees → InClaim c.tree claim x → c.rootAuth x = some a → a.first ≠ whoami
  disjoint : (claimsOf ms).Pairwise fun p p' => ∀ x, InClaim c.tree p.2 x → ¬ InClaim c.tree p'.2 x
  exportBound {x q : α} : c.exportBound x = true → c.getParentDir x = some q →
    ∃ a, c.rootAuth q = some a ∧ a.first = whoami

/-- A claim that can be handled: of a peer, and with no export bound below it. -/
structure Admits (c : Cache ι α L) (p : ℤ × Option α × Finset α) : Prop where
  sender : 0 ≤ p.1
  fits : Fits c.tree p.2
  exportBound {x q : α} : c.exportBound x = true → c.getParentDir x = some q → ¬ InClaim c.tree p.2 q

namespace Consistent

variable {whoami : ℤ} {ms ms' : List (Resolve α)} (h : Consistent whoami c ms)
include h

theorem rootAuth_isSome (hx : x ∈ c.tree.dirs) : (c.rootAuth x).isSome := by
  rw [Cache.rootAuth, Option.isSome_map]
  exact h.covered hx

theorem admits {p : ℤ × Option α × Finset α} (hp : p ∈ claimsOf ms) : Admits c p := by
  obtain ⟨m, hm, hs, hc⟩ := mem_claimsOf.mp hp
  refine ⟨hs ▸ h.sender hm, h.fits hm hc, fun {x q} hx hq hR => ?_⟩
  obtain ⟨a, ha, hw⟩ := h.exportBound hx hq
  exact h.others hm hc hR ha hw

theorem perm (hp : ms.Perm ms') : Consistent whoami c ms' := by
  refine ⟨h.inv, h.covered, fun hx hno => h.unclaimed hx fun m hm => hno m (hp.mem_iff.mp hm),
    fun hm => h.sender (hp.mem_iff.mpr hm), fun hm => h.fits (hp.mem_iff.mpr hm),
    fun hm => h.others (hp.mem_iff.mpr hm), ?_, h.exportBound⟩
  refine ((hp.flatMap_right _).pairwise_iff fun hxy x hx hx' => ?_).mp h.disjoint
  exact hxy x hx' hx

end Consistent

/-! ## Handling the messages -/

variable [AddCommGroup L]

theorem plain_sender {n : ℤ} (h : 0 ≤ n) : Plain ⟨n, cdirAuthUnknown⟩ := by
  refine ⟨fun e => ?_, rfl⟩
  simp only [cdirAuthDefault, cdirAuthParent, Auth.mk.injEq] at e
  omega

theorem foldlM_handleResolve (ms : List (Resolve α)) (c : Cache ι α L) :
    ms.foldlM (handleResolve I) c =
      (claimsOf ms).foldlM (fun c p => handleClaim I p.1 c p.2) c := by
  induction ms generalizing c with
  | nil => rfl
  | cons m ms ih =>
    simp only [claimsOf, List.flatMap_cons, List.foldlM_append, List.foldlM_cons, List.foldlM_map]
    congr 1
    funext c'
    exact ih c'

/-- One claim that keeps its bounds. -/
theorem handleClaim_spec {n : ℤ} {claim : Option α × Finset α} (hI : Inv c) (ha : Admits c (n, claim))
    (hroot : ∀ x ∈ c.tree.dirs, (c.rootAuth x).isSome) (hk : ∀ d, claim.1 = some d → KeepsBounds c d claim.2) :
    ∃ c', handleClaim I n c claim = .ok c' ∧ Stays c c' ∧
      ∀ x, (InClaim c.tree claim x → c'.rootAuth x = some ⟨n, cdirAuthUnknown⟩) ∧
        (¬ InClaim c.tree claim x → c'.rootAuth x = c.rootAuth x) := by
  obtain ⟨o, B⟩ := claim
  cases o with
  | none =>
    refine ⟨c, rfl, .refl hI, fun x => ⟨?_, fun _ => rfl⟩⟩
    rintro ⟨d, hd, -⟩
    cases hd
  | some d =>
    obtain ⟨hl, hb⟩ := ha.fits d rfl
    have hd : d ∈ c.tree.dirs := ha.fits.cached ⟨d, rfl, Forest.region_self⟩
    have hc : Claimable c d B := ⟨hI, hl, hb, hroot d hd, hk d rfl,
      fun {x q} hx hq hR => ha.exportBound hx hq ⟨d, rfl, hR⟩⟩
    obtain ⟨c₁, h₁, s₁, hd₁, hA₁⟩ := adjustBoundedSubtreeAuth_region (I := I) hc (plain_sender ha.sender)
    have hl₁ : Linked c₁.tree d := by
      rw [s₁.frame.tree]
      exact hl
    obtain ⟨c', h', s', hA'⟩ := trySubtreeMerge_rootAuth s₁.inv hd₁ hl₁
    refine ⟨c', bind_ok.mpr ⟨c₁, h₁, h'⟩, s₁.trans s', fun x => ⟨?_, fun hx => ?_⟩⟩
    · rintro ⟨e, he, hx⟩
      obtain rfl : d = e := Option.some.inj he
      rw [hA', (hA₁ x).1 hx]
    · rw [hA', (hA₁ x).2 fun hR => hx ⟨d, rfl, hR⟩]

/-- Each claim of the list keeps its bounds, in the state in which its turn comes. -/
def Keep (I : InodeAuthority ι α) : Cache ι α L → List (ℤ × Option α × Finset α) → Prop
  | _, [] => True
  | c, p :: l => (∀ d, p.2.1 = some d → KeepsBounds c d p.2.2) ∧
      ∀ c', handleClaim I p.1 c p.2 = .ok c' → Keep I c' l

theorem handleClaims_spec {l : List (ℤ × Option α × Finset α)} (hI : Inv c) (hl : ∀ p ∈ l, Admits c p)
    (hd : l.Pairwise fun p p' => ∀ x, InClaim c.tree p.2 x → ¬ InClaim c.tree p'.2 x)
    (hroot : ∀ x ∈ c.tree.dirs, (c.rootAuth x).isSome) (hk : Keep I c l) :
    ∃ c', l.foldlM (fun c p => handleClaim I p.1 c p.2) c = .ok c' ∧ Stays c c' ∧
      (∀ p ∈ l, ∀ x, InClaim c.tree p.2 x → c'.rootAuth x = some ⟨p.1, cdirAuthUnknown⟩) ∧
      ∀ x, (∀ p ∈ l, ¬ InClaim c.tree p.2 x) → c'.rootAuth x = c.rootAuth x := by
  induction l generalizing c with
  | nil => exact ⟨c, rfl, .refl hI, by simp, fun _ _ => rfl⟩
  | cons p l ih =>
    obtain ⟨hkp, hk⟩ := hk
    obtain ⟨hpd, hd⟩ := List.pairwise_cons.mp hd
    obtain ⟨c₁, h₁, s₁, hA₁⟩ := handleClaim_spec (I := I) hI (hl p List.mem_cons_self) hroot hkp
    have ht := s₁.frame.tree
    have hl₁ : ∀ p' ∈ l, Admits c₁ p' := by
      intro p' hp'
      obtain ⟨hn, hf, he⟩ := hl p' (List.mem_cons_of_mem _ hp')
      refine ⟨hn, ht ▸ hf, fun {x q} hx hq => ?_⟩
      rw [s₁.frame.exportBound] at hx
      rw [getParentDir, ht] at hq
      rw [ht]
      exact he hx hq
    have hroot₁ : ∀ x ∈ c₁.tree.dirs, (c₁.rootAuth x).isSome := by
      intro x hx
      by_cases hR : InClaim c.tree p.2 x
      · rw [(hA₁ x).1 hR]
        rfl
      · rw [(hA₁ x).2 hR]
        exact hroot x (ht ▸ hx)
    obtain ⟨c', h', s', hin, hout⟩ := ih s₁.inv hl₁ (by rw [ht]; exact hd) hroot₁ (hk c₁ h₁)
    rw [ht] at hin hout
    refine ⟨c', ?_, s₁.trans s', fun p' hp' x hx => ?_, fun x hx => ?_⟩
    · rw [List.foldlM_cons, bind_ok]
      exact ⟨c₁, h₁, h'⟩
    · rcases List.mem_cons.mp hp' with rfl | hp'
      · rw [hout x fun p'' hp'' => hpd p'' hp'' x hx, (hA₁ x).1 hx]
      · exact hin p' hp' x hx
    · rw [hout x fun p' hp' => hx p' (List.mem_cons_of_mem _ hp'), (hA₁ x).2 (hx p List.mem_cons_self)]

/-- In every order of the messages in which the claims keep their bounds, they
are handled without a fault, every claimed fragment ends with its claimant as
authority, and every other one with the authority it had: this rank's, or
undefined. -/
theorem handleResolve_perm {whoami : ℤ} {ms ms' : List (Resolve α)}
    (h : Consistent whoami c ms) (hp : ms.Perm ms') (hk : Keep I c (claimsOf ms')) :
    ∃ c', ms'.foldlM (handleResolve I) c = .ok c' ∧
      (∀ m ∈ ms, ∀ claim ∈ m.subtrees, ∀ x, InClaim c.tree claim x →
        c'.authority I x = ⟨m.sender, cdirAuthUnknown⟩) ∧
      ∀ x ∈ c.tree.dirs, (∀ m ∈ ms, ∀ claim ∈ m.subtrees, ¬ InClaim c.tree claim x) →
        c'.authority I x = c.authority I x ∧
        ((c.authority I x).first ≠ whoami → c'.authority I x = cdirAuthUndef) := by
  have h' := h.perm hp
  obtain ⟨c', hc', -, hin, hout⟩ := handleClaims_spec h'.inv (fun p hp => h'.admits hp) h'.disjoint
    (fun x => h'.rootAuth_isSome) hk
  refine ⟨c', by rw [foldlM_handleResolve, hc'], fun m hm claim hc x hx => ?_, fun x hx hno => ?_⟩
  · exact authority_of_rootAuth (hin (m.sender, claim)
      (mem_claimsOf.mpr ⟨m, hp.mem_iff.mp hm, rfl, hc⟩) x hx)
  · obtain ⟨a, ha⟩ := Option.isSome_iff_exists.mp (h.rootAuth_isSome hx)
    have hsame : c'.rootAuth x = c.rootAuth x := hout x fun p hp' hx' => by
      obtain ⟨m, hm, -, hc⟩ := mem_claimsOf.mp hp'
      exact hno m (hp.mem_iff.mpr hm) _ hc hx'
    rw [authority_of_rootAuth ha, authority_of_rootAuth (hsame.trans ha)]
    exact ⟨rfl, fun hw => (h.unclaimed hx hno ha).resolve_right hw⟩

local instance forkNeZero : NeZero 5 := ⟨by decide⟩

/-- Fragments 1 and 4 are in the base fragment 0, and 2 and 3 in 1. -/
def fork : DirTree (Fin 5) (Fin 5) := .small some ![none, some 0, some 1, some 1, some 0] (by decide)

/-- Rank 3 has failed with the base fragment. What is below is undefined but for 4, which belongs to this rank. -/
def vacant : Cache (Fin 5) (Fin 5) ℤ := (((empty fork).delegateTo 0 3).delegateTo 1 (-2)).delegateTo 4 0

/-- The same where 3 belongs to this rank, too. -/
def occupied : Cache (Fin 5) (Fin 5) ℤ := vacant.delegateTo 3 0

/-- Rank 1 claims 0 and 1, and rank 2 claims 2. -/
def claimed : List (Resolve (Fin 5)) := [⟨1, [(some 0, {2, 3, 4})]⟩, ⟨2, [(some 2, ∅)]⟩]

/-- No one claims 2. -/
def claimedAbove : List (Resolve (Fin 5)) := [⟨1, [(some 0, {2, 3, 4})]⟩]

theorem fits_fork : Fits fork (some 0, {2, 3, 4}) ∧ Fits fork (some 2, ∅) := by
  unfold Fits Linked
  decide

theorem consistent_claimed : Consistent 0 occupied claimed where
  inv := ⟨by decide, by decide, by decide, by decide, by decide⟩
  covered := by decide
  unclaimed {x a} _ hno ha := by
    have h : ∀ x, (∀ m ∈ claimed, ∀ claim ∈ m.subtrees, ¬ InClaim fork claim x) →
        (occupied.rootAuth x).map Auth.first = some 0 := by
      unfold InClaim Forest.Region
      decide +kernel
    have := h x hno
    rw [ha, Option.map_some, Option.some.injEq] at this
    exact .inr this
  sender := by decide
  fits {m claim} hm hc := by
    simp only [claimed, List.mem_cons, List.not_mem_nil, or_false] at hm
    rcases hm with rfl | rfl
    · exact List.mem_singleton.mp hc ▸ fits_fork.1
    · exact List.mem_singleton.mp hc ▸ fits_fork.2
  others {m claim x a} hm hc hx ha := by
    have h : ∀ x, ∀ m ∈ claimed, ∀ claim ∈ m.subtrees, InClaim fork claim x →
        (occupied.rootAuth x).map Auth.first ≠ some 0 := by
      unfold InClaim Forest.Region
      decide +kernel
    have := h x m hm claim hc hx
    rw [ha, Option.map_some, ne_eq, Option.some.injEq] at this
    exact this
  disjoint := by
    unfold InClaim Forest.Region
    decide
  exportBound {x q} h := absurd h (by revert x; decide)

theorem handleResolve_perm_claimed :
    ∃ c', claimed.reverse.foldlM (handleResolve (.nearest _ _)) occupied = .ok c' ∧
      c'.authority (.nearest _ _) 1 = ⟨1, cdirAuthUnknown⟩ ∧
      c'.authority (.nearest _ _) 2 = ⟨2, cdirAuthUnknown⟩ ∧
      c'.authority (.nearest _ _) 3 = ⟨0, cdirAuthUnknown⟩ := by
  have hk : Keep (.nearest _ _) occupied (claimsOf claimed.reverse) := by
    refine ⟨fun d hd => ?_, fun c₁ h₁ => ⟨fun d hd => ?_, fun _ _ => trivial⟩⟩
    · obtain rfl : 2 = d := Option.some.inj hd
      unfold KeepsBounds Forest.Region
      decide
    · obtain rfl : 0 = d := Option.some.inj hd
      rw [eq_get (d := occupied) (x := handleClaim _ _ _ _) rfl, Except.ok.injEq] at h₁
      subst h₁
      unfold KeepsBounds Forest.Region
      decide
  obtain ⟨c', h, hin, hout⟩ := handleResolve_perm consistent_claimed (List.reverse_perm claimed).symm hk
  refine ⟨c', h, hin ⟨1, [(some 0, {2, 3, 4})]⟩ (by simp [claimed]) (some 0, {2, 3, 4}) (by simp) 1
    ⟨0, rfl, by unfold Forest.Region; decide⟩, hin ⟨2, [(some 2, ∅)]⟩ (by simp [claimed]) (some 2, ∅) (by simp) 2
    ⟨2, rfl, Forest.region_self⟩, ?_⟩
  refine (hout 3 (by decide) ?_).1
  unfold InClaim Forest.Region
  decide +kernel

/-- Fragment 3 is undefined, but by the time it is looked at 1 has been swallowed
for 2, and it gets what 0 had. -/
theorem not_handleResolve_perm :
    Consistent 0 vacant claimedAbove ∧ (∀ m ∈ claimedAbove, ∀ claim ∈ m.subtrees, ¬ InClaim fork claim 3) ∧
      vacant.authority (.nearest _ _) 3 = cdirAuthUndef ∧
      ∃ c', claimedAbove.foldlM (handleResolve (.nearest _ _)) vacant = .ok c' ∧
        c'.authority (.nearest _ _) 3 = ⟨3, cdirAuthUnknown⟩ := by
  refine ⟨?_, by unfold InClaim Forest.Region; decide +kernel, by decide, _, eq_get (d := vacant) rfl, by decide⟩
  refine ⟨⟨by decide, by decide, by decide, by decide, by decide⟩, by decide, fun {x a} _ hno ha => ?_, by decide,
    fun {m claim} hm hc => ?_, fun {m claim x a} hm hc hx ha => ?_, by simp [claimsOf, claimedAbove],
    fun {x q} h => absurd h (by revert x; decide)⟩
  · have h : ∀ x, (∀ m ∈ claimedAbove, ∀ claim ∈ m.subtrees, ¬ InClaim fork claim x) →
        vacant.rootAuth x = some cdirAuthUndef ∨ (vacant.rootAuth x).map Auth.first = some 0 := by
      unfold InClaim Forest.Region
      decide +kernel
    have := h x hno
    rw [ha, Option.some.injEq, Option.map_some, Option.some.injEq] at this
    exact this
  · obtain rfl := List.mem_singleton.mp hm
    exact List.mem_singleton.mp hc ▸ fits_fork.1
  · have h : ∀ x, ∀ m ∈ claimedAbove, ∀ claim ∈ m.subtrees, InClaim fork claim x →
        (vacant.rootAuth x).map Auth.first ≠ some 0 := by
      unfold InClaim Forest.Region
      decide +kernel
    have := h x m hm claim hc hx
    rw [ha, Option.map_some, ne_eq, Option.some.injEq] at this
    exact this

end CephMds.Cache
