import CephMds.Framework.Rehang
import CephMds.Model.Journal
import CephMds.Proof.Subtree.Reachable

/-!
# One claim

A claim is a fragment `d` and bounds below it (`Claimable`). The loop over the
bounds makes each of them a root (`Claiming.adjustBounds`), the loop over the
stray bounds removes the roots that are left inside (`Claiming.mergeStray`), and
both end because they remove roots (`rootCount`). A bound that was no root gets
the authority of the root it is below then: the one it was below, unless that
has been swallowed for an earlier bound (`Tracks`). If none loses its authority
so (`KeepsBounds`), `adjustBoundedSubtreeAuth` changes the authority of the
region and of nothing else (`adjustBoundedSubtreeAuth_region`). Merging changes
no authority (`trySubtreeMerge_rootAuth`).
-/

namespace CephMds.Cache

variable {ι α L : Type} {I : InodeAuthority ι α} {c c' c₀ c₁ c₂ : Cache ι α L} {d r t x b : α}
  {a : Auth} {B : Finset α}

open Checked

/-! ## Authority and roots -/

/-- `CDir::authority` is the authority at the nearest root. -/
theorem authority_of_rootAuth (h : c.rootAuth d = some a) : c.authority I d = a := by
  induction d using c.tree.forest.downward with
  | _ d ih =>
    cases hd : c.isSubtreeRoot d with
    | true =>
      rw [rootAuth_of_root hd, Option.some.injEq] at h
      rw [authority_of_root hd, h]
    | false =>
      cases hq : c.getParentDir d with
      | none =>
        rw [rootAuth, getSubtreeRoot_of_not hd, rootAbove] at h
        simp [Forest.above, show c.tree.forest.parent d = none from hq] at h
      | some q =>
        rw [rootAuth_of_not hd hq] at h
        rw [authority_of_parent hd hq]
        exact ih q hq h

/-- The number of cached roots. -/
def rootCount (c : Cache ι α L) : ℕ := (c.tree.dirs.filter (c.isSubtreeRoot ·)).card

theorem rootCount_lt_fuel (c : Cache ι α L) : c.rootCount < c.fuel :=
  Nat.lt_succ_of_le (Finset.card_filter_le _ _)

/-- The number of cached fragments above the level of `d`. -/
def level (c : Cache ι α L) (d : α) : ℕ := (c.tree.dirs.filter (c.tree.depth · < c.tree.depth d)).card

theorem level_lt (hr : c.tree.depth r < c.tree.depth d) (hc : (c.tree.inode r).isSome) :
    c.level r < c.level d := by
  refine Finset.card_lt_card (Finset.ssubset_iff_of_subset ?_ |>.mpr ⟨r, ?_, ?_⟩)
  · intro x hx
    rw [Finset.mem_filter] at hx ⊢
    exact ⟨hx.1, hx.2.trans hr⟩
  · exact Finset.mem_filter.mpr ⟨c.tree.mem_dirs.mpr hc, hr⟩
  · simp

theorem level_lt_fuel (c : Cache ι α L) (d : α) : c.level d < c.fuel :=
  Nat.lt_succ_of_le (Finset.card_filter_le _ _)

variable [LinearOrder α]

theorem rootCount_lt (hF : Frame c c') (hI : Inv c) (hr : c.isSubtreeRoot r = true)
    (hA : c'.dirAuth = Function.update c.dirAuth r cdirAuthDefault) :
    c'.rootCount < c.rootCount := by
  obtain ⟨hr', hm⟩ := isSubtreeRoot_clear hr hA
  refine Finset.card_lt_card (Finset.ssubset_iff_of_subset ?_ |>.mpr ⟨r, ?_, ?_⟩)
  · intro x hx
    rw [Finset.mem_filter, hF.tree] at hx
    refine Finset.mem_filter.mpr ⟨hx.1, ?_⟩
    rw [hm]
    by_cases hxr : x = r
    · rw [hxr, Function.update_self]
    · rw [Function.update_of_ne hxr, hx.2]
  · exact Finset.mem_filter.mpr ⟨c.tree.mem_dirs.mpr (hI.cached hr), hr⟩
  · simp [hr']


/-- Unmarking a root whose nearest root above has the same authority. -/
theorem rootAuth_unmark (hd : c.isSubtreeRoot d = true) (hF : Frame c c')
    (hr : c.rootAbove d = some r) (he : c.dirAuth r = c.dirAuth d)
    (hA : c'.dirAuth = Function.update c.dirAuth d cdirAuthDefault) (x : α) :
    c'.rootAuth x = c.rootAuth x := by
  obtain ⟨hd', hm⟩ := isSubtreeRoot_clear hd hA
  have hrd : r ≠ d := c.tree.forest.above_ne hr
  rw [rootAuth, rootAuth]
  rcases getSubtreeRoot_mark hF.tree.symm hm hd' x with h | ⟨h, h'⟩
  · rw [← h]
    cases hx : c'.getSubtreeRoot x with
    | none => rw [h, hx]; rfl
    | some s =>
      have hsd : s ≠ d := fun e => by
        rw [← e, getSubtreeRoot_isRoot hx] at hd'
        cases hd'
      rw [h, hx, Option.map_some, Option.map_some, hA, Function.update_of_ne hsd]
  · rw [h, h', ← rootAbove_mark_self hF.tree.symm hm, hr, Option.map_some, Option.map_some, hA,
      Function.update_of_ne hrd, he]

/-- A fragment that is linked, or belongs to a base inode. -/
def Linked (t : DirTree ι α) (d : α) : Prop :=
  ∃ i, t.inode d = some i ∧ (t.isBase i = true ∨ (t.parentDir i).isSome)

/-! ## One call -/

/-- If the subtree between `d` and a bound that is no root has an earlier bound
below it, so that it is swallowed first, it has the authority of `d`. -/
def KeepsBounds (c : Cache ι α L) (d : α) (B : Finset α) : Prop :=
  ∀ b ∈ B, ∀ b' ∈ B, ∀ t, c.isSubtreeRoot b = false → c.rootAbove b = some t → c.tree.forest.Region d B t →
    t ≠ d → b' < b → contains c.tree t b' = true → c.rootAuth d = some (c.dirAuth t)

/-- A claim of `d` with the bounds `B`, which are directly below `d`. No export
bound hangs below the region. -/
structure Claimable (c : Cache ι α L) (d : α) (B : Finset α) : Prop where
  inv : Inv c
  linked : Linked c.tree d
  bounds : ∀ b ∈ B, c.tree.forest.above (fun y => y = d ∨ y ∈ B) b = some d
  root : (c.rootAuth d).isSome
  keeps : KeepsBounds c d B
  exportBound {x q : α} : c.exportBound x = true → c.getParentDir x = some q → ¬ c.tree.forest.Region d B q

/-- What the loops need of the state before the call: the roots inside can be
merged once they have the authority `a`. -/
structure Boundable (c : Cache ι α L) (d : α) (B : Finset α) (a : Auth) : Prop where
  inv : Inv c
  ne_default : a ≠ cdirAuthDefault
  bounds : ∀ b ∈ B, c.tree.forest.above (fun y => y = d ∨ y ∈ B) b = some d
  merges {r : α} : c.tree.forest.Region d B r → r ≠ d → c.isSubtreeRoot r = true →
    a.second = cdirAuthUnknown ∧ c.exportBound r = false

/-- A state in the course of the call: `d` has the new authority, the roots
inside are old ones, and bounds that were no roots may have become some. If the
call keeps its bounds, these have their authority still. -/
structure Claiming (c₀ : Cache ι α L) (d : α) (B : Finset α) (a : Auth) (c : Cache ι α L) : Prop where
  stays : Stays c₀ c
  dir : c.dirAuth d = a
  inside {r : α} : c₀.tree.forest.Region d B r → r ≠ d →
    c.dirAuth r = cdirAuthDefault ∨ c.dirAuth r = c₀.dirAuth r
  bound {b : α} : b ∈ B → c.dirAuth b = c₀.dirAuth b ∨ c₀.isSubtreeRoot b = false
  given {b : α} : (c₀.rootAuth d).isSome → KeepsBounds c₀ d B → b ∈ B → c₀.isSubtreeRoot b = false →
    c.isSubtreeRoot b = true → c₀.rootAuth b = some (c.dirAuth b)
  outside {x : α} : ¬ c₀.tree.forest.Region d B x → x ∉ B → c.dirAuth x = c₀.dirAuth x

/-- When the bounds `S` have been looked at, the root above a bound is the one
before the call or `d`, and then the one before has been swallowed for one of `S`. -/
def Tracks (c₀ : Cache ι α L) (d : α) (B : Finset α) (S : α → Prop) (c : Cache ι α L) : Prop :=
  ∀ b ∈ B, (∃ t, t ≠ d ∧ c.rootAbove b = some t ∧ c₀.rootAbove b = some t) ∨
    c.rootAbove b = some d ∧ ∀ t, c₀.rootAbove b = some t → c₀.tree.forest.Region d B t → t ≠ d →
      ∃ b', S b' ∧ contains c₀.tree t b' = true

/-- The two facts about the authority that the claim gives: it is the plain
authority of one rank. -/
structure Plain (a : Auth) : Prop where
  ne_default : a ≠ cdirAuthDefault
  unambiguous : a.second = cdirAuthUnknown

theorem Claimable.boundable (h : Claimable c₀ d B) (ha : Plain a) : Boundable c₀ d B a := by
  refine ⟨h.inv, ha.ne_default, h.bounds, fun {r} hr hrd _ => ⟨ha.unambiguous, ?_⟩⟩
  obtain ⟨-, q, hq, hR⟩ := hr.parent hrd
  by_contra he
  rw [Bool.not_eq_false] at he
  exact h.exportBound he hq hR

/-- The nearest root of a fragment in the region is inside, or that of `d`. -/
theorem getSubtreeRoot_region (hx : c.tree.forest.Region d B x) :
    c.getSubtreeRoot x = c.getSubtreeRoot d ∨
      ∃ t, c.getSubtreeRoot x = some t ∧ c.tree.forest.Region d B t ∧ t ≠ d := by
  induction x using c.tree.forest.downward with
  | _ x ih =>
    by_cases hxd : x = d
    · exact .inl (by rw [hxd])
    cases hr : c.isSubtreeRoot x with
    | true => exact .inr ⟨x, getSubtreeRoot_of_root hr, hx, hxd⟩
    | false =>
      obtain ⟨-, q, hq, hR⟩ := hx.parent hxd
      rw [getSubtreeRoot_of_not hr, rootAbove_of_parent hq]
      exact ih q hq hR

variable {o : Auth} {S : α → Prop}

namespace Boundable

variable (h : Boundable c₀ d B a)
include h

theorem not_region (hb : b ∈ B) : ¬ c₀.tree.forest.Region d B b :=
  fun hR => hR.disjoint (h.bounds b hb) hb rfl

theorem dir_notMem : d ∉ B := fun hd => h.not_region hd Forest.region_self

/-- The state after `delegate`. -/
theorem delegated (hs : Stays c₀ c) (hA : c.dirAuth = Function.update c₀.dirAuth d a) :
    Claiming c₀ d B a c := by
  have hbound : ∀ {b}, b ∈ B → c.dirAuth b = c₀.dirAuth b := fun {b} hb => by
    have hbd : b ≠ d := fun e => h.dir_notMem (e ▸ hb)
    rw [hA, Function.update_of_ne hbd]
  refine ⟨hs, by rw [hA, Function.update_self], fun {r} hr hrd => ?_, fun {b} hb => .inl (hbound hb),
    fun {b} _ _ hb hno hroot => ?_, fun {x} hx _ => ?_⟩
  · exact .inr (by rw [hA, Function.update_of_ne hrd])
  · rw [isSubtreeRoot, hbound hb] at hroot
    exact absurd (hno.symm.trans hroot) Bool.false_ne_true
  · have hxd : x ≠ d := fun e => hx (e ▸ Forest.region_self)
    rw [hA, Function.update_of_ne hxd]

end Boundable

namespace Claiming

variable (h : Boundable c₀ d B a) (k : Claiming c₀ d B a c)

include h k in
theorem isRoot_dir : c.isSubtreeRoot d = true := by
  rw [isSubtreeRoot_iff, k.dir]
  exact h.ne_default

include h k in
/-- Inside the region the nearest root is inside, too. -/
theorem nearest_inside (hx : c₀.tree.forest.Region d B x) :
    ∃ r, c.getSubtreeRoot x = some r ∧ c₀.tree.forest.Region d B r := by
  rw [getSubtreeRoot, k.stays.frame.tree]
  exact hx.nearest (k.isRoot_dir h)

include h k in
theorem rootAbove_inside (hr : c₀.tree.forest.Region d B r) (hrd : r ≠ d) :
    ∃ s, c.rootAbove r = some s ∧ c₀.tree.forest.Region d B s := by
  obtain ⟨-, q, hq, hR⟩ := hr.parent hrd
  have hq' : c.getParentDir r = some q := by rw [getParentDir, k.stays.frame.tree, hq]
  rw [rootAbove_of_parent hq']
  exact k.nearest_inside h hR

include h k in
theorem rootAbove_bound (hb : b ∈ B) :
    ∃ q s, c.getParentDir b = some q ∧ c.getSubtreeRoot q = some s ∧
      c₀.tree.forest.Region d B s := by
  obtain ⟨q, hq, hR⟩ := Forest.region_above (h.bounds b hb)
  obtain ⟨s, hs, hR'⟩ := k.nearest_inside h hR
  exact ⟨q, s, by rw [getParentDir, k.stays.frame.tree, hq], hs, hR'⟩

include k in
/-- A root inside was one before. -/
theorem root_inside (hr : c₀.tree.forest.Region d B r) (hrd : r ≠ d) (hroot : c.isSubtreeRoot r = true) :
    c.dirAuth r = c₀.dirAuth r ∧ c₀.isSubtreeRoot r = true := by
  have he := (k.inside hr hrd).resolve_left (isSubtreeRoot_iff.mp hroot)
  refine ⟨he, ?_⟩
  rw [isSubtreeRoot_iff, ← he]
  exact isSubtreeRoot_iff.mp hroot

end Claiming

/-- The root above a bound after `delegate`. -/
theorem Boundable.tracks (h : Boundable c₀ d B a) (hI : Inv c) (hF : Frame c₀ c)
    (hA : c.dirAuth = Function.update c₀.dirAuth d a) : Tracks c₀ d B (fun _ => False) c := by
  intro b hb
  obtain ⟨q, s, hq, hs, hR⟩ := (h.delegated ⟨hI, hF⟩ hA).rootAbove_bound h hb
  have hab : c.rootAbove b = some s := rootAbove_eq_some.mpr ⟨q, hq, hs⟩
  have hm := isSubtreeRoot_setDirAuth h.ne_default hA
  have hcases : c.rootAbove b = c₀.rootAbove b ∨ c.rootAbove b = some d ∧ c₀.rootAbove b = c₀.rootAbove d := by
    cases hd : c₀.isSubtreeRoot d with
    | true =>
      rw [← hd, Function.update_eq_self] at hm
      exact .inl (by rw [rootAbove, rootAbove, hF.tree, hm])
    | false => exact rootAbove_mark hF.tree hm hd b
  by_cases hsd : s = d
  · refine .inr ⟨hsd ▸ hab, fun t ht htR htd => absurd ?_ htd⟩
    rcases hcases with hsame | ⟨-, hup⟩
    · rw [← hsame, hab, Option.some_inj] at ht
      rw [← ht, hsd]
    · rw [hup] at ht
      have := c₀.tree.forest.above_depth ht
      have := htR.depth_le
      omega
  · refine .inl ⟨s, hsd, hab, ?_⟩
    rcases hcases with hsame | ⟨hd, -⟩
    · rw [← hsame, hab]
    · exact absurd (Option.some.inj (hab.symm.trans hd)) hsd

omit [LinearOrder α] in
/-- If a root inside were left, the topmost one would be a bound. -/
theorem no_root_of_bounds [DecidableEq α] (hI : Inv c) (hd : c.isSubtreeRoot d = true) (hsub : c.bounds d ⊆ B)
    (hr : c.tree.forest.Region d B r) (hrd : r ≠ d) : c.isSubtreeRoot r = false := by
  induction hn : c.tree.depth r using Nat.strong_induction_on generalizing r with
  | _ n ih =>
    subst hn
    by_contra hroot
    rw [Bool.not_eq_false] at hroot
    obtain ⟨hrB, q, hq, hR⟩ := hr.parent hrd
    obtain ⟨s, hs, hR⟩ := hR.nearest hd
    have hab : c.rootAbove r = some s := (rootAbove_of_parent hq).trans hs
    by_cases hsd : s = d
    · exact hrB (hsub ((hI.mem_bounds d r).mpr ⟨hroot, hsd ▸ hab⟩))
    · have := ih _ (c.tree.forest.above_depth hab) hR hsd rfl
      rw [getSubtreeRoot_isRoot hs] at this
      cases this

/-! ## Merging changes no authority -/

variable [AddCommGroup L]

theorem trySubtreeMergeAt_rootAuth (hI : Inv c) (h : c.trySubtreeMergeAt d = .ok c') (x : α) :
    c'.rootAuth x = c.rootAuth x := by
  obtain ⟨hd, ⟨⟨r, hr, he, -⟩, -, hF, hA⟩ | ⟨-, rfl⟩⟩ := trySubtreeMergeAt_spec hI h
  · exact rootAuth_unmark hd hF hr he hA x
  · rfl

/-- A merge takes no other root away. -/
theorem trySubtreeMergeAt_isRoot (hI : Inv c) (h : c.trySubtreeMergeAt d = .ok c') (hx : x ≠ d) :
    c'.isSubtreeRoot x = c.isSubtreeRoot x := by
  obtain ⟨-, ⟨-, -, -, hA⟩ | ⟨-, rfl⟩⟩ := trySubtreeMergeAt_spec hI h
  · simp [isSubtreeRoot, hA, hx]
  · rfl

theorem trySubtreeMergeAt_linked (hI : Inv c) (hd : c.isSubtreeRoot d = true)
    (hl : Linked c.tree d) : ∃ c', c.trySubtreeMergeAt d = .ok c' := by
  obtain ⟨i, hi, hb | hp⟩ := hl
  · refine ⟨c, bind_ok.mpr ⟨(), assert_ok.mpr ((hI.key d).trans hd), bind_ok.mpr ⟨d, ?_, ?_⟩⟩⟩
    · exact bind_ok.mpr ⟨i, deref_ok.mpr hi, if_pos hb⟩
    · exact if_neg fun h => h.1 rfl
  · obtain ⟨q, hq⟩ := Option.isSome_iff_exists.mp hp
    have hpar : c.getParentDir d = some q := by simp [getParentDir, DirTree.forest, hi, hq]
    obtain ⟨r, hr⟩ := hI.rootAbove_isSome hd hpar
    exact trySubtreeMergeAt_returns hI hd hr

/-- `trySubtreeMerge` returns, and changes no authority. -/
theorem trySubtreeMerge_rootAuth (hI : Inv c) (hd : c.isSubtreeRoot d = true)
    (hl : Linked c.tree d) :
    ∃ c', c.trySubtreeMerge d = .ok c' ∧ Stays c c' ∧ ∀ x, c'.rootAuth x = c.rootAuth x := by
  obtain ⟨c₁, h₁⟩ := trySubtreeMergeAt_linked hI hd hl
  have s₁ := trySubtreeMergeAt_stays hI h₁
  have hA₁ := trySubtreeMergeAt_rootAuth hI h₁
  -- The old bounds are roots until their own merge is tried.
  suffices H : ∀ (l : List α) (c₂ : Cache ι α L), l.Nodup → Stays c c₂ →
      (∀ x, c₂.rootAuth x = c.rootAuth x) →
      (∀ p ∈ l, c₂.isSubtreeRoot p = true ∧ Linked c.tree p) →
      ∃ c', l.foldlM (fun c p => c.trySubtreeMergeAt p) c₂ = .ok c' ∧ Stays c c' ∧
        ∀ x, c'.rootAuth x = c.rootAuth x by
    have hold : ∀ p ∈ ascending (c.bounds d), c₁.isSubtreeRoot p = true ∧ Linked c.tree p := by
      intro p hp
      obtain ⟨hp', hab⟩ := (hI.mem_bounds d p).mp (mem_ascending.mp hp)
      obtain ⟨q, hq, -⟩ := rootAbove_eq_some.mp hab
      obtain ⟨i, hi, hpd⟩ := getParentDir_inode hq
      refine ⟨?_, i, hi, .inr (by rw [hpd]; rfl)⟩
      rw [trySubtreeMergeAt_isRoot hI h₁ (c.tree.forest.above_ne hab).symm, hp']
    obtain ⟨c', h', s', hA'⟩ := H _ c₁ (nodup_ascending _) s₁ hA₁ hold
    refine ⟨c', ?_, s', hA'⟩
    exact bind_ok.mpr ⟨(), assert_ok.mpr ((hI.key d).trans hd), bind_ok.mpr ⟨c₁, h₁, h'⟩⟩
  intro l
  induction l with
  | nil => exact fun c₂ _ s₂ hA₂ _ => ⟨c₂, rfl, s₂, hA₂⟩
  | cons p l ih =>
    intro c₂ hnd s₂ hA₂ hl
    obtain ⟨hpl, hnd⟩ := List.nodup_cons.mp hnd
    obtain ⟨hp, hlp⟩ := hl p List.mem_cons_self
    rw [← s₂.frame.tree] at hlp
    obtain ⟨c₃, h₃⟩ := trySubtreeMergeAt_linked s₂.inv hp hlp
    have s₃ := trySubtreeMergeAt_stays s₂.inv h₃
    obtain ⟨c', h', s', hA'⟩ := ih c₃ hnd (s₂.trans s₃)
      (fun x => (trySubtreeMergeAt_rootAuth s₂.inv h₃ x).trans (hA₂ x)) fun e he => by
        obtain ⟨he', hle⟩ := hl e (List.mem_cons_of_mem _ he)
        refine ⟨?_, hle⟩
        rw [trySubtreeMergeAt_isRoot s₂.inv h₃ (fun e' => hpl (e' ▸ he)), he']
    refine ⟨c', ?_, s', hA'⟩
    rw [List.foldlM_cons, bind_ok]
    exact ⟨c₃, h₃, h'⟩

/-! ## The loops -/

namespace Claiming

variable (h : Boundable c₀ d B a) (k : Claiming c₀ d B a c)

include h k in
/-- Swallowing a root directly below `d`. -/
theorem swallow (hr : c₀.tree.forest.Region d B r) (hrd : r ≠ d) (hroot : c.isSubtreeRoot r = true)
    (hab : c.rootAbove r = some d) :
    ∃ c', c.swallow r a = .ok c' ∧ Claiming c₀ d B a c' ∧ c'.rootCount < c.rootCount ∧
      c'.dirAuth = Function.update c.dirAuth r cdirAuthDefault := by
  have hI := k.stays.inv
  obtain ⟨c₁, h₁⟩ := adjustSubtreeAuth_returns (a := a) hI (hI.cached hroot)
    (by rw [getSubtreeRoot_of_root hroot]; rfl)
  obtain ⟨hI₁, hA₁, hF₁⟩ := adjustSubtreeAuth_spec hI h.ne_default h₁
  have hroot₁ : c₁.isSubtreeRoot r = true := by
    rw [isSubtreeRoot_iff, hA₁, Function.update_self]
    exact h.ne_default
  have hm₁ : c₁.isSubtreeRoot = c.isSubtreeRoot := by
    rw [isSubtreeRoot_setDirAuth h.ne_default hA₁]
    exact Function.update_eq_self_iff.mpr hroot.symm
  have hab₁ : c₁.rootAbove r = some d := by
    rw [rootAbove, hF₁.tree, hm₁]
    exact hab
  obtain ⟨hplain, hexport⟩ := h.merges hr hrd (k.root_inside hr hrd hroot).2
  have hM : Mergeable c₁ r := by
    refine ⟨d, hab₁, ?_, ?_, ?_⟩
    · rw [hA₁, Function.update_self, Function.update_of_ne hrd.symm, k.dir]
    · rw [hA₁, Function.update_self]
      exact hplain
    · rw [hF₁.exportBound, k.stays.frame.exportBound]
      exact hexport
  obtain ⟨c₂, h₂⟩ := trySubtreeMergeAt_returns hI₁ hroot₁ hab₁
  obtain ⟨-, ⟨-, hI₂, hF₂, hA₂⟩ | ⟨hM', -⟩⟩ := trySubtreeMergeAt_spec hI₁ h₂
  · have hA : c₂.dirAuth = Function.update c.dirAuth r cdirAuthDefault := by
      rw [hA₂, hA₁, Function.update_idem]
    have hF := hF₁.trans hF₂
    have hbr : ∀ {b}, b ∈ B → c₂.dirAuth b = c.dirAuth b := fun {b} hb => by
      have hne : b ≠ r := fun e => h.not_region hb (e ▸ hr)
      rw [hA, Function.update_of_ne hne]
    refine ⟨c₂, bind_ok.mpr ⟨c₁, h₁, h₂⟩, ⟨⟨hI₂, k.stays.frame.trans hF⟩, ?_, ?_, ?_, ?_, ?_⟩,
      rootCount_lt hF hI hroot hA, hA⟩
    · rw [hA, Function.update_of_ne hrd.symm, k.dir]
    · intro s hs hsd
      rw [hA]
      by_cases hsr : s = r
      · exact .inl (by rw [hsr, Function.update_self])
      · rw [Function.update_of_ne hsr]
        exact k.inside hs hsd
    · intro b hb
      rw [hbr hb]
      exact k.bound hb
    · intro b hd hk hb hno hb'
      rw [isSubtreeRoot, hbr hb] at hb'
      rw [hbr hb]
      exact k.given hd hk hb hno hb'
    · intro x hx hxB
      have hxr : x ≠ r := fun e => hx (e ▸ hr)
      rw [hA, Function.update_of_ne hxr]
      exact k.outside hx hxB
  · exact absurd hM hM'

omit [AddCommGroup L] in
include h k in
/-- From a root inside, the climb finds one directly below `d`. -/
theorem climb {n : ℕ} (ht : c₀.tree.forest.Region d B t) (htd : t ≠ d)
    (hroot : c.isSubtreeRoot t = true) (hn : c.level t < n) :
    ∃ r, c.climbToBound d n t = .ok r ∧ c₀.tree.forest.Region d B r ∧ r ≠ d ∧
      c.isSubtreeRoot r = true ∧ c.rootAbove r = some d ∧ contains c₀.tree r t = true := by
  induction n generalizing t with
  | zero => omega
  | succ n ih =>
    by_cases hmem : t ∈ c.bounds d
    · obtain ⟨-, hab⟩ := (k.stays.inv.mem_bounds d t).mp hmem
      have htt : c₀.tree.forest.nearest (fun y => y = t) t = some t := Forest.nearest_of_marked _ (by simp)
      refine ⟨t, if_pos hmem, ht, htd, hroot, hab, ?_⟩
      rw [contains, htt]
      rfl
    · obtain ⟨s, hs, hR⟩ := k.rootAbove_inside h ht htd
      obtain ⟨q, hq, hqs⟩ := rootAbove_eq_some.mp hs
      have hsd : s ≠ d := by
        rintro rfl
        exact hmem ((k.stays.inv.mem_bounds s t).mpr ⟨hroot, hs⟩)
      have hsroot := rootAbove_isRoot hs
      have hlt := level_lt (c := c) (c.tree.forest.above_depth hs) (k.stays.inv.cached hsroot)
      obtain ⟨r, hr, hRr, hrd, hrroot, hrab, hrs⟩ := ih hR hsd hsroot (by omega)
      refine ⟨r, ?_, hRr, hrd, hrroot, hrab, Forest.contains_trans hrs ?_⟩
      swap
      · rw [← k.stays.frame.tree]
        exact Forest.contains_of_above hs
      rw [climbToBound, if_neg hmem]
      exact bind_ok.mpr ⟨q, deref_ok.mpr hq, bind_ok.mpr ⟨s, deref_ok.mpr hqs, hr⟩⟩

omit [AddCommGroup L] in
/-- The root above each bound, after a root directly below `d` has been swallowed
for `b`. -/
theorem tracks_swallow (hT : Tracks c₀ d B S c) (hF : c'.tree = c.tree) (hroot : c.isSubtreeRoot r = true)
    (hrd : r ≠ d) (hab : c.rootAbove r = some d) (hA : c'.dirAuth = Function.update c.dirAuth r cdirAuthDefault)
    (hrb : contains c₀.tree r b = true) : Tracks c₀ d B (fun s => S s ∨ s = b) c' := by
  obtain ⟨hr', hm⟩ := isSubtreeRoot_clear hroot hA
  intro e he
  rw [rootAbove_unmark hF hm hr', hab]
  rcases hT e he with ⟨t, htd, ht, ht₀⟩ | ⟨hed, hgone⟩
  · by_cases htr : t = r
    · refine .inr ⟨if_pos (htr ▸ ht), fun t' ht' _ _ => ⟨b, .inr rfl, ?_⟩⟩
      rw [← Option.some.inj (ht₀.symm.trans ht'), htr]
      exact hrb
    · refine .inl ⟨t, htd, ?_, ht₀⟩
      rw [ht, if_neg fun e => htr (Option.some.inj e)]
  · refine .inr ⟨?_, fun t ht hR htd => ?_⟩
    · rw [hed, if_neg fun e => hrd (Option.some.inj e).symm]
    · obtain ⟨b', hb', hc⟩ := hgone t ht hR htd
      exact ⟨b', .inl hb', hc⟩

include h in
/-- Swallowing until nothing is left between `d` and the bound. -/
theorem swallowIntervening {n : ℕ} (k : Claiming c₀ d B a c) (hT : Tracks c₀ d B (fun s => S s ∨ s = b) c)
    (hb : b ∈ B) (ht : c₀.tree.forest.Region d B t) (htd : t ≠ d) (hroot : c.isSubtreeRoot t = true)
    (htb : contains c₀.tree t b = true) (hn : c.rootCount < n) :
    ∃ c', Cache.swallowIntervening d a b n t c = .ok c' ∧ Claiming c₀ d B a c' ∧
      Tracks c₀ d B (fun s => S s ∨ s = b) c' ∧ ∀ b' ∈ B, c'.dirAuth b' = c.dirAuth b' := by
  induction n generalizing t c with
  | zero => omega
  | succ n ih =>
    obtain ⟨r, hr, hR, hrd, hrroot, hab, hrt⟩ := k.climb h ht htd hroot (level_lt_fuel c t)
    obtain ⟨c₁, h₁, k₁, hlt, hA₁⟩ := k.swallow h hR hrd hrroot hab
    obtain ⟨q, s, hq, hs, hsR⟩ := k₁.rootAbove_bound h hb
    have hT₁ : Tracks c₀ d B (fun s => S s ∨ s = b) c₁ := by
      have := tracks_swallow hT (k₁.stays.frame.tree.trans k.stays.frame.tree.symm) hrroot hrd hab hA₁
        (Forest.contains_trans hrt htb)
      simpa only [or_assoc, or_self] using this
    have hB₁ : ∀ b' ∈ B, c₁.dirAuth b' = c.dirAuth b' := by
      intro b' hb'
      have hne : b' ≠ r := fun e => h.not_region hb' (e ▸ hR)
      rw [hA₁, Function.update_of_ne hne]
    by_cases hsd : s = d
    · refine ⟨c₁, bind_ok.mpr ⟨r, hr, bind_ok.mpr ⟨c₁, h₁, bind_ok.mpr ⟨q, deref_ok.mpr hq,
        bind_ok.mpr ⟨s, deref_ok.mpr hs, if_pos hsd⟩⟩⟩⟩, k₁, hT₁, hB₁⟩
    · have hsb : contains c₀.tree s b = true := by
        rw [← k₁.stays.frame.tree]
        exact Forest.contains_of_above (rootAbove_eq_some.mpr ⟨q, hq, hs⟩)
      obtain ⟨c', h', k', hT', hB'⟩ := ih k₁ hT₁ hsR hsd (getSubtreeRoot_isRoot hs) hsb (by omega)
      refine ⟨c', bind_ok.mpr ⟨r, hr, bind_ok.mpr ⟨c₁, h₁, bind_ok.mpr ⟨q, deref_ok.mpr hq,
        bind_ok.mpr ⟨s, deref_ok.mpr hs, (if_neg hsd).trans h'⟩⟩⟩⟩, k', hT', fun b' hb' => ?_⟩
      rw [hB' b' hb', hB₁ b' hb']

omit [AddCommGroup L] in
include k in
/-- A bound that is no root was none before. -/
theorem bound_not (hb : b ∈ B) (hroot : c.isSubtreeRoot b = false) : c₀.isSubtreeRoot b = false := by
  rcases k.bound hb with he | hno
  · rwa [isSubtreeRoot, he] at hroot
  · exact hno

include h k in
/-- Making a bound a root that was none. -/
theorem newBound (hb : b ∈ B) (hroot : c.isSubtreeRoot b = false) (ho : o ≠ cdirAuthDefault)
    (hg : (c₀.rootAuth d).isSome → KeepsBounds c₀ d B → c₀.rootAuth b = some o)
    (hs : c.adjustSubtreeAuth b o = .ok c') : Claiming c₀ d B a c' := by
  obtain ⟨hI, hA, hF⟩ := adjustSubtreeAuth_spec k.stays.inv ho hs
  have hbd : b ≠ d := fun e => h.dir_notMem (e ▸ hb)
  refine ⟨k.stays.trans ⟨hI, hF⟩, ?_, ?_, ?_, ?_, ?_⟩
  · rw [hA, Function.update_of_ne hbd.symm, k.dir]
  · intro r hr hrd
    have hrb : r ≠ b := fun e => h.not_region hb (e ▸ hr)
    rw [hA, Function.update_of_ne hrb]
    exact k.inside hr hrd
  · intro b' hb'
    rw [hA]
    by_cases hbb : b' = b
    · exact .inr (hbb ▸ k.bound_not hb hroot)
    · rw [Function.update_of_ne hbb]
      exact k.bound hb'
  · intro b' hd hk hb' hno hb''
    rw [hA]
    by_cases hbb : b' = b
    · rw [hbb, Function.update_self]
      exact hg hd hk
    · rw [isSubtreeRoot, hA, Function.update_of_ne hbb] at hb''
      rw [Function.update_of_ne hbb]
      exact k.given hd hk hb' hno hb''
  · intro x hx hxB
    have hxb : x ≠ b := fun e => hxB (e ▸ hb)
    rw [hA, Function.update_of_ne hxb]
    exact k.outside hx hxB

include h k in
theorem bound_returns (ho : o ≠ cdirAuthDefault)
    (hg : (c₀.rootAuth d).isSome → KeepsBounds c₀ d B → c₀.rootAuth b = some o)
    (hT : Tracks c₀ d B S c) (hb : b ∈ B) (hroot : c.isSubtreeRoot b = false) :
    ∃ c', c.adjustSubtreeAuth b o = .ok c' ∧ Claiming c₀ d B a c' ∧ Tracks c₀ d B S c' ∧
      c'.dirAuth = Function.update c.dirAuth b o := by
  obtain ⟨q, s, hq, hs, -⟩ := k.rootAbove_bound h hb
  obtain ⟨i, hi, -⟩ := getParentDir_inode hq
  obtain ⟨c', h'⟩ := adjustSubtreeAuth_returns (a := o) k.stays.inv (d := b)
    (by rw [hi]; rfl) (by rw [getSubtreeRoot_of_not hroot, rootAbove_of_parent hq, hs]; rfl)
  obtain ⟨-, hA, hF⟩ := adjustSubtreeAuth_spec k.stays.inv ho h'
  have k' := k.newBound h hb hroot ho hg h'
  refine ⟨c', h', k', fun e he => ?_, hA⟩
  -- No other bound is below `b`.
  have hsame : c'.rootAbove e = c.rootAbove e := by
    refine (rootAbove_mark hF.tree (isSubtreeRoot_setDirAuth ho hA) hroot e).resolve_right fun hab => ?_
    obtain ⟨q', s', hq', hs', hR'⟩ := k'.rootAbove_bound h he
    rw [rootAbove_of_parent hq', hs', Option.some.injEq] at hab
    exact h.not_region hb (hab.1 ▸ hR')
  rw [hsame]
  exact hT e he

omit [AddCommGroup L] in
include h k in
/-- The authority of a bound that is directly below `d` by now. -/
theorem given_old (hT : Tracks c₀ d B S c) (hS : ∀ s, S s → s ∈ B ∧ s < b) (hb : b ∈ B)
    (hroot : c.isSubtreeRoot b = false) (hab : c.rootAbove b = some d)
    (ho : ∀ o', c₀.rootAuth d = some o' → o = o') (hd : (c₀.rootAuth d).isSome) (hk : KeepsBounds c₀ d B) :
    c₀.rootAuth b = some o := by
  have hno := k.bound_not hb hroot
  obtain ⟨od, hod⟩ := Option.isSome_iff_exists.mp hd
  obtain ⟨q, hq, hR⟩ := Forest.region_above (h.bounds b hb)
  rw [ho od hod, rootAuth_of_not hno hq, ← hod]
  rcases getSubtreeRoot_region (c := c₀) hR with hsame | ⟨t, ht, htR, htd⟩
  · rw [Cache.rootAuth, Cache.rootAuth, hsame]
  · have hbt : c₀.rootAbove b = some t := (rootAbove_of_parent hq).trans ht
    rcases hT b hb with ⟨t', ht'd, ht', -⟩ | ⟨-, hgone⟩
    · exact absurd (Option.some.inj (ht'.symm.trans hab)) ht'd
    · obtain ⟨b', hb', hc⟩ := hgone t hbt htR htd
      obtain ⟨hb'B, hlt⟩ := hS b' hb'
      rw [hk b hb b' hb'B t hno hbt htR htd hlt hc, Cache.rootAuth, ht, Option.map_some]

include h k in
/-- One bound of the claim: it is a root afterwards, and those that were still are. -/
theorem adjustBound (hT : Tracks c₀ d B S c) (hS : ∀ s, S s → s ∈ B ∧ s < b) (hod : o ≠ cdirAuthDefault)
    (ho : ∀ o', c₀.rootAuth d = some o' → o = o') (hb : b ∈ B) :
    ∃ c', Cache.adjustBound I d a o c b = .ok c' ∧ Claiming c₀ d B a c' ∧
      Tracks c₀ d B (fun s => S s ∨ s = b) c' ∧ c'.isSubtreeRoot b = true ∧
      ∀ b' ∈ B, c.isSubtreeRoot b' = true → c'.isSubtreeRoot b' = true := by
  have hI := k.stays.inv
  have hT' : Tracks c₀ d B (fun s => S s ∨ s = b) c := fun e he =>
    (hT e he).imp_right fun hgone => ⟨hgone.1, fun t ht hR htd =>
      (hgone.2 t ht hR htd).imp fun _ hs => ⟨.inl hs.1, hs.2⟩⟩
  by_cases hmem : b ∈ c.bounds d
  · exact ⟨c, if_pos hmem, k, hT', ((hI.mem_bounds d b).mp hmem).1, fun _ _ => id⟩
  have hkeep : ∀ {c₁ : Cache ι α L} {o : Auth}, o ≠ cdirAuthDefault → c₁.dirAuth = Function.update c.dirAuth b o →
      ∀ b', (c.isSubtreeRoot b' = true ∨ b' = b) → c₁.isSubtreeRoot b' = true := by
    intro c₁ o ho hA b' hb'
    rw [isSubtreeRoot_setDirAuth ho hA]
    by_cases hbb : b' = b
    · rw [hbb, Function.update_self]
    · rw [Function.update_of_ne hbb]
      exact hb'.resolve_right hbb
  obtain ⟨q, t, hq, ht, hR⟩ := k.rootAbove_bound h hb
  have hab : c.rootAbove b = some t := (rootAbove_of_parent hq).trans ht
  by_cases hroot : c.getSubtreeRoot b = some d
  · have hno : c.isSubtreeRoot b = false := by
      by_contra hb'
      rw [Bool.not_eq_false] at hb'
      rw [getSubtreeRoot_of_root hb', Option.some.injEq] at hroot
      exact h.dir_notMem (hroot ▸ hb)
    have habd : c.rootAbove b = some d := by rw [← getSubtreeRoot_of_not hno, hroot]
    obtain ⟨c', h', k', hT₁, hA'⟩ := k.bound_returns h hod (k.given_old h hT hS hb hno habd ho) hT' hb hno
    exact ⟨c', (if_neg hmem).trans ((if_pos hroot).trans h'), k', hT₁, hkeep hod hA' b (.inr rfl),
      fun b' _ hb' => hkeep hod hA' b' (.inl hb')⟩
  -- Otherwise there is a root strictly between, and the bound hangs below it.
  have htd : t ≠ d := by
    rintro rfl
    cases hb' : c.isSubtreeRoot b with
    | true => exact hmem ((hI.mem_bounds t b).mpr ⟨hb', hab⟩)
    | false => exact hroot (by rw [getSubtreeRoot_of_not hb', hab])
  have htroot := getSubtreeRoot_isRoot ht
  have htb : contains c₀.tree t b = true := by
    rw [← k.stays.frame.tree]
    exact Forest.contains_of_above hab
  obtain ⟨c₁, h₁, k₁, hT₁, hb₁, hkeep₁, ht₁⟩ : ∃ c₁, newBoundBelow I d t c b = .ok c₁ ∧
      Claiming c₀ d B a c₁ ∧ Tracks c₀ d B (fun s => S s ∨ s = b) c₁ ∧ c₁.isSubtreeRoot b = true ∧
      (∀ b' ∈ B, c.isSubtreeRoot b' = true → c₁.isSubtreeRoot b' = true) ∧
      c₁.isSubtreeRoot t = true := by
    by_cases hbt : b ∈ c.bounds t
    · exact ⟨c, if_pos hbt, k, hT', ((hI.mem_bounds t b).mp hbt).1, fun _ _ => id, htroot⟩
    · have hno : c.isSubtreeRoot b = false := by
        by_contra hb'
        rw [Bool.not_eq_false] at hb'
        exact hbt ((hI.mem_bounds t b).mpr ⟨hb', hab⟩)
      obtain ⟨hA, -⟩ := k.root_inside hR htd htroot
      have hot : c.dirAuth t ≠ cdirAuthDefault := isSubtreeRoot_iff.mp htroot
      have hg : c₀.rootAuth b = some (c.dirAuth t) := by
        have hbt₀ : c₀.rootAbove b = some t := by
          rcases hT b hb with ⟨t', -, ht', ht'₀⟩ | ⟨hbd, -⟩
          · rw [ht'₀, ← ht', hab]
          · exact absurd (Option.some.inj (hab.symm.trans hbd)) htd
        rw [Cache.rootAuth, getSubtreeRoot_of_not (k.bound_not hb hno), hbt₀, Option.map_some, hA]
      obtain ⟨c', h', k', hT₁, hA'⟩ := k.bound_returns h hot (fun _ _ => hg) hT' hb hno
      refine ⟨c', (if_neg hbt).trans (bind_ok.mpr ⟨(), assert_ok.mpr (decide_eq_true htd), ?_⟩), k', hT₁,
        hkeep hot hA' b (.inr rfl), fun b' _ hb' => hkeep hot hA' b' (.inl hb'), hkeep hot hA' t (.inl htroot)⟩
      rw [authority_of_root htroot]
      exact h'
  obtain ⟨c', h', k', hT₂, hA'⟩ := k₁.swallowIntervening h hT₁ hb hR htd ht₁ htb (rootCount_lt_fuel c₁)
  have hkeep' : ∀ b' ∈ B, c'.isSubtreeRoot b' = c₁.isSubtreeRoot b' := fun b' hb' => by
    simp [isSubtreeRoot, hA' b' hb']
  refine ⟨c', ?_, k', hT₂, (hkeep' b hb).trans hb₁,
    fun b' hb' h => (hkeep' b' hb').trans (hkeep₁ b' hb' h)⟩
  refine (if_neg hmem).trans ((if_neg hroot).trans ?_)
  exact bind_ok.mpr ⟨q, deref_ok.mpr hq, bind_ok.mpr ⟨t, deref_ok.mpr ht, bind_ok.mpr ⟨c₁, h₁, h'⟩⟩⟩

include h k in
/-- The loop over the bounds. -/
theorem adjustBounds (hT : Tracks c₀ d B (fun _ => False) c) (hod : o ≠ cdirAuthDefault)
    (ho : ∀ o', c₀.rootAuth d = some o' → o = o') :
    ∃ c', (ascending B).foldlM (Cache.adjustBound I d a o) c = .ok c' ∧
      Claiming c₀ d B a c' ∧ ∀ b ∈ B, c'.isSubtreeRoot b = true := by
  suffices H : ∀ (l : List α) (S : α → Prop) (c : Cache ι α L), (∀ b ∈ l, b ∈ B) → l.Pairwise (· < ·) →
      (∀ s, S s → s ∈ B ∧ ∀ b ∈ l, s < b) → Claiming c₀ d B a c → Tracks c₀ d B S c →
      ∃ c', l.foldlM (Cache.adjustBound I d a o) c = .ok c' ∧ Claiming c₀ d B a c' ∧
        ∀ b ∈ B, b ∈ l ∨ c.isSubtreeRoot b = true → c'.isSubtreeRoot b = true by
    have hlt : (ascending B).Pairwise (· < ·) :=
      ((pairwise_ascending B).and (nodup_ascending B)).imp fun hab => lt_of_le_of_ne hab.1 hab.2
    obtain ⟨c', h', k', hB⟩ := H (ascending B) _ c (fun b => mem_ascending.mp) hlt (fun _ hs => hs.elim) k hT
    exact ⟨c', h', k', fun b hb => hB b hb (.inl (mem_ascending.mpr hb))⟩
  intro l
  induction l with
  | nil => exact fun _ c _ _ _ k _ => ⟨c, rfl, k, fun b _ hb => hb.resolve_left List.not_mem_nil⟩
  | cons p l ih =>
    intro S c hl hlt hS k hT
    obtain ⟨hp, hlt⟩ := List.pairwise_cons.mp hlt
    have hpB := hl p List.mem_cons_self
    obtain ⟨c₁, h₁, k₁, hT₁, hp₁, hkeep⟩ := k.adjustBound (I := I) h hT
      (fun s hs => ⟨(hS s hs).1, (hS s hs).2 p List.mem_cons_self⟩) hod ho hpB
    obtain ⟨c', h', k', hB⟩ := ih _ c₁ (fun b hb => hl b (List.mem_cons_of_mem _ hb)) hlt
      (fun s hs => by
        rcases hs with hs | rfl
        · exact ⟨(hS s hs).1, fun b hb => (hS s hs).2 b (List.mem_cons_of_mem p hb)⟩
        · exact ⟨hpB, hp⟩) k₁ hT₁
    refine ⟨c', ?_, k', fun b hb hor => hB b hb ?_⟩
    · rw [List.foldlM_cons, bind_ok]
      exact ⟨c₁, h₁, h'⟩
    · rcases hor with hb' | hb'
      · rcases List.mem_cons.mp hb' with rfl | hb'
        · exact .inr hp₁
        · exact .inl hb'
      · exact .inr (hkeep b hb hb')

omit [AddCommGroup L] in
/-- Once the bounds are roots, only the region is delegated by `d`. -/
theorem region_of_nearest (k : Claiming c₀ d B a c) (hB : ∀ b ∈ B, c.isSubtreeRoot b = true)
    (hx : c.getSubtreeRoot x = some d) : c₀.tree.forest.Region d B x := by
  induction x using c.tree.forest.downward with
  | _ x ih =>
    by_cases hxd : x = d
    · exact hxd ▸ Forest.region_self
    have hroot : c.isSubtreeRoot x = false := by
      by_contra hr
      rw [Bool.not_eq_false] at hr
      rw [getSubtreeRoot_of_root hr, Option.some.injEq] at hx
      exact hxd hx
    rw [getSubtreeRoot_of_not hroot, rootAbove_eq_some] at hx
    obtain ⟨q, hq, hqd⟩ := hx
    have hq' : c₀.tree.forest.parent x = some q := by
      rw [getParentDir, k.stays.frame.tree] at hq
      exact hq
    refine (ih q hq hqd).child hq' fun hxB => ?_
    rw [hB x hxB] at hroot
    cases hroot

include h in
/-- One pass over a copy of the bounds of `d`. -/
theorem swallowExtra {l : List α} (k : Claiming c₀ d B a c) (hnd : l.Nodup)
    (hl : ∀ s ∈ l, s ∈ B ∨ c₀.tree.forest.Region d B s ∧ s ≠ d ∧ c.isSubtreeRoot s = true ∧
      c.rootAbove s = some d) :
    ∃ c', l.foldlM (fun c stray => if stray ∈ B then pure c else c.swallow stray a) c = .ok c' ∧
      Claiming c₀ d B a c' ∧ (∀ b ∈ B, c'.dirAuth b = c.dirAuth b) ∧
      (∀ x, x ∉ B → x ∈ l ∨ c.isSubtreeRoot x = false → c'.isSubtreeRoot x = false) ∧
      (c' = c ∨ c'.rootCount < c.rootCount) := by
  induction l generalizing c with
  | nil => exact ⟨c, rfl, k, fun _ _ => rfl, fun x _ hx => hx.resolve_left List.not_mem_nil, .inl rfl⟩
  | cons s l ih =>
    obtain ⟨hsl, hnd⟩ := List.nodup_cons.mp hnd
    by_cases hsB : s ∈ B
    · obtain ⟨c', h', k', hB', hgone, hlt⟩ := ih k hnd fun e he => hl e (List.mem_cons_of_mem _ he)
      refine ⟨c', ?_, k', hB', fun x hx hor => hgone x hx ?_, hlt⟩
      · rw [List.foldlM_cons, if_pos hsB]
        exact h'
      · rcases hor with hx' | hx'
        · exact .inl ((List.mem_cons.mp hx').resolve_left fun e => hx (e ▸ hsB))
        · exact .inr hx'
    · obtain ⟨hR, hsd, hroot, hab⟩ := (hl s List.mem_cons_self).resolve_left hsB
      obtain ⟨c₁, h₁, k₁, hlt₁, hA₁⟩ := k.swallow h hR hsd hroot hab
      obtain ⟨hs₁, hm₁⟩ := isSubtreeRoot_clear hroot hA₁
      have hl₁ : ∀ e ∈ l, e ∈ B ∨ c₀.tree.forest.Region d B e ∧ e ≠ d ∧ c₁.isSubtreeRoot e = true ∧
          c₁.rootAbove e = some d := by
        intro e he
        refine (hl e (List.mem_cons_of_mem _ he)).imp_right ?_
        rintro ⟨hRe, hed, her, hea⟩
        have hes : e ≠ s := fun e' => hsl (e' ▸ he)
        rw [hm₁, Function.update_of_ne hes] at her
        have ht : c₁.tree = c.tree := k₁.stays.frame.tree.trans k.stays.frame.tree.symm
        refine ⟨hRe, hed, her, ?_⟩
        rw [rootAbove_unmark ht hm₁ hs₁, hea, if_neg]
        simpa using hsd.symm
      obtain ⟨c', h', k', hB', hgone, hlt⟩ := ih k₁ hnd hl₁
      refine ⟨c', ?_, k', fun b hb => ?_, fun x hx hor => hgone x hx ?_, .inr ?_⟩
      · rw [List.foldlM_cons, if_neg hsB, bind_ok]
        exact ⟨c₁, h₁, h'⟩
      · have hbs : b ≠ s := fun e => hsB (e ▸ hb)
        rw [hB' b hb, hA₁, Function.update_of_ne hbs]
      · by_cases hxs : x = s
        · exact .inr (hxs ▸ hs₁)
        · rcases hor with hx' | hx'
          · exact .inl ((List.mem_cons.mp hx').resolve_left hxs)
          · rw [hm₁, Function.update_of_ne hxs] at hx'
            exact .inr hx'
      · rcases hlt with rfl | hlt
        · exact hlt₁
        · exact hlt.trans hlt₁

include h in
/-- The passes end with no other bounds than those of the claim. -/
theorem mergeStray {n : ℕ} (k : Claiming c₀ d B a c)
    (hB : ∀ b ∈ B, c.isSubtreeRoot b = true) (hn : c.rootCount < n) :
    ∃ c', Cache.mergeStray d B a n c = .ok c' ∧ Claiming c₀ d B a c' ∧
      (∀ b ∈ B, c'.isSubtreeRoot b = true) ∧ c'.bounds d ⊆ B := by
  induction n generalizing c with
  | zero => omega
  | succ n ih =>
    by_cases hempty : c.bounds d = ∅
    · exact ⟨c, if_pos hempty, k, hB, by rw [hempty]; exact Finset.empty_subset B⟩
    have hl : ∀ s ∈ ascending (c.bounds d), s ∈ B ∨ c₀.tree.forest.Region d B s ∧ s ≠ d ∧
        c.isSubtreeRoot s = true ∧ c.rootAbove s = some d := by
      intro s hs
      obtain ⟨hroot, hab⟩ := (k.stays.inv.mem_bounds d s).mp (mem_ascending.mp hs)
      by_cases hsB : s ∈ B
      · exact .inl hsB
      · obtain ⟨q, hq, hqd⟩ := rootAbove_eq_some.mp hab
        rw [getParentDir, k.stays.frame.tree] at hq
        exact .inr ⟨(k.region_of_nearest hB hqd).child hq hsB, (c.tree.forest.above_ne hab).symm,
          hroot, hab⟩
    obtain ⟨c₁, h₁, k₁, hA₁, hgone, hlt⟩ := k.swallowExtra h (nodup_ascending _) hl
    have hB₁ : ∀ b ∈ B, c₁.isSubtreeRoot b = true := fun b hb => by
      rw [isSubtreeRoot_iff, hA₁ b hb]
      exact isSubtreeRoot_iff.mp (hB b hb)
    by_cases hsame : c.bounds d = c₁.bounds d
    · refine ⟨c₁, ?_, k₁, hB₁, fun s hs => ?_⟩
      · rw [Cache.mergeStray, if_neg hempty]
        exact bind_ok.mpr ⟨c₁, h₁, if_pos hsame⟩
      · by_contra hsB
        have := hgone s hsB (.inl (mem_ascending.mpr (hsame ▸ hs)))
        rw [((k₁.stays.inv.mem_bounds d s).mp hs).1] at this
        cases this
    · have hlt₁ : c₁.rootCount < c.rootCount := hlt.resolve_left fun e => hsame (by rw [e])
      obtain ⟨c', h', k', hB', hsub⟩ := ih k₁ hB₁ (by omega)
      refine ⟨c', ?_, k', hB', hsub⟩
      rw [Cache.mergeStray, if_neg hempty]
      exact bind_ok.mpr ⟨c₁, h₁, (if_neg hsame).trans h'⟩

omit [AddCommGroup L] in
include h in
/-- Then no root is left inside. -/
theorem no_root_inside (k : Claiming c₀ d B a c) (hsub : c.bounds d ⊆ B)
    (hr : c₀.tree.forest.Region d B r) (hrd : r ≠ d) : c.isSubtreeRoot r = false :=
  no_root_of_bounds k.stays.inv (k.isRoot_dir h) hsub (k.stays.frame.tree ▸ hr) hrd

omit [AddCommGroup L] in
include h in
theorem bounds_eq (k : Claiming c₀ d B a c)
    (hB : ∀ b ∈ B, c.isSubtreeRoot b = true) (hsub : c.bounds d ⊆ B) : B = c.bounds d := by
  refine Finset.Subset.antisymm (fun b hb => ?_) hsub
  obtain ⟨q, s, hq, hs, hR⟩ := k.rootAbove_bound h hb
  obtain rfl : s = d := by
    by_contra hsd
    have := k.no_root_inside h hsub hR hsd
    rw [getSubtreeRoot_isRoot hs] at this
    cases this
  exact (k.stays.inv.mem_bounds s b).mpr ⟨hB b hb, (rootAbove_of_parent hq).trans hs⟩

omit [AddCommGroup L] in
/-- The authority inside is the new one, and outside what it was. -/
theorem rootAuth (h : Claimable c₀ d B) (ha : Plain a) (k : Claiming c₀ d B a c)
    (hB : ∀ b ∈ B, c.isSubtreeRoot b = true) (hsub : c.bounds d ⊆ B) (x : α) :
    (c₀.tree.forest.Region d B x → c.rootAuth x = some a) ∧
      (¬ c₀.tree.forest.Region d B x → c.rootAuth x = c₀.rootAuth x) := by
  have ht := k.stays.frame.tree
  refine ⟨fun hx => ?_, ?_⟩
  · obtain ⟨r, hr, hR⟩ := k.nearest_inside (h.boundable ha) hx
    obtain rfl : r = d := by
      by_contra hrd
      have := k.no_root_inside (h.boundable ha) hsub hR hrd
      rw [getSubtreeRoot_isRoot hr] at this
      cases this
    rw [Cache.rootAuth, hr, Option.map_some, k.dir]
  induction x using c.tree.forest.downward with
  | _ x ih =>
    intro hx
    by_cases hxB : x ∈ B
    · rw [rootAuth_of_root (hB x hxB)]
      rcases k.bound hxB with he | hno
      · have hroot : c₀.isSubtreeRoot x = true := by
          rw [isSubtreeRoot_iff, ← he]
          exact isSubtreeRoot_iff.mp (hB x hxB)
        rw [he, rootAuth_of_root hroot]
      · exact (k.given h.root h.keeps hxB hno (hB x hxB)).symm
    · have he := k.outside hx hxB
      have hsame : c.isSubtreeRoot x = c₀.isSubtreeRoot x := by simp [isSubtreeRoot, he]
      cases hroot : c₀.isSubtreeRoot x with
      | true => rw [rootAuth_of_root hroot, rootAuth_of_root (hsame.trans hroot), he]
      | false =>
        cases hq : c₀.tree.forest.parent x with
        | none =>
          rw [Cache.rootAuth, Cache.rootAuth, getSubtreeRoot_of_not hroot,
            getSubtreeRoot_of_not (hsame.trans hroot)]
          simp [rootAbove, Forest.above, ht, hq]
        | some q =>
          have hq' : c.getParentDir x = some q := by rw [getParentDir, ht, hq]
          rw [rootAuth_of_not hroot hq, rootAuth_of_not (hsame.trans hroot) hq']
          exact ih q hq' fun hR => hx (hR.child hq hxB)

end Claiming

/-- `adjustBoundedSubtreeAuth` returns with the bounds that it was given. -/
theorem Boundable.adjustBoundedSubtreeAuth (h : Boundable c d B a)
    (hd : ∃ new c', c.delegate c.tree.isRoot d a = .ok (new, c')) :
    ∃ c', c.adjustBoundedSubtreeAuth I d B a = .ok c' ∧ Claiming c d B a c' ∧
      (∀ b ∈ B, c'.isSubtreeRoot b = true) ∧ c'.bounds d = B := by
  obtain ⟨new, c₁, h₁⟩ := hd
  obtain ⟨hI₁, hA₁, hF₁⟩ := delegate_spec (fun _ => c.tree.root_base) h.inv h.ne_default h₁
  have k₁ := h.delegated ⟨hI₁, hF₁⟩ hA₁
  obtain ⟨c₂, h₂, k₂, hB₂⟩ := k₁.adjustBounds (I := I) h (h.tracks hI₁ hF₁ hA₁) authority_ne_default
    fun _ => authority_of_rootAuth
  obtain ⟨c₃, h₃, k₃, hB₃, hsub⟩ := k₂.mergeStray h hB₂ (rootCount_lt_fuel c₂)
  have hdir := k₃.isRoot_dir h
  have heq := k₃.bounds_eq h hB₃ hsub
  refine ⟨c₃, ?_, k₃, hB₃, heq.symm⟩
  refine bind_ok.mpr ⟨_, h₁, bind_ok.mpr ⟨c₂, h₂, bind_ok.mpr ⟨c₃, h₃, ?_⟩⟩⟩
  refine bind_ok.mpr ⟨(), assert_ok.mpr ((k₃.stays.inv.key d).trans hdir), ?_⟩
  exact bind_ok.mpr ⟨(), assert_ok.mpr (decide_eq_true heq), rfl⟩

/-- A claim that keeps its bounds: `adjustBoundedSubtreeAuth` returns, and the
authority changes inside the region and nowhere else. -/
theorem adjustBoundedSubtreeAuth_region (h : Claimable c d B) (ha : Plain a) :
    ∃ c', c.adjustBoundedSubtreeAuth I d B a = .ok c' ∧ Stays c c' ∧ c'.isSubtreeRoot d = true ∧
      ∀ x, (c.tree.forest.Region d B x → c'.rootAuth x = some a) ∧
        (¬ c.tree.forest.Region d B x → c'.rootAuth x = c.rootAuth x) := by
  obtain ⟨i, hi, -⟩ := h.linked
  have hdel := delegate_returns (a := a) c.tree.isRoot h.inv (d := d) (by rw [hi]; rfl)
    (by rw [← Option.isSome_map]; exact h.root)
  obtain ⟨c', h', k, hB, hb⟩ := (h.boundable ha).adjustBoundedSubtreeAuth (I := I) hdel
  exact ⟨c', h', k.stays, k.isRoot_dir (h.boundable ha), k.rootAuth h ha hB hb.le⟩

end CephMds.Cache
