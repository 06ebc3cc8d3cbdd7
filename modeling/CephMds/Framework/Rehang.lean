import CephMds.Framework.Forest
import Mathlib.Data.Finset.Basic

/-!
# Rehanging parts of a forest

A forest `F'` is `F` with the nodes of `D` below other parents (`Rehung`). A
climb in `F'` comes to the marked node it came to in `F`, or first to a node of
`D` (`Rehung.nearest`). If the nodes of `D` that come below a marked node of
another value are marked too, and no new parent does, what these marks do to a
climb can be read off (`Rehung.nearest_split`).
-/

namespace CephMds.Forest

variable {α : Type*} {F F' : Forest α} {m k : α → Bool} {D : α → Prop} {d e q r x : α}

/-! ## Climbs and marks -/

/-- A climb that comes to `q` comes to it also with fewer marks. -/
theorem nearest_mono (hk : ∀ y, m y = true → k y = true) (h : F.nearest k x = some q) (hq : m q = true) :
    F.nearest m x = some q := by
  induction x using F.downward with
  | _ x ih =>
    by_cases hx : k x = true
    · rw [F.nearest_of_marked hx, Option.some_inj] at h
      subst h
      exact F.nearest_of_marked hq
    · have hm : m x = false := Bool.eq_false_iff.mpr fun hm => hx (hk x hm)
      rw [F.nearest_of_not (Bool.eq_false_iff.mpr hx), above_eq_some] at h
      obtain ⟨p, hp, h⟩ := h
      rw [F.nearest_of_not hm, F.above_of_parent hp]
      exact ih p hp h

/-- With fewer marks, a climb that came to a node without a mark goes on from there. -/
theorem nearest_skip (hk : ∀ y, m y = true → k y = true) (h : F.nearest k x = some q) (hq : m q = false) :
    F.nearest m x = F.above m q := by
  induction x using F.downward with
  | _ x ih =>
    by_cases hx : k x = true
    · rw [F.nearest_of_marked hx, Option.some_inj] at h
      subst h
      exact F.nearest_of_not hq
    · have hm : m x = false := Bool.eq_false_iff.mpr fun hm => hx (hk x hm)
      rw [F.nearest_of_not (Bool.eq_false_iff.mpr hx), above_eq_some] at h
      obtain ⟨p, hp, h⟩ := h
      rw [F.nearest_of_not hm, F.above_of_parent hp]
      exact ih p hp h

/-- Below a marked node every climb ends. -/
theorem nearest_isSome [DecidableEq α] (hd : k d = true) (hx : (F.nearest (fun y => y = d) x).isSome) :
    (F.nearest k x).isSome := by
  induction x using F.downward with
  | _ x ih =>
    by_cases hkx : k x = true
    · rw [F.nearest_of_marked hkx]
      rfl
    · have hne : x ≠ d := fun e => hkx (e ▸ hd)
      rw [F.nearest_of_not (decide_eq_false hne)] at hx
      obtain ⟨r, hr⟩ := Option.isSome_iff_exists.mp hx
      obtain ⟨p, hp, hr⟩ := F.above_eq_some.mp hr
      rw [F.nearest_of_not (Bool.eq_false_iff.mpr hkx), F.above_of_parent hp]
      exact ih p hp (by rw [hr]; rfl)

/-- The nodes of the climb are contained in its end. -/
theorem contains_of_nearest [DecidableEq α] (h : F.nearest k x = some q) :
    (F.nearest (fun y => y = q) x).isSome := by
  have hk : ∀ y, (decide (y = q)) = true → k y = true := fun y hy =>
    of_decide_eq_true hy ▸ F.nearest_marked h
  rw [nearest_mono hk h (decide_eq_true rfl)]
  rfl

/-- So is the climb to it from where another one ends. -/
theorem contains_trans [DecidableEq α] (hr : (F.nearest (fun y => y = r) q).isSome)
    (hx : (F.nearest (fun y => y = q) x).isSome) : (F.nearest (fun y => y = r) x).isSome := by
  induction x using F.downward with
  | _ x ih =>
    by_cases hxr : x = r
    · rw [F.nearest_of_marked (decide_eq_true hxr)]
      rfl
    by_cases hxq : x = q
    · exact hxq ▸ hr
    rw [F.nearest_of_not (decide_eq_false hxq)] at hx
    obtain ⟨y, hy⟩ := Option.isSome_iff_exists.mp hx
    obtain ⟨p, hp, hy⟩ := F.above_eq_some.mp hy
    rw [F.nearest_of_not (decide_eq_false hxr), F.above_of_parent hp]
    exact ih p hp (by rw [hy]; rfl)

theorem contains_of_above [DecidableEq α] (h : F.above k x = some q) :
    (F.nearest (fun y => y = q) x).isSome := by
  obtain ⟨p, hp, h⟩ := F.above_eq_some.mp h
  by_cases hx : x = q
  · rw [F.nearest_of_marked (decide_eq_true hx)]
    rfl
  · rw [F.nearest_of_not (decide_eq_false hx), F.above_of_parent hp]
    exact contains_of_nearest h

/-- Marks between two sets of marks that agree for a climb. -/
theorem nearest_sandwich [DecidableEq α] {m' : α → Bool} (hm : ∀ y, m y = true → m' y = true)
    (hm' : ∀ y, m' y = true → k y = true) (h : F.nearest k x = F.nearest m x) :
    F.nearest m' x = F.nearest m x := by
  cases hr : F.nearest m x with
  | some r => exact nearest_mono hm' (h.trans hr) (hm r (F.nearest_marked hr))
  | none =>
    rw [Option.eq_none_iff_forall_ne_some]
    intro r hr'
    have hsome := nearest_isSome (hm' r (F.nearest_marked hr')) (contains_of_nearest hr')
    rw [h, hr] at hsome
    cases hsome

/-- The region of a marked node with the marked nodes directly below it. -/
theorem region_iff_nearest [DecidableEq α] {B : Finset α} (hr : k r = true)
    (hB : ∀ b, b ∈ B ↔ k b = true ∧ F.above k b = some r) : F.Region r B x ↔ F.nearest k x = some r := by
  induction x using F.downward with
  | _ x ih =>
    by_cases hx : x = r
    · rw [hx, F.nearest_of_marked hr]
      exact ⟨fun _ => rfl, fun _ => region_self⟩
    have hstep : F.Region r B x ↔ x ∉ B ∧ F.above k x = some r := by
      constructor
      · intro h
        obtain ⟨hxB, q, hq, hR⟩ := h.parent hx
        exact ⟨hxB, F.above_eq_some.mpr ⟨q, hq, (ih q hq).mp hR⟩⟩
      · rintro ⟨hxB, h⟩
        obtain ⟨q, hq, hR⟩ := F.above_eq_some.mp h
        exact ((ih q hq).mpr hR).child hq hxB
    rw [hstep, hB, F.nearest_eq]
    split
    · rename_i hk
      rw [Option.some_inj]
      exact ⟨fun h => absurd ⟨hk, h.2⟩ h.1, fun h => absurd h hx⟩
    · rename_i hk
      exact ⟨fun h => h.2, fun h => ⟨fun h' => hk h'.1, h⟩⟩

/-! ## Rehung nodes -/

/-- Only the nodes of `D` may have other parents. -/
def Rehung (F F' : Forest α) (D : α → Prop) : Prop := ∀ d, ¬ D d → F'.parent d = F.parent d

namespace Rehung

variable {β : Type*} {s : α → Bool} {g : Option α → β} {n : α} (h : Rehung F F' D)
include h

/-- A climb comes to the marked node it came to before, or first to a rehung node. -/
theorem nearest (hk : ∀ y, k y = true ↔ m y = true ∨ D y) (x : α) :
    F'.nearest m x = F.nearest m x ∧ F'.nearest k x = F.nearest m x ∨
    ∃ d, D d ∧ m d = false ∧ F'.nearest k x = some d ∧ F.nearest m x = F.above m d ∧
      F'.nearest m x = F'.above m d := by
  induction x using F'.downward with
  | _ x ih =>
    by_cases hmx : m x = true
    · refine .inl ?_
      rw [F.nearest_of_marked hmx, F'.nearest_of_marked hmx, F'.nearest_of_marked ((hk x).mpr (.inl hmx))]
      exact ⟨rfl, rfl⟩
    rw [Bool.not_eq_true] at hmx
    by_cases hD : D x
    · exact .inr ⟨x, hD, hmx, F'.nearest_of_marked ((hk x).mpr (.inr hD)), F.nearest_of_not hmx,
        F'.nearest_of_not hmx⟩
    have hkx : k x = false := by
      rw [Bool.eq_false_iff]
      intro hkx
      exact ((hk x).mp hkx).elim (by simp [hmx]) hD
    rw [F'.nearest_of_not hmx, F.nearest_of_not hmx, F'.nearest_of_not hkx]
    simp only [above, h x hD]
    cases hp : F.parent x with
    | none => exact .inl ⟨rfl, rfl⟩
    | some p => exact ih p ((h x hD).trans hp)

/-- If the new parents were below a marked node, every climb still ends. -/
theorem nearest_isSome (hn : ∀ d, D d → ∃ n, F'.parent d = some n ∧ (F.nearest m n).isSome)
    (hx : (F.nearest m x).isSome) : (F'.nearest m x).isSome := by
  induction x using F'.downward with
  | _ x ih =>
    cases hmx : m x with
    | true =>
      rw [F'.nearest_of_marked hmx]
      rfl
    | false =>
      rw [F'.nearest_of_not hmx]
      by_cases hD : D x
      · obtain ⟨n, hn, hR⟩ := hn x hD
        rw [F'.above_of_parent hn]
        exact ih n hn hR
      · rw [F.nearest_of_not hmx] at hx
        obtain ⟨r, hr⟩ := Option.isSome_iff_exists.mp hx
        obtain ⟨p, hp, hr⟩ := F.above_eq_some.mp hr
        have hp' := (h x hD).trans hp
        rw [F'.above_of_parent hp']
        exact ih p hp' (by rw [hr]; rfl)

/-! The marks `s` are those of `m` and rehung nodes that come below a marked
node of another value, and no new parent does. -/

variable (hm : ∀ y, m y = true → s y = true)
  (hs : ∀ y, s y = true → m y = true ∨ D y ∧ g (F.above m y) ≠ g (F'.above m y))
  (hn : ∀ d n, D d → F'.parent d = some n → g (F'.nearest m n) = g (F.nearest m n))
include hs

omit h in
theorem unsplit (hmx : m x = false) (hg : g (F'.above m x) = g (F.above m x)) : s x = false := by
  rw [Bool.eq_false_iff]
  intro hsx
  exact (hs x hsx).elim (by simp [hmx]) fun hD => hD.2 hg.symm

include hm hn

/-- A climb to a marked node of the same value meets none of the other marks. -/
theorem nearest_same (hg : g (F'.nearest m x) = g (F.nearest m x)) : F'.nearest s x = F'.nearest m x := by
  induction x using F'.downward with
  | _ x ih =>
    cases hmx : m x with
    | true => rw [F'.nearest_of_marked hmx, F'.nearest_of_marked (hm x hmx)]
    | false =>
      rw [F.nearest_of_not hmx, F'.nearest_of_not hmx] at hg
      rw [F'.nearest_of_not hmx, F'.nearest_of_not (unsplit hs hmx hg)]
      cases hp : F'.parent x with
      | none => simp [above, hp]
      | some p =>
        rw [F'.above_of_parent hp, F'.above_of_parent hp]
        refine ih p hp ?_
        by_cases hD : D x
        · exact hn x p hD hp
        · rwa [F'.above_of_parent hp, F.above_of_parent ((h x hD).symm.trans hp)] at hg

theorem above_split (hD : D d) : F'.above s d = F'.above m d := by
  cases hp : F'.parent d with
  | none => simp [above, hp]
  | some n =>
    rw [F'.above_of_parent hp, F'.above_of_parent hp]
    exact h.nearest_same hm hs hn (hn d n hD hp)

/-- The climbs of `F'` with the marks `s`. -/
theorem nearest_split (hk : ∀ y, k y = true ↔ m y = true ∨ D y) [DecidableEq α] (x : α) :
    F'.nearest m x = F.nearest m x ∧ F'.nearest s x = F.nearest m x ∨
    ∃ d, D d ∧ m d = false ∧ F'.nearest k x = some d ∧ F.nearest m x = F.above m d ∧
      F'.nearest m x = F'.above m d ∧ F'.nearest s x = if s d then some d else F'.above m d := by
  have hsk : ∀ y, s y = true → k y = true := fun y hy => (hk y).mpr ((hs y hy).imp_right And.left)
  rcases h.nearest hk x with ⟨hsame, hkx⟩ | ⟨d, hD, hmd, hkx, hF, hF'⟩
  · exact .inl ⟨hsame, (nearest_sandwich hm hsk (hkx.trans hsame.symm)).trans hsame⟩
  · refine .inr ⟨d, hD, hmd, hkx, hF, hF', ?_⟩
    split
    · rename_i hd
      exact nearest_mono hsk hkx hd
    · rename_i hd
      rw [nearest_skip hsk hkx (Bool.eq_false_iff.mpr hd), h.above_split hm hs hn hD]

end Rehung

end CephMds.Forest
