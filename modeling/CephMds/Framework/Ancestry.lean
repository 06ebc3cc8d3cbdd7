import Mathlib.Algebra.BigOperators.Group.Finset.Basic
import Mathlib.Algebra.Order.BigOperators.Group.Finset
import Mathlib.Logic.Relation
import Mathlib.Tactic.Common

/-!
# Ancestors by parent pointers

`Above par x r` says that `r` is `x` or one of its ancestors. Without cycles
(`Acyclic`) the subtrees of siblings are disjoint, so that a walk over a subtree
from the children lists ends after as many steps as there are nodes
(`sum_card_below_lt`), and so does a climb (`card_above_lt`). `Acyclic.reparent`
moves a subtree.
-/

namespace CephMds.Ancestry

variable {α : Type*} {par par' : α → Option α} {x y p q r : α}

/-- `r` is at or above `x`. -/
def Above (par : α → Option α) : α → α → Prop := Relation.ReflTransGen fun a b => par a = some b

/-- No node is above itself. -/
def Acyclic (par : α → Option α) : Prop := ∃ depth : α → ℕ, ∀ x p, par x = some p → depth p < depth x

theorem Above.refl (x : α) : Above par x x := Relation.ReflTransGen.refl

theorem Above.step (h : par x = some p) (hp : Above par p r) : Above par x r := Relation.ReflTransGen.head h hp

theorem Above.trans (h : Above par x y) (h' : Above par y r) : Above par x r := Relation.ReflTransGen.trans h h'

theorem above_cases (h : Above par x r) : x = r ∨ ∃ p, par x = some p ∧ Above par p r :=
  Relation.ReflTransGen.cases_head h

theorem above_iff_of_parent (h : par x = some p) : Above par x r ↔ x = r ∨ Above par p r := by
  constructor
  · intro hx
    rcases above_cases hx with rfl | ⟨p', hp', hr⟩
    · exact .inl rfl
    · rw [h, Option.some.injEq] at hp'
      rw [hp']
      exact .inr hr
  · rintro (rfl | hp)
    · exact .refl _
    · exact .step h hp

theorem above_iff_of_root (h : par x = none) : Above par x r ↔ x = r := by
  constructor
  · intro hx
    rcases above_cases hx with rfl | ⟨p, hp, -⟩
    · rfl
    · rw [h] at hp
      cases hp
  · rintro rfl
    exact .refl _

/-- A node below `r` is `r` or below one of its children. -/
theorem above_cases_tail (h : Above par x r) : x = r ∨ ∃ c, par c = some r ∧ Above par x c := by
  rcases Relation.ReflTransGen.cases_tail h with rfl | ⟨c, hxc, hc⟩
  · exact .inl rfl
  · exact .inr ⟨c, hc, hxc⟩

/-- What is at or above a node does not change when the pointers there do not. -/
theorem Above.congr (h : Above par x r) (hpar : ∀ y, Above par x y → par' y = par y) : Above par' x r := by
  induction h using Relation.ReflTransGen.head_induction_on with
  | refl => exact .refl _
  | head hxp _ ih =>
    exact .step ((hpar _ (.refl _)).trans hxp) (ih fun y hy => hpar y (.step hxp hy))

/-- The pointer of `r` itself does not matter for what is below `r`. -/
theorem Above.congr_of_ne (h : Above par x r) (hpar : ∀ y p, y ≠ r → par y = some p → par' y = some p) :
    Above par' x r := by
  induction h using Relation.ReflTransGen.head_induction_on with
  | refl => exact .refl _
  | @head y p hyp _ ih =>
    by_cases hy : y = r
    · rw [hy]
      exact .refl r
    · exact .step (hpar y p hy hyp) ih

namespace Acyclic

theorem not_above (h : Acyclic par) (hx : par x = some p) : ¬ Above par p x := by
  obtain ⟨depth, hd⟩ := h
  have hle : ∀ {a b}, Above par a b → depth b ≤ depth a := by
    intro a b hab
    induction hab with
    | refl => exact le_rfl
    | tail _ hbc ih => exact (hd _ _ hbc).le.trans ih
  intro hpx
  have := hle hpx
  have := hd x p hx
  omega

/-- The subtrees of siblings are disjoint. -/
theorem sibling_eq (h : Acyclic par) {c c' : α} (hc : par c = some x) (hc' : par c' = some x) (hy : Above par y c)
    (hy' : Above par y c') : c = c' := by
  have key : ∀ {a b}, par a = some x → par b = some x → Above par a b → a = b := by
    intro a b ha hb hab
    rcases above_cases hab with rfl | ⟨p, hp, hpb⟩
    · rfl
    · rw [ha, Option.some.injEq] at hp
      subst hp
      exact absurd hpb (h.not_above hb)
  rcases Relation.ReflTransGen.total_of_right_unique
    (fun a b c hab hac => Option.some.inj (hab.symm.trans hac)) hy hy' with hcc | hcc
  · exact key hc hc' hcc
  · exact (key hc' hc hcc).symm

/-- Pointers that only disappear make no cycle. -/
theorem mono (h : Acyclic par) (hpar : ∀ x p, par' x = some p → par x = some p) : Acyclic par' := by
  obtain ⟨depth, hd⟩ := h
  exact ⟨depth, fun x p hx => hd x p (hpar x p hx)⟩

/-- A node is given a parent that is not below it. -/
theorem reparent (h : Acyclic par) (hr : par' r = some q) (hpar : ∀ x p, x ≠ r → par' x = some p → par x = some p)
    (hq : ¬ Above par q r) : Acyclic par' := by
  classical
  obtain ⟨depth, hd⟩ := h
  refine ⟨fun x => if Above par x r then depth x + depth q + 1 else depth x, fun x p hx => ?_⟩
  by_cases hxr : x = r
  · subst hxr
    rw [hr, Option.some.injEq] at hx
    subst hx
    simp only [if_neg hq, if_pos (Above.refl x)]
    omega
  · have hx' := hpar x p hxr hx
    have hlt := hd x p hx'
    by_cases hb : Above par x r
    · have hp : Above par p r := ((above_iff_of_parent hx').mp hb).resolve_left hxr
      simp only [if_pos hb, if_pos hp]
      omega
    · have hp : ¬ Above par p r := fun hp => hb (.step hx' hp)
      simp only [if_neg hb, if_neg hp]
      exact hlt

end Acyclic

/-! ## Counting -/

section Counting

open Classical in
/-- The nodes at or below `x`. -/
noncomputable def below (par : α → Option α) (dom : Finset α) (x : α) : Finset α := dom.filter fun y => Above par y x

open Classical in
/-- The nodes at or above `x`. -/
noncomputable def above (par : α → Option α) (dom : Finset α) (x : α) : Finset α := dom.filter fun y => Above par x y

variable {dom : Finset α}

theorem mem_below : y ∈ below par dom x ↔ y ∈ dom ∧ Above par y x := by
  classical
  exact Finset.mem_filter

theorem mem_above : y ∈ above par dom x ↔ y ∈ dom ∧ Above par x y := by
  classical
  exact Finset.mem_filter

/-- A node has more below it than its children together. -/
theorem sum_card_below_lt (h : Acyclic par) (hx : x ∈ dom) {cs : Finset α} (hcs : ∀ c ∈ cs, par c = some x) :
    ∑ c ∈ cs, (below par dom c).card < (below par dom x).card := by
  classical
  rw [← Finset.card_biUnion]
  · refine Finset.card_lt_card (Finset.ssubset_iff_subset_ne.mpr ⟨fun y hy => ?_, fun he => ?_⟩)
    · obtain ⟨c, hc, hy⟩ := Finset.mem_biUnion.mp hy
      obtain ⟨hy, hyc⟩ := mem_below.mp hy
      exact mem_below.mpr ⟨hy, hyc.trans (.step (hcs c hc) (.refl x))⟩
    · have hself : x ∈ below par dom x := mem_below.mpr ⟨hx, .refl x⟩
      rw [← he] at hself
      obtain ⟨c, hc, hxc⟩ := Finset.mem_biUnion.mp hself
      exact h.not_above (hcs c hc) (mem_below.mp hxc).2
  · intro c hc c' hc' hne
    rw [Function.onFun, Finset.disjoint_left]
    intro y hy hy'
    exact hne (h.sibling_eq (hcs c hc) (hcs c' hc') (mem_below.mp hy).2 (mem_below.mp hy').2)

/-- A parent has less above it. -/
theorem card_above_lt (h : Acyclic par) (hx : x ∈ dom) (hp : par x = some p) :
    (above par dom p).card < (above par dom x).card := by
  refine Finset.card_lt_card (Finset.ssubset_iff_subset_ne.mpr ⟨fun y hy => ?_, fun he => ?_⟩)
  · obtain ⟨hy, hyp⟩ := mem_above.mp hy
    exact mem_above.mpr ⟨hy, .step hp hyp⟩
  · have hself : x ∈ above par dom x := mem_above.mpr ⟨hx, .refl x⟩
    rw [← he] at hself
    exact h.not_above hp (mem_above.mp hself).2

theorem card_above_le (x : α) : (above par dom x).card ≤ dom.card := by
  classical
  exact Finset.card_filter_le _ _

theorem card_below_le (x : α) : (below par dom x).card ≤ dom.card := by
  classical
  exact Finset.card_filter_le _ _

end Counting

end CephMds.Ancestry
