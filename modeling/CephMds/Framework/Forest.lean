import Mathlib.Data.Finset.Basic
import Mathlib.Logic.Function.Basic
import Mathlib.Tactic.Common

/-!
# Forests of parent pointers

A forest (`Forest`) is a parent function with a depth that decreases towards
the roots, so that every climb ends. `Forest.nearest m d` is the first node
at or above `d` that `m` marks, and `Forest.above m d` the first one strictly
above it. What changes when a node is marked (`nearest_mark`) and when the
parent of a set of siblings is replaced (`nearest_reparent`) is stated as a
choice between the old answer and a single new one, which is all that the
users of the two notions need.
-/

namespace CephMds

/-- Parent pointers without cycles. -/
structure Forest (α : Type*) where
  parent : α → Option α
  depth : α → ℕ
  depth_lt {d q : α} : parent d = some q → depth q < depth d

/-- The first node that `m` marks among `d` and the next `n - 1` nodes above it. -/
def climb {α : Type*} (parent : α → Option α) (m : α → Bool) : ℕ → α → Option α
  | 0, _ => none
  | n + 1, d => if m d then some d else (parent d).bind (climb parent m n)

namespace Forest

variable {α : Type*} (F : Forest α)

/-- The first marked node at or above `d`. -/
def nearest (m : α → Bool) (d : α) : Option α := climb F.parent m (F.depth d + 1) d

/-- The first marked node strictly above `d`. -/
def above (m : α → Bool) (d : α) : Option α := (F.parent d).bind (F.nearest m)

/-- Induction from the roots down. -/
theorem downward {P : α → Prop} (h : ∀ d, (∀ q, F.parent d = some q → P q) → P d) (d : α) :
    P d := by
  induction hn : F.depth d using Nat.strong_induction_on generalizing d with
  | _ n ih =>
    subst hn
    exact h d fun q hq => ih _ (F.depth_lt hq) q rfl

theorem climb_fuel {m : α → Bool} {d : α} {n k : ℕ} (hn : F.depth d < n) (hk : F.depth d < k) :
    climb F.parent m n d = climb F.parent m k d := by
  induction n generalizing d k with
  | zero => omega
  | succ n ih =>
    obtain ⟨k, rfl⟩ : ∃ j, k = j + 1 := ⟨k - 1, by omega⟩
    simp only [climb]
    split
    · rfl
    · cases hp : F.parent d with
      | none => rfl
      | some q =>
        have hq := F.depth_lt hp
        exact ih (by omega) (by omega)

/-- One step of the climb. -/
theorem nearest_eq (m : α → Bool) (d : α) :
    F.nearest m d = if m d then some d else F.above m d := by
  simp only [nearest, climb, above]
  split
  · rfl
  · cases hp : F.parent d with
    | none => rfl
    | some q => exact F.climb_fuel (F.depth_lt hp) (by omega)

theorem nearest_of_marked {m : α → Bool} {d : α} (h : m d = true) : F.nearest m d = some d := by
  rw [nearest_eq, if_pos h]

theorem nearest_of_not {m : α → Bool} {d : α} (h : m d = false) :
    F.nearest m d = F.above m d := by
  rw [nearest_eq, if_neg (by simp [h])]

theorem above_of_parent {m : α → Bool} {d q : α} (h : F.parent d = some q) :
    F.above m d = F.nearest m q := by
  simp [above, h]

theorem above_eq_some {m : α → Bool} {d r : α} :
    F.above m d = some r ↔ ∃ q, F.parent d = some q ∧ F.nearest m q = some r := by
  simp [above, Option.bind_eq_some_iff]

/-- A climb for a node with `m` that stops at the nodes with `r`. -/
theorem any_nearest_or (m r : α → Bool) (d : α) : (F.nearest (fun x => m x || r x) d).any m =
    (m d || !r d && (F.parent d).any fun q => (F.nearest (fun x => m x || r x) q).any m) := by
  rw [nearest_eq]
  cases hm : m d with
  | true => simp [hm]
  | false =>
    cases hr : r d with
    | true => simp [hm]
    | false => cases hp : F.parent d <;> simp [above, hp]

theorem nearest_marked {m : α → Bool} {d r : α} (h : F.nearest m d = some r) : m r = true := by
  induction d using F.downward with
  | _ d ih =>
    rw [nearest_eq] at h
    split at h
    · cases h; assumption
    · obtain ⟨q, hq, hr⟩ := F.above_eq_some.mp h
      exact ih q hq hr

theorem nearest_depth {m : α → Bool} {d r : α} (h : F.nearest m d = some r) :
    F.depth r ≤ F.depth d := by
  induction d using F.downward with
  | _ d ih =>
    rw [nearest_eq] at h
    split at h
    · cases h; exact le_rfl
    · obtain ⟨q, hq, hr⟩ := F.above_eq_some.mp h
      exact (ih q hq hr).trans (F.depth_lt hq).le

theorem above_marked {m : α → Bool} {d r : α} (h : F.above m d = some r) : m r = true := by
  obtain ⟨q, -, hr⟩ := F.above_eq_some.mp h
  exact F.nearest_marked hr

theorem above_depth {m : α → Bool} {d r : α} (h : F.above m d = some r) :
    F.depth r < F.depth d := by
  obtain ⟨q, hq, hr⟩ := F.above_eq_some.mp h
  exact (F.nearest_depth hr).trans_lt (F.depth_lt hq)

theorem above_ne {m : α → Bool} {d r : α} (h : F.above m d = some r) : r ≠ d := by
  rintro rfl
  exact absurd (F.above_depth h) (lt_irrefl _)

/-- A climb reads the marks of nodes no deeper than its start. -/
theorem nearest_congr {m m' : α → Bool} {d : α}
    (h : ∀ x, F.depth x ≤ F.depth d → m x = m' x) : F.nearest m d = F.nearest m' d := by
  induction d using F.downward with
  | _ d ih =>
    rw [nearest_eq, nearest_eq, h d le_rfl]
    simp only [above]
    cases hp : F.parent d with
    | none => rfl
    | some q =>
      simp only [Option.bind_some]
      rw [ih q hp fun x hx => h x (hx.trans (F.depth_lt hp).le)]

/-! ## Climbs that avoid some nodes -/

theorem nearest_eq_none {p : α → Bool} {d : α} :
    F.nearest p d = none ↔ p d = false ∧ ∀ q, F.parent d = some q → F.nearest p q = none := by
  rw [nearest_eq]
  cases hp : p d with
  | true => simp
  | false => cases hq : F.parent d <;> simp [above, hq]

/-- A climb that avoids `p` meets no node in `p`. -/
theorem not_of_avoids {p m : α → Bool} {d r : α} (h : F.nearest p d = none) (hr : F.nearest m d = some r) :
    p r = false := by
  induction d using F.downward with
  | _ d ih =>
    obtain ⟨hd, hup⟩ := F.nearest_eq_none.mp h
    rw [nearest_eq] at hr
    split at hr
    · cases hr
      exact hd
    · obtain ⟨q, hq, hr⟩ := F.above_eq_some.mp hr
      exact ih q hq (hup q hq) hr

/-- It is the same in a forest that differs from this one in `p` only. -/
theorem nearest_avoids {F' : Forest α} {p m m' : α → Bool} {d : α}
    (hp : ∀ x, p x = false → F'.parent x = F.parent x) (hm : ∀ x, p x = false → m' x = m x)
    (h : F.nearest p d = none) : F'.nearest m' d = F.nearest m d := by
  induction d using F.downward with
  | _ d ih =>
    obtain ⟨hd, hup⟩ := F.nearest_eq_none.mp h
    rw [nearest_eq, nearest_eq, hm d hd, above, above, hp d hd]
    cases hq : F.parent d with
    | none => rfl
    | some q =>
      simp only [Option.bind_some]
      rw [ih q hq (hup q hq)]

/-- The nodes strictly above `d` do not depend on the mark of `d`. -/
theorem above_congr {m m' : α → Bool} {d : α} (h : ∀ x, x ≠ d → m x = m' x) :
    F.above m d = F.above m' d := by
  simp only [above]
  cases hp : F.parent d with
  | none => rfl
  | some q =>
    refine F.nearest_congr fun x hx => h x ?_
    rintro rfl
    exact absurd (F.depth_lt hp) (by omega)

/-- Marking `v` changes a climb only by stopping it at `v`, and only a climb
that ended at the marked node above `v` before. -/
theorem nearest_mark {m m' : α → Bool} {v : α} (hv : m v = false) (hv' : m' v = true)
    (h : ∀ x, x ≠ v → m' x = m x) (d : α) :
    F.nearest m' d = F.nearest m d ∨
      F.nearest m' d = some v ∧ F.nearest m d = F.above m v := by
  induction d using F.downward with
  | _ d ih =>
    by_cases hd : d = v
    · subst hd
      exact .inr ⟨F.nearest_of_marked hv', F.nearest_of_not hv⟩
    · rw [nearest_eq, nearest_eq _ m, h d hd]
      split
      · exact .inl rfl
      · simp only [above]
        cases hp : F.parent d with
        | none => exact .inl rfl
        | some q => exact ih q hp

/-- `nearest_mark`, for the marked node strictly above. -/
theorem above_mark {m m' : α → Bool} {v : α} (hv : m v = false) (hv' : m' v = true)
    (h : ∀ x, x ≠ v → m' x = m x) (d : α) :
    F.above m' d = F.above m d ∨ F.above m' d = some v ∧ F.above m d = F.above m v := by
  cases hp : F.parent d with
  | none => exact .inl (by simp [above, hp])
  | some q =>
    rw [F.above_of_parent hp, F.above_of_parent (m := m) hp]
    exact F.nearest_mark hv hv' h q

section Region

variable [DecidableEq α] {F} {d x q b : α} {B : Finset α}

/-- The nodes at or below `d` that are not at or below one of `B`. -/
def Region (F : Forest α) (d : α) (B : Finset α) (x : α) : Prop :=
  F.nearest (fun y => y = d ∨ y ∈ B) x = some d

theorem region_self : F.Region d B d := F.nearest_of_marked (by simp)

theorem Region.parent (h : F.Region d B x) (hx : x ≠ d) :
    x ∉ B ∧ ∃ q, F.parent x = some q ∧ F.Region d B q := by
  have hB : x ∉ B := fun hB => by
    rw [Region, F.nearest_of_marked (by simp [hB]), Option.some.injEq] at h
    exact hx h
  rw [Region, F.nearest_of_not (by simp [hx, hB]), above_eq_some] at h
  exact ⟨hB, h⟩

theorem Region.depth_le (h : F.Region d B x) : F.depth d ≤ F.depth x := F.nearest_depth h

theorem Region.child (h : F.Region d B q) (hq : F.parent x = some q) (hx : x ∉ B) :
    F.Region d B x := by
  have hd : x ≠ d := by
    rintro rfl
    have := F.depth_lt hq
    have := h.depth_le
    omega
  rw [Region, F.nearest_of_not (by simp [hd, hx]), F.above_of_parent hq]
  exact h

/-- A node directly below `d` among `B`. -/
theorem region_above (h : F.above (fun y => y = d ∨ y ∈ B) b = some d) :
    ∃ q, F.parent b = some q ∧ F.Region d B q :=
  F.above_eq_some.mp h

theorem Region.disjoint (h : F.Region d B x) (hb : F.above (fun y => y = d ∨ y ∈ B) b = some d)
    (hB : b ∈ B) : x ≠ b := by
  rintro rfl
  exact (h.parent (F.above_ne hb).symm).1 hB

/-- The nearest marked node of a region with a marked top is in the region. -/
theorem Region.nearest {m : α → Bool} (h : F.Region d B x) (hd : m d = true) :
    ∃ r, F.nearest m x = some r ∧ F.Region d B r := by
  induction x using F.downward with
  | _ x ih =>
    by_cases hm : m x = true
    · exact ⟨x, F.nearest_of_marked hm, h⟩
    · have hx : x ≠ d := fun e => hm (e ▸ hd)
      obtain ⟨-, q, hq, hR⟩ := h.parent hx
      rw [F.nearest_of_not (by simpa using hm), F.above_of_parent hq]
      exact ih q hq hR

end Region

section Reparent

variable {F} {F' : Forest α} {D : α → Prop} {o n : α}

/-- Moving the siblings `D` from below `o` to below `n` changes a climb only
if it passes an unmarked one of them: it then continues from `n` instead of
`o`. -/
theorem nearest_reparent (hD : ∀ d, D d → F.parent d = some o ∧ F'.parent d = some n)
    (hN : ∀ d, ¬ D d → F'.parent d = F.parent d) (m : α → Bool) (x : α) :
    F'.nearest m x = F.nearest m x ∨ ∃ d, D d ∧ m d = false ∧
      F.nearest m x = F.nearest m o ∧ F'.nearest m x = F'.nearest m n := by
  induction x using F.downward with
  | _ x ih =>
    by_cases hm : m x = true
    · rw [F.nearest_of_marked hm, F'.nearest_of_marked hm]
      exact .inl rfl
    rw [Bool.not_eq_true] at hm
    by_cases hx : D x
    · obtain ⟨ho, hn⟩ := hD x hx
      refine .inr ⟨x, hx, hm, ?_, ?_⟩
      · rw [F.nearest_of_not hm, F.above_of_parent ho]
      · rw [F'.nearest_of_not hm, F'.above_of_parent hn]
    · rw [F.nearest_of_not hm, F'.nearest_of_not hm]
      simp only [above, hN x hx]
      cases hp : F.parent x with
      | none => exact .inl rfl
      | some q => exact ih q hp

/-- A climb from no deeper than the old parent never passes the moved siblings. -/
theorem nearest_reparent_old (hD : ∀ d, D d → F.parent d = some o)
    (hN : ∀ d, ¬ D d → F'.parent d = F.parent d) (m : α → Bool) :
    F'.nearest m o = F.nearest m o := by
  suffices ∀ x, F.depth x ≤ F.depth o → F'.nearest m x = F.nearest m x from this o le_rfl
  intro x
  induction x using F.downward with
  | _ x ih =>
    intro hx
    have hn : ¬ D x := fun h => absurd (F.depth_lt (hD x h)) (by omega)
    rw [nearest_eq, nearest_eq]
    simp only [above, hN x hn]
    cases hp : F.parent x with
    | none => rfl
    | some q =>
      simp only [Option.bind_some]
      rw [ih q hp ((F.depth_lt hp).le.trans hx)]

end Reparent

section Replace

variable {F F' : Forest α} {S N : α → Prop} {o : Option α}

/-- The siblings `S` below `o` are replaced by the new siblings `N`, and each
child of one of `S` becomes a child of one of `N`. -/
structure Replaces (F F' : Forest α) (S N : α → Prop) (o : Option α) : Prop where
  old {s : α} : S s → F.parent s = o
  new {f : α} : N f → F'.parent f = o
  child {x s : α} : ¬ S x → ¬ N x → F.parent x = some s → S s → ∃ f, N f ∧ F'.parent x = some f
  other {x q : α} : ¬ S x → ¬ N x → F.parent x = some q → ¬ S q → F'.parent x = some q
  top {x : α} : ¬ S x → ¬ N x → F.parent x = none → F'.parent x = none
  fresh {x f : α} : N f → F.parent x ≠ some f

/-- The marks agree elsewhere, and either all of `S` and `N` are marked or none is. -/
structure Remarks (S N : α → Prop) (m m' : α → Bool) (k : Bool) : Prop where
  old {s : α} : S s → m s = k
  new {f : α} : N f → m' f = k
  other {x : α} : ¬ S x → ¬ N x → m' x = m x

/-- Two answers of a climb correspond: they are the same, or a node of `S` and
one of `N`. -/
def Matches (S N : α → Prop) (u v : Option α) : Prop :=
  u = v ∧ (∀ r, u = some r → ¬ S r) ∨ ∃ s f, S s ∧ N f ∧ u = some s ∧ v = some f

namespace Replaces

variable (h : Replaces F F' S N o) {m m' : α → Bool} {k : Bool} (hm : Remarks S N m m' k)
include h

/-- The siblings are not above their own parent. -/
theorem not_old {s q : α} (hs : S s) (hq : F.parent s = some q) : ¬ S q := fun hS => by
  have h₁ := h.old hS
  rw [← h.old hs, hq] at h₁
  exact absurd (F.depth_lt h₁) (lt_irrefl _)

include hm in
theorem nearest (x : α) : (¬ S x → ¬ N x → Matches S N (F.nearest m x) (F'.nearest m' x)) ∧
    (S x → ∀ f, N f → Matches S N (F.nearest m x) (F'.nearest m' f)) := by
  induction x using F.downward with
  | _ x ih =>
    refine ⟨fun hS hN => ?_, fun hS f hf => ?_⟩
    · by_cases hx : m x = true
      · rw [F.nearest_of_marked hx, F'.nearest_of_marked ((hm.other hS hN).trans hx)]
        exact .inl ⟨rfl, fun r hr => Option.some.inj hr ▸ hS⟩
      · rw [Bool.not_eq_true] at hx
        rw [F.nearest_of_not hx, F'.nearest_of_not ((hm.other hS hN).trans hx)]
        cases hq : F.parent x with
        | none => simp [Forest.above, hq, h.top hS hN hq, Matches]
        | some q =>
          rw [F.above_of_parent hq]
          by_cases hSq : S q
          · obtain ⟨f, hf, hf'⟩ := h.child hS hN hq hSq
            rw [F'.above_of_parent hf']
            exact (ih q hq).2 hSq f hf
          · rw [F'.above_of_parent (h.other hS hN hq hSq)]
            exact (ih q hq).1 hSq fun hNq => h.fresh hNq hq
    · cases k with
      | true =>
        rw [F.nearest_of_marked (hm.old hS), F'.nearest_of_marked (hm.new hf)]
        exact .inr ⟨x, f, hS, hf, rfl, rfl⟩
      | false =>
        rw [F.nearest_of_not (hm.old hS), F'.nearest_of_not (hm.new hf)]
        have ho := h.old hS
        have hn := h.new hf
        cases o with
        | none => simp [Forest.above, ho, hn, Matches]
        | some q =>
          rw [F.above_of_parent ho, F'.above_of_parent hn]
          exact (ih q ho).1 (h.not_old hS ho) fun hNq => h.fresh hNq ho

include hm in
theorem above {x : α} (hS : ¬ S x) (hN : ¬ N x) :
    Matches S N (F.above m x) (F'.above m' x) := by
  cases hq : F.parent x with
  | none => simp [Forest.above, hq, h.top hS hN hq, Matches]
  | some q =>
    rw [F.above_of_parent hq]
    by_cases hSq : S q
    · obtain ⟨f, hf, hf'⟩ := h.child hS hN hq hSq
      rw [F'.above_of_parent hf']
      exact (h.nearest hm q).2 hSq f hf
    · rw [F'.above_of_parent (h.other hS hN hq hSq)]
      exact (h.nearest hm q).1 hSq fun hNq => h.fresh hNq hq

include hm in
/-- The new siblings are below the same marked node as the old ones. -/
theorem above_new {s f : α} (hs : S s) (hf : N f) : F'.above m' f = F.above m s := by
  have ho := h.old hs
  have hn := h.new hf
  cases o with
  | none => simp [Forest.above, ho, hn]
  | some q =>
    rw [F.above_of_parent ho, F'.above_of_parent hn]
    rcases (h.nearest hm q).1 (h.not_old hs ho) (fun hNq => h.fresh hNq ho) with
      ⟨he, -⟩ | ⟨s', -, hs', -, hu, -⟩
    · exact he.symm
    · have h₁ := F.nearest_depth hu
      have h₂ := F.depth_lt (h.old hs')
      omega

end Replaces

/-- Nodes whose children are removed with them can be removed. -/
theorem nearest_remove {m m' : α → Bool} (hp : ∀ x, ¬ S x → F'.parent x = F.parent x)
    (hm : ∀ x, ¬ S x → m' x = m x) (hS : ∀ x s, ¬ S x → S s → F.parent x ≠ some s) {x : α} (hx : ¬ S x) :
    F'.nearest m' x = F.nearest m x := by
  induction x using F.downward with
  | _ x ih =>
    rw [nearest_eq, nearest_eq, hm x hx]
    simp only [above, hp x hx]
    cases hq : F.parent x with
    | none => rfl
    | some q =>
      simp only [Option.bind_some]
      rw [ih q hq fun hs => hS x q hx hs hq]

theorem above_remove {m m' : α → Bool} (hp : ∀ x, ¬ S x → F'.parent x = F.parent x)
    (hm : ∀ x, ¬ S x → m' x = m x) (hS : ∀ x s, ¬ S x → S s → F.parent x ≠ some s) {x : α} (hx : ¬ S x) :
    F'.above m' x = F.above m x := by
  simp only [above, hp x hx]
  cases hq : F.parent x with
  | none => rfl
  | some q => exact nearest_remove hp hm hS fun hs => hS x q hx hs hq

end Replace

end Forest

end CephMds
