import CephMds.Framework.Ancestry
import CephMds.Proof.Subtree.SubtreeMap
import Mathlib

/-!
# The normal form of the journaled subtree map

In a map that is well nested (`Nested`) the bounds of a subtree are below it,
none below another, and each is listed once in the whole map. Swallowing a bound
that is a subtree leaves the map so, and leaves what it covers
(`Nested.swallow`). The loop of one subtree ends with bounds that cannot be
swallowed (`swallowBounds_normal`), and since subtrees only go away after
that, they stay so while the others are simplified.
-/

namespace CephMds

open Checked Ancestry

/-! ## Regions by ancestors -/

namespace Forest

variable {α : Type} {F : Forest α} {b d x y z : α}

theorem above_depth_le (h : Above F.parent x y) : F.depth y ≤ F.depth x := by
  induction h with
  | refl => exact le_rfl
  | tail _ hy ih => exact (F.depth_lt hy).le.trans ih

theorem above_antisymm (h : Above F.parent x y) (h' : Above F.parent y x) : x = y := by
  rcases above_cases h with rfl | ⟨p, hp, hy⟩
  · rfl
  · have := F.depth_lt hp
    have := above_depth_le hy
    have := above_depth_le h'
    omega

/-- Two nodes above a third. -/
theorem above_total (h : Above F.parent x y) (h' : Above F.parent x z) : Above F.parent y z ∨ Above F.parent z y :=
  Relation.ReflTransGen.total_of_right_unique (fun _ _ _ hb hc => Option.some.inj (hb.symm.trans hc)) h h'

theorem region_iff [DecidableEq α] {B : Finset α} (hB : ∀ b ∈ B, b ≠ d ∧ Above F.parent b d) :
    F.Region d B x ↔ Above F.parent x d ∧ ∀ b ∈ B, ¬ Above F.parent x b := by
  induction x using F.downward with
  | h x ih =>
    by_cases hxd : x = d
    · subst hxd
      refine iff_of_true F.region_self ⟨.refl _, fun b hb hxb => ?_⟩
      exact (hB b hb).1 (above_antisymm (hB b hb).2 hxb)
    · by_cases hxB : x ∈ B
      · refine iff_of_false (fun h => (h.parent hxd).1 hxB) fun h => h.2 x hxB (.refl x)
      · cases hp : F.parent x with
        | none =>
          refine iff_of_false (fun h => ?_) fun h => hxd ((above_iff_of_root hp).mp h.1)
          obtain ⟨q, hq, -⟩ := (h.parent hxd).2
          rw [hp] at hq
          cases hq
        | some q =>
          have hreg : F.Region d B x ↔ F.Region d B q := by
            refine ⟨fun h => ?_, fun h => h.child hp hxB⟩
            obtain ⟨q', hq', h⟩ := (h.parent hxd).2
            rwa [← Option.some.inj (hp.symm.trans hq')] at h
          rw [hreg, ih q hp, above_iff_of_parent hp]
          refine and_congr ⟨.inr, fun h => h.resolve_left hxd⟩ (forall₂_congr fun b hb => ?_)
          rw [above_iff_of_parent hp]
          exact not_congr ⟨.inr, fun h => h.resolve_left fun e => hxB (e ▸ hb)⟩

end Forest

namespace SubtreeMap

variable {α : Type} [DecidableEq α] {F : Forest α} {le le' : SubtreeMap α} {b p r x : α} {l bb done rest : List α}

/-! ## Well nested maps -/

/-- The bounds of a subtree are below it and none is below another; each is
listed once. -/
structure Nested (F : Forest α) (le : SubtreeMap α) : Prop where
  below {r b : α} {l : List α} : le.subtrees r = some l → b ∈ l → b ≠ r ∧ Above F.parent b r
  apart {r b b' : α} {l : List α} : le.subtrees r = some l → b ∈ l → b' ∈ l → b ≠ b' → ¬ Above F.parent b b'
  once {r r' b : α} {l l' : List α} : le.subtrees r = some l → le.subtrees r' = some l' → b ∈ l → b ∈ l' → r = r'
  nodup {r : α} {l : List α} : le.subtrees r = some l → l.Nodup

theorem Nested.region_iff (h : Nested F le) (hl : le.subtrees r = some l) :
    F.Region r l.toFinset x ↔ Above F.parent x r ∧ ∀ b ∈ l, ¬ Above F.parent x b := by
  rw [Forest.region_iff fun b hb => h.below hl (List.mem_toFinset.mp hb)]
  simp only [List.mem_toFinset]

theorem Nested.covers_iff (h : Nested F le) : Covers F le x ↔
    ∃ r l, le.subtrees r = some l ∧ Above F.parent x r ∧ ∀ b ∈ l, ¬ Above F.parent x b := by
  unfold Covers
  refine exists₂_congr fun r l => and_congr_right fun hl => h.region_iff hl

/-! ## Swallowing a bound -/

theorem set_self : (le.set p l).subtrees p = some l := by
  rw [set_subtrees, if_pos rfl]

omit [DecidableEq α] in
theorem mem_rest {y : α} (hy : y ∈ done ++ rest) : y ∈ done ++ b :: rest := by
  rcases List.mem_append.mp hy with hy | hy
  · exact List.mem_append_left _ hy
  · exact List.mem_append_right _ (List.mem_cons_of_mem b hy)

omit [DecidableEq α] in
/-- The bounds of `p` when it has swallowed `b`. -/
theorem mem_swallow {y : α} : y ∈ done ++ (rest ++ bb) ↔ y ∈ done ++ rest ∨ y ∈ bb := by
  rw [← List.append_assoc, List.mem_append]

theorem swallow_subtrees (hr : r ≠ p) : ((le.erase b).set p (done ++ (rest ++ bb))).subtrees r =
    if r = b then none else (le.set p (done ++ b :: rest)).subtrees r := by
  rw [set_subtrees, if_neg hr, erase_subtrees, set_subtrees, if_neg hr]

section Swallow

variable (h : Nested F (le.set p (done ++ b :: rest)))
include h

theorem Nested.bound_below : b ≠ p ∧ Above F.parent b p := h.below set_self (by simp)

theorem Nested.not_mem_rest : b ∉ done ++ rest := by
  have hnd := h.nodup set_self
  rw [List.nodup_middle] at hnd
  exact (List.nodup_cons.mp hnd).1

variable (hb : le.subtrees b = some bb)
include hb

theorem Nested.set_bound : (le.set p (done ++ b :: rest)).subtrees b = some bb := by
  rw [set_subtrees, if_neg h.bound_below.1, hb]

theorem Nested.not_mem_bb {y : α} (hy : y ∈ bb) : y ∉ done ++ b :: rest := fun hm =>
  h.bound_below.1 (h.once (h.set_bound hb) set_self hy hm)

/-- The bounds of `b` and the others are apart. -/
theorem Nested.apart_bb {y z : α} (hy : y ∈ done ++ rest) (hz : z ∈ bb) :
    ¬ Above F.parent y z ∧ ¬ Above F.parent z y := by
  have hyb : y ≠ b := fun e => h.not_mem_rest (e ▸ hy)
  have hzb := (h.below (h.set_bound hb) hz).2
  have hmem : b ∈ done ++ b :: rest := by simp
  constructor
  · intro hyz
    exact h.apart set_self (mem_rest hy) hmem hyb (hyz.trans hzb)
  · intro hzy
    rcases Forest.above_total hzy hzb with hc | hc
    · exact h.apart set_self (mem_rest hy) hmem hyb hc
    · exact h.apart set_self hmem (mem_rest hy) hyb.symm hc

theorem Nested.swallow : Nested F ((le.erase b).set p (done ++ (rest ++ bb))) := by
  have hbelow := h.bound_below
  have hbb := h.set_bound hb
  have hold : ∀ r l, r ≠ p → ((le.erase b).set p (done ++ (rest ++ bb))).subtrees r = some l →
      r ≠ b ∧ (le.set p (done ++ b :: rest)).subtrees r = some l := by
    intro r l hr hl
    rw [swallow_subtrees hr] at hl
    split at hl
    · cases hl
    · exact ⟨‹_›, hl⟩
  have hp : ∀ l, ((le.erase b).set p (done ++ (rest ++ bb))).subtrees p = some l → l = done ++ (rest ++ bb) :=
    fun l hl => Option.some.inj (hl.symm.trans set_self)
  constructor
  · intro r y l hl hy
    by_cases hr : r = p
    · subst hr
      rw [hp l hl] at hy
      rcases mem_swallow.mp hy with hy | hy
      · exact h.below set_self (mem_rest hy)
      · obtain ⟨hyb, habove⟩ := h.below hbb hy
        refine ⟨fun e => hyb ?_, habove.trans hbelow.2⟩
        exact Forest.above_antisymm habove (e ▸ hbelow.2)
    · exact h.below (hold r l hr hl).2 hy
  · intro r y z l hl hy hz hyz
    by_cases hr : r = p
    · subst hr
      rw [hp l hl] at hy hz
      rcases mem_swallow.mp hy with hy | hy <;> rcases mem_swallow.mp hz with hz | hz
      · exact h.apart set_self (mem_rest hy) (mem_rest hz) hyz
      · exact (h.apart_bb hb hy hz).1
      · exact (h.apart_bb hb hz hy).2
      · exact h.apart hbb hy hz hyz
    · exact h.apart (hold r l hr hl).2 hy hz hyz
  · intro r r' y l l' hl hl' hy hy'
    -- A bound of `p` that is a bound of another subtree was one of `p` or of `b` before.
    have hother : ∀ r' l', r' ≠ p → ((le.erase b).set p (done ++ (rest ++ bb))).subtrees r' = some l' → y ∈ l' →
        y ∉ done ++ (rest ++ bb) := by
      intro r' l' hr' hl' hy' hm
      obtain ⟨hrb, hl'⟩ := hold r' l' hr' hl'
      rcases mem_swallow.mp hm with hm | hm
      · exact hr' (h.once hl' set_self hy' (mem_rest hm))
      · exact hrb (h.once hl' hbb hy' hm)
    by_cases hr : r = p <;> by_cases hr' : r' = p
    · rw [hr, hr']
    · subst hr
      exact absurd (hp l hl ▸ hy) (hother r' l' hr' hl' hy')
    · subst hr'
      exact absurd (hp l' hl' ▸ hy') (hother r l hr hl hy)
    · exact h.once (hold r l hr hl).2 (hold r' l' hr' hl').2 hy hy'
  · intro r l hl
    by_cases hr : r = p
    · subst hr
      rw [hp l hl, ← List.append_assoc, List.nodup_append]
      have hnd := h.nodup set_self
      rw [List.nodup_middle] at hnd
      refine ⟨(List.nodup_cons.mp hnd).2, h.nodup hbb, ?_⟩
      rintro y hy z hz rfl
      exact h.not_mem_bb hb hz (mem_rest hy)
    · exact h.nodup (hold r l hr hl).2

/-- The map covers what it did. -/
theorem Nested.swallow_covers :
    Covers F ((le.erase b).set p (done ++ (rest ++ bb))) x ↔ Covers F (le.set p (done ++ b :: rest)) x := by
  have hbelow := h.bound_below
  have hbb := h.set_bound hb
  rw [(h.swallow hb).covers_iff, h.covers_iff]
  constructor
  · rintro ⟨r, l, hl, hx, hn⟩
    by_cases hr : r = p
    · subst hr
      obtain rfl : l = done ++ (rest ++ bb) := Option.some.inj (hl.symm.trans set_self)
      by_cases hxb : Above F.parent x b
      · exact ⟨b, bb, hbb, hxb, fun y hy => hn y (mem_swallow.mpr (.inr hy))⟩
      · refine ⟨r, _, set_self, hx, fun y hy => ?_⟩
        rw [List.mem_append, List.mem_cons, or_left_comm, ← List.mem_append] at hy
        rcases hy with rfl | hy
        · exact hxb
        · exact hn y (mem_swallow.mpr (.inl hy))
    · rw [swallow_subtrees hr] at hl
      split at hl
      · cases hl
      · exact ⟨r, l, hl, hx, hn⟩
  · rintro ⟨r, l, hl, hx, hn⟩
    by_cases hr : r = p
    · subst hr
      obtain rfl : l = done ++ b :: rest := Option.some.inj (hl.symm.trans set_self)
      refine ⟨r, _, set_self, hx, fun y hy hxy => ?_⟩
      rcases mem_swallow.mp hy with hy | hy
      · exact hn y (mem_rest hy) hxy
      · exact hn b (by simp) (hxy.trans (h.below hbb hy).2)
    · by_cases hrb : r = b
      · subst hrb
        obtain rfl : l = bb := Option.some.inj (hl.symm.trans hbb)
        refine ⟨p, _, set_self, hx.trans hbelow.2, fun y hy hxy => ?_⟩
        rcases mem_swallow.mp hy with hy | hy
        · -- `y` and `r` are both above `x`, and are bounds of `p`.
          have hyr : y ≠ r := fun e => h.not_mem_rest (e ▸ hy)
          have hmem : r ∈ done ++ r :: rest := by simp
          rcases Forest.above_total hxy hx with hc | hc
          · exact h.apart set_self (mem_rest hy) hmem hyr hc
          · exact h.apart set_self hmem (mem_rest hy) hyr.symm hc
        · exact hn y hy hxy
      · refine ⟨r, l, ?_, hx, hn⟩
        rw [swallow_subtrees hr, if_neg hrb, hl]

end Swallow

/-! ## The loop of one subtree -/

/-- The bound is not a subtree that would be swallowed. -/
def Stays (le : SubtreeMap α) (b : α) : Prop := (le.subtrees b).isSome → le.ambiguousSubtrees b = true

/-- No unambiguous subtree has an unambiguous one among its bounds. -/
def Normal (le : SubtreeMap α) (r : α) : Prop :=
  ∀ l, le.subtrees r = some l → le.ambiguousSubtrees r = false → ∀ b ∈ l, le.Stays b

/-- Subtrees may be gone; the ambiguous ones are as they were. -/
structure Shrinks (le le' : SubtreeMap α) (p : α) : Prop where
  ambiguous : le'.ambiguousSubtrees = le.ambiguousSubtrees
  subtrees {r : α} : r ≠ p → le'.subtrees r = none ∧ le.ambiguousSubtrees r = false ∨ le'.subtrees r = le.subtrees r

omit [DecidableEq α] in
theorem Shrinks.trans {le₁ : SubtreeMap α} (h : Shrinks le le₁ p) (h' : Shrinks le₁ le' p) : Shrinks le le' p := by
  refine ⟨h'.ambiguous.trans h.ambiguous, fun {r} hr => ?_⟩
  rcases h'.subtrees hr with ⟨hn, ha⟩ | he
  · exact .inl ⟨hn, h.ambiguous ▸ ha⟩
  · rw [he]
    exact h.subtrees hr

omit [DecidableEq α] in
theorem Shrinks.stays (h : Shrinks le le' p) (hb : b ≠ p) (hs : le.Stays b) : le'.Stays b := by
  intro hk
  rw [h.ambiguous]
  rcases h.subtrees hb with ⟨hn, -⟩ | he
  · rw [hn] at hk
    cases hk
  · exact hs (he ▸ hk)

/-- `U` has what is still to be looked at, so that it bounds the iterations. -/
theorem Nested.swallowBounds {n : ℕ} {U : Finset α} (h : Nested F (le.set p (done ++ rest)))
    (hdone : ∀ b ∈ done, le.Stays b) (hrest : ∀ b ∈ rest, b ∈ U)
    (hU : ∀ r l, r ≠ p → le.subtrees r = some l → ∀ b ∈ l, b ∈ U) (hn : U.card < n) :
    ∃ le' l, le.swallowBounds p n done rest = .ok le' ∧ Nested F le' ∧ Shrinks le le' p ∧ le'.subtrees p = some l ∧
      (∀ b ∈ l, le'.Stays b) ∧ (∀ b ∈ l, b ∈ done ∨ b ∈ U) ∧
      ∀ x, Covers F le' x ↔ Covers F (le.set p (done ++ rest)) x := by
  induction n generalizing le done rest U with
  | zero => omega
  | succ n ih =>
    cases rest with
    | nil =>
      rw [List.append_nil] at h ⊢
      refine ⟨_, done, rfl, h, ⟨rfl, fun hr => .inr ?_⟩, set_self, fun b hb hk => ?_, fun b hb => .inl hb, fun _ => Iff.rfl⟩
      · rw [set_subtrees, if_neg hr]
      · refine hdone b hb ?_
        rwa [set_subtrees, if_neg (h.below set_self hb).1] at hk
    | cons b rest =>
      have hbU : b ∈ U := hrest b List.mem_cons_self
      have hcard : (U.erase b).card < n := by
        have := Finset.card_erase_lt_of_mem hbU
        omega
      have hbelow := h.bound_below
      have hrest' : ∀ y ∈ rest, y ∈ U.erase b := fun y hy =>
        Finset.mem_erase.mpr ⟨fun e => h.not_mem_rest (e ▸ List.mem_append_right _ hy), hrest y (List.mem_cons_of_mem b hy)⟩
      have hother : ∀ r l, r ≠ p → le.subtrees r = some l → ∀ y ∈ l, y ∈ U.erase b := by
        intro r l hr hl y hy
        refine Finset.mem_erase.mpr ⟨?_, hU r l hr hl y hy⟩
        rintro rfl
        refine hr (h.once ?_ set_self hy (by simp))
        rw [set_subtrees, if_neg hr, hl]
      -- The bound stays.
      have hkeep : le.Stays b → ∃ le' l, le.swallowBounds p n (done ++ [b]) rest = .ok le' ∧ Nested F le' ∧
          Shrinks le le' p ∧ le'.subtrees p = some l ∧ (∀ b ∈ l, le'.Stays b) ∧ (∀ y ∈ l, y ∈ done ∨ y ∈ U) ∧
          ∀ x, Covers F le' x ↔ Covers F (le.set p (done ++ b :: rest)) x := by
        intro hs
        have hlist : done ++ [b] ++ rest = done ++ b :: rest := by rw [List.append_assoc]; rfl
        have h' : Nested F (le.set p (done ++ [b] ++ rest)) := by
          rw [hlist]
          exact h
        obtain ⟨le', l, hrun, hN, hsh, hp, hst, hm, hcov⟩ := ih h'
          (fun y hy => (List.mem_append.mp hy).elim (hdone y) fun hy => List.mem_singleton.mp hy ▸ hs) hrest' hother hcard
        refine ⟨le', l, hrun, hN, hsh, hp, hst, fun y hy => ?_, fun x => by rw [hcov, hlist]⟩
        rcases hm y hy with hy | hy
        · refine (List.mem_append.mp hy).imp_right fun hy => ?_
          rw [List.mem_singleton.mp hy]
          exact hbU
        · exact .inr (Finset.mem_of_mem_erase hy)
      rw [SubtreeMap.swallowBounds]
      split
      · rename_i bb hbb
        split
        · rename_i ha
          exact hkeep fun _ => ha
        · rename_i ha
          have herase : Shrinks le (le.erase b) p := by
            refine ⟨rfl, fun {r} _ => ?_⟩
            rw [erase_subtrees]
            split
            · exact .inl ⟨rfl, ‹r = b› ▸ Bool.not_eq_true _ ▸ ha⟩
            · exact .inr rfl
          obtain ⟨le', l, hrun, hN, hsh, hp, hst, hm, hcov⟩ := ih (h.swallow hbb)
            (fun y hy => herase.stays (h.below set_self (List.mem_append_left _ hy)).1 (hdone y hy))
            (fun y hy => (List.mem_append.mp hy).elim (hrest' y) (hother b bb hbelow.1 hbb y))
            (fun r l hr hl => by
              rw [erase_subtrees] at hl
              split at hl
              · cases hl
              · exact hother r l hr hl) hcard
          exact ⟨le', l, hrun, hN, herase.trans hsh, hp, hst, fun y hy => (hm y hy).imp_right Finset.mem_of_mem_erase,
            fun x => (hcov x).trans (h.swallow_covers hbb)⟩
      · rename_i hbb
        exact hkeep fun hk => absurd hk (by rw [hbb]; exact Bool.false_ne_true)

/-! ## The loop over the map -/

theorem set_eq_self (hv : le.subtrees p = some l) : le.set p l = le := by
  rw [set, Function.update_eq_self_iff.mpr hv.symm]

/-- The loop ends; the subtrees that it has gone through are normal, the
ambiguous ones untouched, and the map covers what it did. -/
theorem Nested.simplify {n : ℕ} {U : Finset α} (order : List α) (h : Nested F le)
    (hU : ∀ r l, le.subtrees r = some l → ∀ b ∈ l, b ∈ U) (hn : U.card < n) :
    ∃ le', le.simplify n order = .ok le' ∧ le'.ambiguousSubtrees = le.ambiguousSubtrees ∧
      (∀ r, le.Normal r ∨ r ∈ order → le'.Normal r) ∧
      (∀ r, (le'.subtrees r).isSome → (le.subtrees r).isSome) ∧
      (∀ r, le.ambiguousSubtrees r = true → le'.subtrees r = le.subtrees r) ∧
      ∀ x, Covers F le' x ↔ Covers F le x := by
  induction order generalizing le with
  | nil => exact ⟨le, rfl, rfl, fun r hr => hr.resolve_right List.not_mem_nil, fun _ hr => hr, fun _ _ => rfl, fun _ => Iff.rfl⟩
  | cons p order ih =>
    rw [SubtreeMap.simplify, List.foldlM_cons]
    have hskip : le.Normal p → ∃ le', le.simplify n order = .ok le' ∧ le'.ambiguousSubtrees = le.ambiguousSubtrees ∧
        (∀ r, le.Normal r ∨ r ∈ p :: order → le'.Normal r) ∧
        (∀ r, (le'.subtrees r).isSome → (le.subtrees r).isSome) ∧
        (∀ r, le.ambiguousSubtrees r = true → le'.subtrees r = le.subtrees r) ∧
        ∀ x, Covers F le' x ↔ Covers F le x := by
      intro hp
      obtain ⟨le', hrun, hamb, hnorm, hrest⟩ := ih h hU
      refine ⟨le', hrun, hamb, fun r hr => hnorm r ?_, hrest⟩
      rcases hr with hr | hr
      · exact .inl hr
      · rcases List.mem_cons.mp hr with rfl | hr
        · exact .inl hp
        · exact .inr hr
    cases hv : le.subtrees p with
    | none => exact hskip fun l hl => absurd (hv.symm.trans hl) (Option.some_ne_none l).symm
    | some v =>
      cases ha : le.ambiguousSubtrees p with
      | true => exact hskip fun l _ hf => absurd (ha.symm.trans hf) (by decide)
      | false =>
        have hset : le.set p ([] ++ v) = le := set_eq_self hv
        have h' : Nested F (le.set p ([] ++ v)) := by
          rw [hset]
          exact h
        obtain ⟨le₁, l₁, h₁, hN, hsh, hp, hst, hm, hcov⟩ := Nested.swallowBounds h' (fun _ hb => absurd hb List.not_mem_nil)
          (hU p v hv) (fun r l _ hl => hU r l hl) hn
        have hold : ∀ r l, r ≠ p → le₁.subtrees r = some l → le.subtrees r = some l := by
          intro r l hr hl
          rcases hsh.subtrees hr with ⟨hnone, -⟩ | he
          · rw [hnone] at hl
            cases hl
          · rw [← he, hl]
        obtain ⟨le', h', hamb, hnorm, hkey, hkeep, hcov'⟩ := ih hN fun r l hl b hb => by
          by_cases hr : r = p
          · subst hr
            obtain rfl := Option.some.inj (hp.symm.trans hl)
            exact (hm b hb).resolve_left List.not_mem_nil
          · exact hU r l (hold r l hr hl) b hb
        refine ⟨le', ?_, hamb.trans hsh.ambiguous, fun r hr => hnorm r ?_, fun r hr => ?_, fun r hr => ?_,
          fun x => (hcov' x).trans ((hcov x).trans (by rw [hset]))⟩
        · simp only [Bool.false_eq_true, if_false]
          rw [h₁]
          exact h'
        · by_cases hrp : r = p
          · subst hrp
            refine .inl fun l hl _ => ?_
            obtain rfl := Option.some.inj (hp.symm.trans hl)
            exact hst
          · rcases hr with hr | hr
            · refine .inl fun l hl hf b hb => ?_
              rw [hsh.ambiguous] at hf
              have hs := hr l (hold r l hrp hl) hf b hb
              by_cases hbp : b = p
              · subst hbp
                exact absurd (hs (by rw [hv]; rfl)) (by rw [ha]; exact Bool.false_ne_true)
              · exact hsh.stays hbp hs
            · exact .inr ((List.mem_cons.mp hr).resolve_left hrp)
        · have hr := hkey r hr
          by_cases hrp : r = p
          · rw [hrp, hv]
            rfl
          · obtain ⟨l, hl⟩ := Option.isSome_iff_exists.mp hr
            rw [hold r l hrp hl]
            rfl
        · have hrp : r ≠ p := by
            rintro rfl
            exact absurd (ha.symm.trans hr) Bool.false_ne_true
          rw [hkeep r (by rw [hsh.ambiguous]; exact hr)]
          rcases hsh.subtrees hrp with ⟨-, hf⟩ | he
          · exact absurd (hf.symm.trans hr) Bool.false_ne_true
          · exact he

/-- The simplify loop of `create_subtree_map`: it ends in a normal form, leaves the
ambiguous subtrees, and the map covers the same directories. -/
theorem simplify_normal {n : ℕ} {U : Finset α} {order : List α} (h : Nested F le)
    (hU : ∀ r l, le.subtrees r = some l → ∀ b ∈ l, b ∈ U) (hn : U.card < n)
    (horder : ∀ r, (le.subtrees r).isSome → r ∈ order) :
    ∃ le', le.simplify n order = .ok le' ∧ le'.ambiguousSubtrees = le.ambiguousSubtrees ∧ (∀ r, le'.Normal r) ∧
      (∀ r, le.ambiguousSubtrees r = true → le'.subtrees r = le.subtrees r) ∧
      ∀ x, Covers F le' x ↔ Covers F le x := by
  obtain ⟨le', hrun, hamb, hnorm, hkey, hkeep, hcov⟩ := h.simplify order hU hn
  refine ⟨le', hrun, hamb, fun r l hl => ?_, hkeep, hcov⟩
  exact hnorm r (.inr (horder r (hkey r (by rw [hl]; rfl)))) l hl

/-- Subtrees one below the other, each the bound of the one above it. -/
def chain : SubtreeMap ℕ where
  subtrees r := if r < 2 then some [r + 1] else if r = 2 then some [] else none
  ambiguousSubtrees _ := false

def path : Forest ℕ where
  parent d := if d = 0 then none else some (d - 1)
  depth := id
  depth_lt {d q} h := by
    split at h
    · cases h
    · cases h
      show d - 1 < d
      omega

theorem chain_mem {r b : ℕ} {l : List ℕ} (hl : chain.subtrees r = some l) (hb : b ∈ l) : b = r + 1 ∧ r < 2 ∧ l = [r + 1] := by
  simp only [chain] at hl
  split at hl
  · cases hl
    exact ⟨List.mem_singleton.mp hb, ‹_›, rfl⟩
  · split at hl
    · cases hl
      cases hb
    · cases hl

theorem nested_chain : Nested path chain := by
  constructor
  · intro r b l hl hb
    obtain ⟨rfl, -⟩ := chain_mem hl hb
    exact ⟨by omega, .step rfl (.refl r)⟩
  · intro r b b' l hl hb hb' hne
    exact absurd ((chain_mem hl hb).1.trans (chain_mem hl hb').1.symm) hne
  · intro r r' b l l' hl hl' hb hb'
    have := (chain_mem hl hb).1
    have := (chain_mem hl' hb').1
    omega
  · intro r l hl
    cases l with
    | nil => exact .nil
    | cons b l =>
      rw [(chain_mem hl List.mem_cons_self).2.2]
      exact List.nodup_singleton _

/-- The three subtrees become one. -/
theorem simplify_normal_chain : ∃ le', chain.simplify 3 [0, 1, 2] = .ok le' ∧ le'.subtrees 0 = some [] ∧
    (∀ r, le'.Normal r) ∧ ∀ x, Covers path le' x ↔ Covers path chain x := by
  have hU : ∀ r l, chain.subtrees r = some l → ∀ b ∈ l, b ∈ ({1, 2} : Finset ℕ) := by
    intro r l hl b hb
    obtain ⟨rfl, hr, -⟩ := chain_mem hl hb
    simp
    omega
  have horder : ∀ r, (chain.subtrees r).isSome → r ∈ [0, 1, 2] := by
    intro r hr
    simp only [chain] at hr
    split at hr
    · simp
      omega
    · split at hr
      · simp
        omega
      · cases hr
  obtain ⟨le', hrun, -, hnorm, -, hcov⟩ := simplify_normal (n := 3) nested_chain hU (by decide) horder
  have h0 : (chain.simplify 3 [0, 1, 2]).toOption.bind (fun le => le.subtrees 0) = some [] := rfl
  rw [hrun] at h0
  exact ⟨le', hrun, h0, hnorm, hcov⟩

end SubtreeMap

end CephMds
