import CephMds.Framework.Rehang
import CephMds.Model.Journal
import Mathlib

/-!
# The lists of the journaled subtree map

`Lists` says which subtrees a journaled map has and which subtree each bound
is listed under, with one lemma for each way the map changes. `Marked` says
that a bound is listed under the subtree above it: what such a map covers is
read off the marks (`Marked.covers`), and swallowing subtrees leaves it
(`simplify_spec`).
-/

namespace CephMds

open Checked

/-! ## The lists of bounds -/

namespace SubtreeMap

variable {α : Type} [DecidableEq α] {key : α → Prop} {loc : α → Option α} {le : SubtreeMap α}
  {b d r r' x : α} {l : List α}

/-- The subtrees of the map are `key`, and `b` is listed once under `loc b`,
if that is one of them. -/
structure Lists (key : α → Prop) (loc : α → Option α) (le : SubtreeMap α) : Prop where
  key (r : α) : (le.subtrees r).isSome ↔ key r
  bounds {r : α} {l : List α} : le.subtrees r = some l → l.Nodup ∧ ∀ b, b ∈ l ↔ loc b = some r

omit [DecidableEq α] in
theorem Lists.congr {key' : α → Prop} {loc' : α → Option α} (h : Lists key loc le)
    (hkey : ∀ r, key r ↔ key' r) (hloc : ∀ b, loc b = loc' b) : Lists key' loc' le where
  key r := (h.key r).trans (hkey r)
  bounds hl := by
    obtain ⟨hnd, hm⟩ := h.bounds hl
    exact ⟨hnd, fun b => by rw [hm, hloc]⟩

theorem erase_subtrees : (le.erase r).subtrees x = if x = r then none else le.subtrees x :=
  Function.update_apply ..

theorem set_subtrees : (le.set r l).subtrees x = if x = r then some l else le.subtrees x :=
  Function.update_apply ..

theorem removeBound_subtrees : (le.removeBound b r).subtrees x =
    if x = r then (le.subtrees r).map (·.erase b) else le.subtrees x := by
  rw [removeBound]
  split
  · rename_i hv
    rw [set_subtrees, hv]
    rfl
  · rename_i hv
    split
    · rename_i hx
      rw [hx, hv]
      rfl
    · rfl

theorem pushBound_subtrees : (le.pushBound b r).subtrees x =
    if x = r then (le.subtrees r).map (· ++ [b]) else le.subtrees x := by
  rw [pushBound]
  split
  · rename_i hv
    rw [set_subtrees, hv]
    rfl
  · rename_i hv
    split
    · rename_i hx
      rw [hx, hv]
      rfl
    · rfl

/-- A bound that is not listed is listed under `r`. -/
theorem Lists.push (h : Lists key loc le) (hb : loc b = none) :
    Lists key (Function.update loc b (some r)) (le.pushBound b r) where
  key x := by
    rw [pushBound_subtrees, ← h.key]
    split
    · rename_i hx
      rw [hx, Option.isSome_map]
    · rfl
  bounds {x l} hl := by
    rw [pushBound_subtrees] at hl
    split at hl
    · rename_i hx
      obtain ⟨v, hv, rfl⟩ := Option.map_eq_some_iff.mp hl
      obtain ⟨hnd, hm⟩ := h.bounds hv
      have hbv : b ∉ v := fun hbv => by
        rw [hm, hb] at hbv
        cases hbv
      refine ⟨List.nodup_append.mpr ⟨hnd, List.nodup_singleton b, ?_⟩, fun y => ?_⟩
      · rintro y hy z hz rfl
        exact hbv (List.mem_singleton.mp hz ▸ hy)
      · rw [List.mem_append, List.mem_singleton, hm, Function.update_apply, hx]
        split
        · rename_i hy
          exact ⟨fun _ => rfl, fun _ => .inr hy⟩
        · rename_i hy
          exact ⟨fun h => h.resolve_right hy, .inl⟩
    · rename_i hx
      obtain ⟨hnd, hm⟩ := h.bounds hl
      refine ⟨hnd, fun y => ?_⟩
      rw [hm, Function.update_apply]
      split
      · rename_i hy
        rw [hy, hb, Option.some_inj]
        exact ⟨nofun, fun e => absurd e.symm hx⟩
      · rfl

/-- A bound is taken off its list. -/
theorem Lists.remove (h : Lists key loc le) (hb : loc b = some r) :
    Lists key (Function.update loc b none) (le.removeBound b r) where
  key x := by
    rw [removeBound_subtrees, ← h.key]
    split
    · rename_i hx
      rw [hx, Option.isSome_map]
    · rfl
  bounds {x l} hl := by
    rw [removeBound_subtrees] at hl
    split at hl
    · rename_i hx
      obtain ⟨v, hv, rfl⟩ := Option.map_eq_some_iff.mp hl
      obtain ⟨hnd, hm⟩ := h.bounds hv
      refine ⟨hnd.erase b, fun y => ?_⟩
      rw [hnd.mem_erase_iff, hm, Function.update_apply, hx]
      split
      · rename_i hy
        exact ⟨fun h => absurd hy h.1, nofun⟩
      · rename_i hy
        exact ⟨fun h => h.2, fun h => ⟨hy, h⟩⟩
    · rename_i hx
      obtain ⟨hnd, hm⟩ := h.bounds hl
      refine ⟨hnd, fun y => ?_⟩
      rw [hm, Function.update_apply]
      split
      · rename_i hy
        rw [hy, hb, Option.some_inj]
        exact ⟨fun e => absurd e.symm hx, nofun⟩
      · rfl

theorem Lists.move (r' : α) (h : Lists key loc le) (hb : loc b = some r) :
    Lists key (Function.update loc b (some r')) (le.moveSubtreeMapBound b r r') := by
  have := (h.remove hb).push (r := r') (Function.update_self ..)
  rwa [Function.update_idem] at this

/-- A new subtree without bounds. -/
theorem Lists.create (h : Lists key loc le) (hd : ∀ b, loc b ≠ some d) :
    Lists (fun r => key r ∨ r = d) loc (le.set d []) where
  key x := by
    rw [set_subtrees]
    split
    · rename_i hx
      exact ⟨fun _ => .inr hx, fun _ => rfl⟩
    · rename_i hx
      rw [h.key]
      exact ⟨.inl, fun h => h.resolve_right hx⟩
  bounds {x l} hl := by
    rw [set_subtrees] at hl
    split at hl
    · rename_i hx
      rw [← Option.some.inj hl, hx]
      exact ⟨List.nodup_nil, fun b => ⟨nofun, fun hb => absurd hb (hd b)⟩⟩
    · exact h.bounds hl

/-- Some of the bounds of `r` move to `r'`. -/
theorem Lists.moves {p : α → Bool} (hnd : l.Nodup) (h : Lists key loc le)
    (hl : ∀ b ∈ l, p b = true → loc b = some r) :
    Lists key (fun b => if b ∈ l ∧ p b = true then some r' else loc b)
      (l.foldl (fun le b => if p b then le.moveSubtreeMapBound b r r' else le) le) := by
  induction l generalizing le loc with
  | nil => exact h.congr (fun _ => Iff.rfl) fun b => (if_neg fun hb => List.not_mem_nil hb.1).symm
  | cons a l ih =>
    obtain ⟨ha, hnd⟩ := List.nodup_cons.mp hnd
    rw [List.foldl_cons]
    by_cases hp : p a = true
    · rw [if_pos hp]
      refine (ih hnd (h.move r' (hl a List.mem_cons_self hp)) fun b hb hpb => ?_).congr
        (fun _ => Iff.rfl) fun b => ?_
      · have hba : b ≠ a := fun e => ha (e ▸ hb)
        rw [Function.update_of_ne hba, hl b (List.mem_cons_of_mem a hb) hpb]
      · by_cases hba : b = a
        · rw [hba, if_neg (fun h => ha h.1), Function.update_self, if_pos ⟨List.mem_cons_self, hp⟩]
        · rw [Function.update_of_ne hba]
          simp only [List.mem_cons, hba, false_or]
    · rw [if_neg hp]
      refine (ih hnd h fun b hb => hl b (List.mem_cons_of_mem a hb)).congr (fun _ => Iff.rfl) fun b => ?_
      by_cases hba : b = a
      · rw [hba, if_neg (fun h => hp h.2), if_neg (fun h => hp h.2)]
      · simp only [List.mem_cons, hba, false_or]

/-! ## What the map covers -/

variable {F : Forest α} {k : α → Bool} {p : α} {bb done rest : List α}

/-- `k` marks the subtrees and the bounds, and each bound is listed under the
marked node above it. -/
structure Marked (F : Forest α) (k : α → Bool) (key : α → Prop) (le : SubtreeMap α) : Prop where
  lists : Lists key (fun b => if k b then F.above k b else none) le
  marked {r : α} : key r → k r = true

/-- `x` is in a subtree of the map. -/
def Covers (F : Forest α) (le : SubtreeMap α) (x : α) : Prop :=
  ∃ r l, le.subtrees r = some l ∧ F.Region r l.toFinset x

omit [DecidableEq α] in
theorem Marked.mem (h : Marked F k key le) (hl : le.subtrees r = some l) :
    b ∈ l ↔ k b = true ∧ F.above k b = some r := by
  rw [(h.lists.bounds hl).2]
  cases k b <;> simp

theorem Marked.covers (h : Marked F k key le) : Covers F le x ↔ ∃ r, key r ∧ F.nearest k x = some r := by
  constructor
  · rintro ⟨r, l, hl, hx⟩
    have hr : key r := (h.lists.key r).mp (by rw [hl]; rfl)
    refine ⟨r, hr, (Forest.region_iff_nearest (h.marked hr) fun b => ?_).mp hx⟩
    rw [List.mem_toFinset, h.mem hl]
  · rintro ⟨r, hr, hx⟩
    obtain ⟨l, hl⟩ := Option.isSome_iff_exists.mp ((h.lists.key r).mpr hr)
    refine ⟨r, l, hl, (Forest.region_iff_nearest (h.marked hr) fun b => ?_).mpr hx⟩
    rw [List.mem_toFinset, h.mem hl]

section Swallow

variable (h : Marked F k key (le.set p (done ++ b :: rest))) (hb : le.subtrees b = some bb)
include h

theorem Marked.bound : k b = true ∧ F.above k b = some p := by
  have hp : (le.set p (done ++ b :: rest)).subtrees p = some (done ++ b :: rest) := by
    rw [set_subtrees, if_pos rfl]
  exact (h.mem hp).mp (by simp)

theorem Marked.bound_ne : b ≠ p := (F.above_ne h.bound.2).symm

/-- Without the mark of `b`, what was below it is below `p`. -/
theorem Marked.above_unmark {y : α} : F.above (fun y => k y && y ≠ b) y =
    if F.above k y = some b then some p else F.above k y := by
  obtain ⟨hkb, hab⟩ := h.bound
  have hb' : F.above (fun y => k y && y ≠ b) b = some p := by
    rw [← hab]
    exact F.above_congr fun y hy => by simp [hy]
  rcases F.above_mark (m := fun y => k y && y ≠ b) (v := b) (by simp) hkb (fun y hy => by simp [hy]) y with
    hy | ⟨hy, hy'⟩
  · rw [if_neg, hy]
    intro hyb
    have := F.above_marked (hy.symm.trans hyb)
    simp at this
  · rw [if_pos hy, hy', hb']

theorem Marked.nearest_unmark {y : α} : F.nearest (fun y => k y && y ≠ b) y =
    if F.nearest k y = some b then some p else F.nearest k y := by
  obtain ⟨hkb, hab⟩ := h.bound
  have hb' : F.above (fun y => k y && y ≠ b) b = some p := by
    rw [← hab]
    exact F.above_congr fun y hy => by simp [hy]
  rcases F.nearest_mark (m := fun y => k y && y ≠ b) (v := b) (by simp) hkb (fun y hy => by simp [hy]) y with
    hy | ⟨hy, hy'⟩
  · rw [if_neg, hy]
    intro hyb
    have := F.nearest_marked (hy.symm.trans hyb)
    simp at this
  · rw [if_pos hy, hy', hb']

include hb

/-- The subtree `b` is swallowed by `p`. -/
theorem Marked.swallow : Marked F (fun y => k y && y ≠ b) (fun r => key r ∧ r ≠ b)
    ((le.erase b).set p (done ++ (rest ++ bb))) := by
  have hp : (le.set p (done ++ b :: rest)).subtrees p = some (done ++ b :: rest) := by
    rw [set_subtrees, if_pos rfl]
  have hb' : (le.set p (done ++ b :: rest)).subtrees b = some bb := by
    rw [set_subtrees, if_neg h.bound_ne, hb]
  have hsub : ∀ r, ((le.erase b).set p (done ++ (rest ++ bb))).subtrees r =
      if r = p then some (done ++ (rest ++ bb))
      else if r = b then none else (le.set p (done ++ b :: rest)).subtrees r := by
    intro r
    rw [set_subtrees, erase_subtrees, set_subtrees]
    split
    · rfl
    · rfl
  have hloc : ∀ r y, (if (k y && y ≠ b) = true then F.above (fun y => k y && y ≠ b) y else none) = some r ↔
      k y = true ∧ y ≠ b ∧ (if F.above k y = some b then some p else F.above k y) = some r := by
    intro r y
    rw [h.above_unmark]
    by_cases hy : k y = true ∧ y ≠ b
    · simp [hy.1, hy.2]
    · simp only [Bool.and_eq_true, decide_eq_true_eq, hy, if_false]
      exact ⟨nofun, fun h => absurd ⟨h.1, h.2.1⟩ hy⟩
  refine ⟨⟨fun r => ?_, fun {r l} hl => ?_⟩, fun {r} hr => by simp [h.marked hr.1, hr.2]⟩
  · rw [hsub, ← h.lists.key]
    by_cases hrp : r = p
    · rw [if_pos hrp, hrp, hp]
      exact ⟨fun _ => ⟨rfl, h.bound_ne.symm⟩, fun _ => rfl⟩
    · rw [if_neg hrp]
      split
      · rename_i hrb
        exact ⟨nofun, fun h => absurd hrb h.2⟩
      · rename_i hrb
        exact ⟨fun h => ⟨h, hrb⟩, fun h => h.1⟩
  · rw [hsub] at hl
    simp only [hloc]
    split at hl
    · rename_i hrp
      subst hrp
      obtain rfl := Option.some.inj hl
      have hnd := (h.lists.bounds hp).1
      have hndb := (h.lists.bounds hb').1
      have hbd : b ∉ done ++ rest := by
        rw [List.nodup_append, List.nodup_cons] at hnd
        rw [List.mem_append]
        rintro (hd | hr)
        · exact hnd.2.2 b hd b List.mem_cons_self rfl
        · exact hnd.2.1.1 hr
      have hmem : ∀ y, y ∈ done ++ rest ↔ y ≠ b ∧ k y = true ∧ F.above k y = some r := by
        intro y
        rw [← h.mem hp]
        by_cases hy : y = b
        · rw [hy]
          exact ⟨fun hm => absurd hm hbd, fun hm => absurd rfl hm.1⟩
        · simp [hy]
      have hdisj : ∀ y ∈ done ++ rest, ∀ z ∈ bb, y ≠ z := by
        rintro y hy z hz rfl
        have := ((h.mem hb').mp hz).2.symm.trans ((hmem y).mp hy).2.2
        exact h.bound_ne (Option.some.inj this)
      refine ⟨?_, fun y => ?_⟩
      · rw [← List.append_assoc, List.nodup_append]
        exact ⟨hnd.sublist (by simp), hndb, hdisj⟩
      · rw [← List.append_assoc, List.mem_append, hmem, h.mem hb']
        constructor
        · rintro (⟨hy, hk, ha⟩ | ⟨hk, ha⟩)
          · refine ⟨hk, hy, ?_⟩
            rw [ha, if_neg]
            exact fun e => h.bound_ne (Option.some.inj e).symm
          · exact ⟨hk, (F.above_ne ha).symm, if_pos ha⟩
        · rintro ⟨hk, hy, ha⟩
          split at ha
          · exact .inr ⟨hk, ‹_›⟩
          · exact .inl ⟨hy, hk, ha⟩
    · rename_i hrp
      split at hl
      · cases hl
      · rename_i hrb
        refine ⟨(h.lists.bounds hl).1, fun y => ?_⟩
        rw [h.mem hl]
        constructor
        · rintro ⟨hk, ha⟩
          refine ⟨hk, ?_, ?_⟩
          · rintro rfl
            exact hrp (Option.some.inj (ha.symm.trans h.bound.2))
          · rw [ha, if_neg]
            exact fun e => hrb (Option.some.inj e)
        · rintro ⟨hk, -, ha⟩
          split at ha
          · exact absurd (Option.some.inj ha).symm hrp
          · exact ⟨hk, ha⟩

end Swallow

/-- The loop of one subtree. `U` has what is still to be looked at, so that it
bounds the iterations. -/
theorem swallowBounds_spec {n : ℕ} {U : Finset α} (h : Marked F k key (le.set p (done ++ rest)))
    (hrest : ∀ b ∈ rest, b ∈ U)
    (hU : ∀ r l, r ≠ p → le.subtrees r = some l → ∀ b ∈ l, b ∈ U) (hn : U.card < n) :
    ∃ le' k' key', le.swallowBounds p n done rest = .ok le' ∧ Marked F k' key' le' ∧
      (∀ y, k' y = true → k y = true) ∧
      ∀ x, (∃ r, key' r ∧ F.nearest k' x = some r) ↔ ∃ r, key r ∧ F.nearest k x = some r := by
  induction n generalizing le k key done rest U with
  | zero => omega
  | succ n ih =>
    cases rest with
    | nil =>
      rw [List.append_nil] at h
      exact ⟨_, k, key, rfl, h, fun _ hy => hy, fun _ => Iff.rfl⟩
    | cons b rest =>
      have hbU : b ∈ U := hrest b List.mem_cons_self
      have hcard : (U.erase b).card < n := by
        have := Finset.card_erase_lt_of_mem hbU
        omega
      have hp : (le.set p (done ++ b :: rest)).subtrees p = some (done ++ b :: rest) := by
        rw [set_subtrees, if_pos rfl]
      have hnd := (h.lists.bounds hp).1
      have hbrest : b ∉ rest := (List.nodup_cons.mp (List.nodup_append.mp hnd).2.1).1
      have hrest' : ∀ y ∈ rest, y ∈ U.erase b := fun y hy =>
        Finset.mem_erase.mpr ⟨fun e => hbrest (e ▸ hy), hrest y (List.mem_cons_of_mem b hy)⟩
      have hother : ∀ r l, r ≠ p → le.subtrees r = some l → ∀ y ∈ l, y ∈ U.erase b := by
        intro r l hr hl y hy
        refine Finset.mem_erase.mpr ⟨?_, hU r l hr hl y hy⟩
        rintro rfl
        have hl' : (le.set p (done ++ y :: rest)).subtrees r = some l := by rw [set_subtrees, if_neg hr, hl]
        exact hr (Option.some.inj (((h.mem hl').mp hy).2.symm.trans h.bound.2))
      have hkeep : ∃ le' k' key', le.swallowBounds p n (done ++ [b]) rest = .ok le' ∧ Marked F k' key' le' ∧
          (∀ y, k' y = true → k y = true) ∧
          ∀ x, (∃ r, key' r ∧ F.nearest k' x = some r) ↔ ∃ r, key r ∧ F.nearest k x = some r := by
        refine ih ?_ hrest' hother hcard
        rwa [List.append_assoc]
      rw [swallowBounds]
      split
      · rename_i bb hbb
        split
        · exact hkeep
        · have hbp := h.bound_ne
          obtain ⟨le', k', key', hle, hM, hk', hcov⟩ := ih (h.swallow hbb)
            (fun y hy => (List.mem_append.mp hy).elim (hrest' y) (hother b bb hbp hbb y))
            (fun r l hr hl => by
              rw [erase_subtrees] at hl
              split at hl
              · cases hl
              · exact hother r l hr hl) hcard
          refine ⟨le', k', key', hle, hM, fun y hy => (Bool.and_eq_true_iff.mp (hk' y hy)).1, fun x => ?_⟩
          rw [hcov]
          have hkp : key p := (h.lists.key p).mp (by rw [hp]; rfl)
          constructor
          · rintro ⟨r, ⟨hr, -⟩, hx⟩
            rw [h.nearest_unmark] at hx
            split at hx
            · rename_i hxb
              refine ⟨b, (h.lists.key b).mp ?_, hxb⟩
              rw [set_subtrees, if_neg hbp, hbb]
              rfl
            · exact ⟨r, hr, hx⟩
          · rintro ⟨r, hr, hx⟩
            by_cases hrb : r = b
            · refine ⟨p, ⟨hkp, hbp.symm⟩, ?_⟩
              rw [h.nearest_unmark, if_pos (hrb ▸ hx)]
            · refine ⟨r, ⟨hr, hrb⟩, ?_⟩
              rw [h.nearest_unmark, if_neg, hx]
              rw [hx]
              exact fun e => hrb (Option.some.inj e)
      · exact hkeep

/-- Simplifying the map leaves what it covers. -/
theorem simplify_spec {U : Finset α} (order : List α) (h : Marked F k key le)
    (hU : ∀ y, k y = true → y ∈ U) :
    ∃ le' k' key', le.simplify (U.card + 1) order = .ok le' ∧ Marked F k' key' le' ∧
      ∀ x, (∃ r, key' r ∧ F.nearest k' x = some r) ↔ ∃ r, key r ∧ F.nearest k x = some r := by
  induction order generalizing le k key with
  | nil => exact ⟨le, k, key, rfl, h, fun _ => Iff.rfl⟩
  | cons p order ih =>
    have hskip : ∃ le' k' key', le.simplify (U.card + 1) order = .ok le' ∧ Marked F k' key' le' ∧
        ∀ x, (∃ r, key' r ∧ F.nearest k' x = some r) ↔ ∃ r, key r ∧ F.nearest k x = some r := ih h hU
    rw [simplify, List.foldlM_cons]
    cases hv : le.subtrees p with
    | none => exact hskip
    | some v =>
      cases ha : le.ambiguousSubtrees p with
      | true => exact hskip
      | false =>
        have hset : le.set p ([] ++ v) = le := by
          rw [List.nil_append, set, Function.update_eq_self_iff.mpr hv.symm]
        have hmem : ∀ r l, le.subtrees r = some l → ∀ b ∈ l, b ∈ U := fun r l hl b hb =>
          hU b ((h.mem hl).mp hb).1
        have hM₀ : Marked F k key (le.set p ([] ++ v)) := by rwa [hset]
        obtain ⟨le₁, k₁, key₁, h₁, hM, hk₁, hcov₁⟩ := swallowBounds_spec hM₀
          (hmem p v hv) (fun r l _ hl => hmem r l hl) (Nat.lt_succ_self U.card)
        obtain ⟨le', k', key', h', hM', hcov'⟩ := ih hM fun y hy => hU y (hk₁ y hy)
        refine ⟨le', k', key', ?_, hM', fun x => (hcov' x).trans (hcov₁ x)⟩
        simp only [Bool.false_eq_true, if_false]
        rw [h₁]
        exact h'

end SubtreeMap

end CephMds
