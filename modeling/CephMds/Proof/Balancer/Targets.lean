import CephMds.Model.CheckTargets

/-!
# For how long a rank has been no target

Each of the three loops of `check_targets` has one lemma, and `checkTargets_spec`
is what a call does. `old_prev_targets` counts the latest calls in a row in which
a rank was in the map and no target (`counted_checkAll`), and `checkTargets_run`
is what follows for the requests.
-/

namespace CephMds.Rebalance

variable {cfg : Removal} {mapTargets myTargets : Finset ℤ} {m : PrevTargets} {c : Checking} {l : List ℤ} {r : ℤ}

namespace PrevTargets

@[simp] theorem assign_ranks (m : PrevTargets) (rank n : ℤ) : (m.assign rank n).ranks = insert rank m.ranks := rfl
@[simp] theorem assign_count (m : PrevTargets) (rank n : ℤ) :
    (m.assign rank n).count = Function.update m.count rank n := rfl

/-- What `[]` reads. -/
def get (m : PrevTargets) (r : ℤ) : ℤ := if r ∈ m.ranks then m.count r else 0

end PrevTargets

namespace Checking

open PrevTargets

/-! ## The loops -/

theorem visitMapTarget_ranks : (visitMapTarget myTargets m r).ranks = insert r m.ranks := by
  unfold visitMapTarget
  by_cases hr : r ∈ m.ranks <;> by_cases hmy : r ∈ myTargets <;> simp [hr, hmy]

theorem visitMapTarget_get (p : ℤ) : (visitMapTarget myTargets m r).get p =
    if p = r ∧ r ∉ myTargets then m.get p + 1 else m.get p := by
  unfold visitMapTarget PrevTargets.get
  by_cases hp : p = r
  · subst hp
    by_cases hr : p ∈ m.ranks <;> by_cases hmy : p ∈ myTargets <;> simp [hr, hmy]
  · by_cases hr : r ∈ m.ranks <;> by_cases hmy : r ∈ myTargets <;> simp [hr, hmy, hp]

theorem visitMapTargets_ranks :
    (l.foldl (visitMapTarget myTargets) m).ranks = m.ranks ∪ l.toFinset := by
  induction l generalizing m with
  | nil => simp
  | cons p l ih =>
    rw [List.foldl_cons, ih, visitMapTarget_ranks]
    simp

/-- A rank of the map that is no target counts once more. -/
theorem visitMapTargets_get (hnd : l.Nodup) : (l.foldl (visitMapTarget myTargets) m).get r =
    if r ∈ l ∧ r ∉ myTargets then m.get r + 1 else m.get r := by
  induction l generalizing m with
  | nil => simp
  | cons p l ih =>
    obtain ⟨hp, hnd⟩ := List.nodup_cons.mp hnd
    rw [List.foldl_cons, ih hnd, visitMapTarget_get]
    by_cases hr : r = p
    · subst hr
      simp [hp]
    · simp [hr]

/-- The loop over `my_targets`. -/
theorem visitMyTargets_spec (mapTargets : Finset ℤ) (c : Checking) (l : List ℤ) :
    (l.foldl (visitMyTarget mapTargets) c).oldPrevTargets.ranks = c.oldPrevTargets.ranks ∪ l.toFinset ∧
    (∀ r, (l.foldl (visitMyTarget mapTargets) c).oldPrevTargets.count r =
      if r ∈ l then 0 else c.oldPrevTargets.count r) ∧
    (l.foldl (visitMyTarget mapTargets) c).needTargets = c.needTargets ∪ l.toFinset ∧
    ((l.foldl (visitMyTarget mapTargets) c).send = true ↔ c.send = true ∨ ∃ i ∈ l, i ∉ mapTargets) ∧
    ((l.foldl (visitMyTarget mapTargets) c).ok = true ↔ c.ok = true ∧ ∀ i ∈ l, i ∈ mapTargets) := by
  induction l generalizing c with
  | nil => simp
  | cons p l ih =>
    obtain ⟨hranks, hcount, hneed, hsend, hok⟩ := ih (visitMyTarget mapTargets c p)
    have hvisit : (visitMyTarget mapTargets c p).oldPrevTargets = c.oldPrevTargets.assign p 0 ∧
        (visitMyTarget mapTargets c p).needTargets = insert p c.needTargets ∧
        ((visitMyTarget mapTargets c p).send = true ↔ c.send = true ∨ p ∉ mapTargets) ∧
        ((visitMyTarget mapTargets c p).ok = true ↔ c.ok = true ∧ p ∈ mapTargets) := by
      unfold visitMyTarget
      by_cases hp : p ∈ mapTargets <;> simp [hp]
    obtain ⟨hprev, hneed', hsend', hok'⟩ := hvisit
    rw [List.foldl_cons, hranks, hneed, hsend, hok, hprev, hneed', hsend', hok']
    refine ⟨by simp, fun r => ?_, by simp, ?_, ?_⟩
    · rw [hcount, hprev]
      by_cases hr : r = p <;> simp [hr]
    · simp [or_assoc]
    · simp [and_assoc]

/-- Whether a rank stays in `old_prev_targets`. -/
def Stays (mapTargets needTargets : Finset ℤ) (r : ℤ) : Prop := r ∈ mapTargets ∨ r ∈ needTargets

theorem visitPrevTarget_spec (cfg : Removal) (mapTargets : Finset ℤ) (c : Checking) (p : ℤ) :
    (∀ r, r ∈ (visitPrevTarget cfg mapTargets c p).oldPrevTargets.ranks ↔
      r ∈ c.oldPrevTargets.ranks ∧ (r = p → Stays mapTargets c.needTargets r)) ∧
    (visitPrevTarget cfg mapTargets c p).oldPrevTargets.count = c.oldPrevTargets.count ∧
    (visitPrevTarget cfg mapTargets c p).needTargets = c.needTargets ∧
    (∀ r, r ∈ (visitPrevTarget cfg mapTargets c p).wantTargets ↔ r ∈ c.wantTargets ∨
      r = p ∧ Stays mapTargets c.needTargets r ∧ c.oldPrevTargets.count r < cfg.targetRemovalMin) ∧
    ((visitPrevTarget cfg mapTargets c p).send = true ↔ c.send = true ∨
      Stays mapTargets c.needTargets p ∧ cfg.targetRemovalMax ≤ c.oldPrevTargets.count p) ∧
    (visitPrevTarget cfg mapTargets c p).ok = c.ok := by
  have hstays : (p ∉ mapTargets ∧ p ∉ c.needTargets) ↔ ¬Stays mapTargets c.needTargets p := not_or.symm
  unfold visitPrevTarget
  by_cases hp : Stays mapTargets c.needTargets p
  · rw [if_neg fun h => hstays.mp h hp]
    have hwant : ∀ r, r ∈ insert p c.wantTargets ↔ r ∈ c.wantTargets ∨ r = p := fun r => by simp [or_comm]
    have hkeep : ∀ r, r ∈ c.oldPrevTargets.ranks ↔
        r ∈ c.oldPrevTargets.ranks ∧ (r = p → Stays mapTargets c.needTargets r) :=
      fun r => ⟨fun h => ⟨h, fun hr => hr ▸ hp⟩, fun h => h.1⟩
    have hmin : ∀ r, (r = p ∧ Stays mapTargets c.needTargets r ∧ c.oldPrevTargets.count r < cfg.targetRemovalMin) ↔
        r = p ∧ c.oldPrevTargets.count p < cfg.targetRemovalMin := by
      intro r
      constructor
      · rintro ⟨rfl, -, hlt⟩
        exact ⟨rfl, hlt⟩
      · rintro ⟨rfl, hlt⟩
        exact ⟨rfl, hp, hlt⟩
    by_cases hlow : c.oldPrevTargets.count p < cfg.targetRemovalMin <;>
      by_cases hhigh : cfg.targetRemovalMax ≤ c.oldPrevTargets.count p <;>
      simp [hlow, hhigh, hmin, hp, hwant] <;> exact fun r h hr => hr ▸ hp
  · rw [if_pos (hstays.mpr hp)]
    refine ⟨fun r => ?_, rfl, rfl, fun r => ?_, ?_, rfl⟩
    · show r ∈ c.oldPrevTargets.ranks.erase p ↔ _
      rw [Finset.mem_erase]
      constructor
      · exact fun h => ⟨h.2, fun hr => absurd hr h.1⟩
      · exact fun h => ⟨fun hr => hp (hr ▸ h.2 hr), h.1⟩
    · show r ∈ c.wantTargets ↔ _
      constructor
      · exact .inl
      · rintro (h | ⟨rfl, h, -⟩)
        · exact h
        · exact absurd h hp
    · show c.send = true ↔ _
      simp [hp]

/-- The loop over `old_prev_targets`. -/
theorem visitPrevTargets_spec (cfg : Removal) (mapTargets : Finset ℤ) (c : Checking) (l : List ℤ) :
    (∀ r, r ∈ (l.foldl (visitPrevTarget cfg mapTargets) c).oldPrevTargets.ranks ↔
      r ∈ c.oldPrevTargets.ranks ∧ (r ∈ l → Stays mapTargets c.needTargets r)) ∧
    (l.foldl (visitPrevTarget cfg mapTargets) c).oldPrevTargets.count = c.oldPrevTargets.count ∧
    (∀ r, r ∈ (l.foldl (visitPrevTarget cfg mapTargets) c).wantTargets ↔ r ∈ c.wantTargets ∨
      r ∈ l ∧ Stays mapTargets c.needTargets r ∧ c.oldPrevTargets.count r < cfg.targetRemovalMin) ∧
    ((l.foldl (visitPrevTarget cfg mapTargets) c).send = true ↔ c.send = true ∨
      ∃ r ∈ l, Stays mapTargets c.needTargets r ∧ cfg.targetRemovalMax ≤ c.oldPrevTargets.count r) ∧
    (l.foldl (visitPrevTarget cfg mapTargets) c).ok = c.ok := by
  induction l generalizing c with
  | nil => simp
  | cons p l ih =>
    obtain ⟨hranks, hcount, hwant, hsend, hok⟩ := ih (visitPrevTarget cfg mapTargets c p)
    obtain ⟨hranks', hcount', hneed', hwant', hsend', hok'⟩ := visitPrevTarget_spec cfg mapTargets c p
    simp only [hneed', hcount'] at hranks hcount hwant hsend
    rw [List.foldl_cons]
    refine ⟨fun r => ?_, hcount, fun r => ?_, ?_, hok.trans hok'⟩
    · rw [hranks, hranks', List.mem_cons, and_assoc]
      refine and_congr_right fun _ => ⟨?_, fun h => ⟨fun hr => h (.inl hr), fun hr => h (.inr hr)⟩⟩
      rintro ⟨h, h'⟩ (hr | hr)
      · exact h hr
      · exact h' hr
    · rw [hwant, hwant', List.mem_cons, or_and_right, or_assoc]
    · rw [hsend, hsend', or_assoc]
      simp

end Checking

/-! ## A call -/

open Checking

/-- The counter that a call leaves for a rank. -/
def nextCount (mapTargets myTargets : Finset ℤ) (m : PrevTargets) (r : ℤ) : ℤ :=
  if r ∈ myTargets then 0 else if r ∈ mapTargets then m.get r + 1 else m.get r

/-- What a call of `check_targets` does. -/
theorem checkTargets_spec (cfg : Removal) (mapTargets myTargets : Finset ℤ) (m : PrevTargets) :
    (checkTargets cfg mapTargets myTargets m).oldPrevTargets.ranks = mapTargets ∪ myTargets ∧
    (∀ r ∈ mapTargets ∪ myTargets,
      (checkTargets cfg mapTargets myTargets m).oldPrevTargets.count r = nextCount mapTargets myTargets m r) ∧
    ((checkTargets cfg mapTargets myTargets m).ok = true ↔ myTargets ⊆ mapTargets) ∧
    (∀ want ∈ (checkTargets cfg mapTargets myTargets m).sent, ∀ r, r ∈ want ↔ r ∈ myTargets ∨
      r ∈ mapTargets ∧ nextCount mapTargets myTargets m r < cfg.targetRemovalMin) ∧
    ((checkTargets cfg mapTargets myTargets m).sent.isSome = true ↔ ¬myTargets ⊆ mapTargets ∨
      ∃ r ∈ mapTargets ∪ myTargets, cfg.targetRemovalMax ≤ nextCount mapTargets myTargets m r) := by
  obtain ⟨m₁, hm₁⟩ : ∃ m₁, m₁ = (ascending mapTargets).foldl (visitMapTarget myTargets) m := ⟨_, rfl⟩
  have hranks₁ : m₁.ranks = m.ranks ∪ mapTargets := by
    rw [hm₁, visitMapTargets_ranks]
    ext r
    simp
  have hget₁ : ∀ r, m₁.get r = if r ∈ mapTargets ∧ r ∉ myTargets then m.get r + 1 else m.get r := by
    intro r
    simp only [hm₁, visitMapTargets_get (nodup_ascending mapTargets), mem_ascending]
  obtain ⟨c₂, hc₂⟩ : ∃ c₂, c₂ = (ascending myTargets).foldl (visitMyTarget mapTargets) ⟨m₁, ∅, ∅, false, true⟩ := ⟨_, rfl⟩
  obtain ⟨hranks₂, hcount₂, hneed₂, hsend₂, hok₂⟩ :=
    visitMyTargets_spec mapTargets ⟨m₁, ∅, ∅, false, true⟩ (ascending myTargets)
  simp only [← hc₂, mem_ascending] at hranks₂ hcount₂ hneed₂ hsend₂ hok₂
  have hneed : c₂.needTargets = myTargets := by
    rw [hneed₂]
    ext r
    simp
  obtain ⟨c₃, hc₃⟩ : ∃ c₃, c₃ = (ascending c₂.oldPrevTargets.ranks).foldl (visitPrevTarget cfg mapTargets)
      { c₂ with wantTargets := c₂.needTargets } := ⟨_, rfl⟩
  obtain ⟨hranks₃, hcount₃, hwant₃, hsend₃, hok₃⟩ := visitPrevTargets_spec cfg mapTargets
    { c₂ with wantTargets := c₂.needTargets } (ascending c₂.oldPrevTargets.ranks)
  rw [← hc₃] at hranks₃ hcount₃ hwant₃ hsend₃ hok₃
  simp only [mem_ascending, hneed] at hranks₃ hcount₃ hwant₃ hsend₃ hok₃
  have hcall : checkTargets cfg mapTargets myTargets m =
      ⟨c₃.oldPrevTargets, if c₃.send then some c₃.wantTargets else none, c₃.ok⟩ := by
    rw [hc₃, hc₂, hm₁]
    rfl
  have hmem₂ : ∀ r, r ∈ c₂.oldPrevTargets.ranks ∧ Stays mapTargets myTargets r ↔ r ∈ mapTargets ∪ myTargets := by
    intro r
    rw [hranks₂, hranks₁, Stays]
    simp only [Finset.mem_union, List.mem_toFinset, mem_ascending]
    tauto
  have hcount : ∀ r ∈ mapTargets ∪ myTargets, c₂.oldPrevTargets.count r = nextCount mapTargets myTargets m r := by
    intro r hr
    rw [hcount₂, nextCount]
    split
    · rfl
    rename_i hmy
    have hmap := (Finset.mem_union.mp hr).resolve_right hmy
    have hget := hget₁ r
    rw [PrevTargets.get, hranks₁, if_pos (Finset.mem_union_right _ hmap), if_pos ⟨hmap, hmy⟩] at hget
    rw [if_pos hmap, hget]
  rw [hcall]
  refine ⟨?_, fun r hr => ?_, ?_, fun want hwant r => ?_, ?_⟩
  · ext r
    rw [← hmem₂ r]
    exact (hranks₃ r).trans (and_congr_right fun h => ⟨fun h' => h' h, fun h' _ => h'⟩)
  · exact (congrFun hcount₃ r).trans (hcount r hr)
  · show c₃.ok = true ↔ _
    rw [hok₃, hok₂]
    simp [Finset.subset_iff]
  · obtain rfl : c₃.wantTargets = want := by
      dsimp only at hwant
      split at hwant
      · exact Option.some.inj hwant
      · cases hwant
    rw [hwant₃]
    constructor
    · rintro (hmy | ⟨hr, hstays, hlow⟩)
      · exact .inl hmy
      · rw [hcount r ((hmem₂ r).mp ⟨hr, hstays⟩)] at hlow
        exact hstays.symm.imp_right fun hmap => ⟨hmap, hlow⟩
    · rintro (hmy | ⟨hmap, hlow⟩)
      · exact .inl hmy
      · have hr := Finset.mem_union_left myTargets hmap
        rw [← hcount r hr] at hlow
        exact .inr ⟨((hmem₂ r).mpr hr).1, .inl hmap, hlow⟩
  · have hsome : (if c₃.send = true then some c₃.wantTargets else none).isSome = true ↔ c₃.send = true := by
      cases c₃.send with
      | true => exact ⟨fun _ => rfl, fun _ => rfl⟩
      | false => exact ⟨fun h => h, fun h => h⟩
    rw [hsome, hsend₃, hsend₂]
    refine or_congr ?_ ?_
    · simp [Finset.subset_iff]
    · constructor
      · rintro ⟨r, hr, hstays, hhigh⟩
        have hr' := (hmem₂ r).mp ⟨hr, hstays⟩
        exact ⟨r, hr', hcount r hr' ▸ hhigh⟩
      · rintro ⟨r, hr, hhigh⟩
        obtain ⟨hr', hstays⟩ := (hmem₂ r).mpr hr
        exact ⟨r, hr', hstays, (hcount r hr).symm ▸ hhigh⟩

/-! ## All calls -/

/-- A call in which the rank is in the map, and no target. -/
def idle (r : ℤ) (c : TargetCall) : Bool := r ∈ c.mapTargets ∧ r ∉ c.myTargets

/-- How many of the latest calls in a row have been idle. -/
def idleCalls (r : ℤ) (calls : List TargetCall) : ℕ := (calls.reverse.takeWhile (idle r)).length

theorem idleCalls_concat (r : ℤ) (calls : List TargetCall) (c : TargetCall) :
    idleCalls r (calls ++ [c]) = if idle r c then idleCalls r calls + 1 else 0 := by
  rw [idleCalls, idleCalls, List.reverse_append, List.reverse_singleton, List.singleton_append, List.takeWhile_cons]
  split <;> simp [*]

theorem checkAll_concat (cfg : Removal) (calls : List TargetCall) (c : TargetCall) : checkAll cfg (calls ++ [c]) =
    (checkTargets cfg c.mapTargets c.myTargets (checkAll cfg calls)).oldPrevTargets := by
  rw [checkAll, List.foldl_append]
  rfl

/-- `old_prev_targets` counts the idle calls. -/
theorem get_checkAll (cfg : Removal) (calls : List TargetCall) (r : ℤ) :
    (checkAll cfg calls).get r = idleCalls r calls := by
  induction calls using List.reverseRecOn with
  | nil => rfl
  | append_singleton calls c ih =>
    obtain ⟨hranks, hcount, -⟩ := checkTargets_spec cfg c.mapTargets c.myTargets (checkAll cfg calls)
    rw [checkAll_concat, idleCalls_concat, PrevTargets.get, hranks]
    by_cases hr : r ∈ c.mapTargets ∪ c.myTargets
    · rw [if_pos hr, hcount r hr, nextCount, ih]
      by_cases hmy : r ∈ c.myTargets
      · simp [idle, hmy]
      · have hmap := (Finset.mem_union.mp hr).resolve_right hmy
        simp [idle, hmy, hmap]
    · rw [if_neg hr]
      rw [Finset.mem_union, not_or] at hr
      simp [idle, hr.1]

/-- The bookkeeping of the export targets, over all sequences of calls. -/
theorem checkTargets_run (cfg : Removal) (calls : List TargetCall) (c : TargetCall) :
    (checkTargets cfg c.mapTargets c.myTargets (checkAll cfg calls)).oldPrevTargets = checkAll cfg (calls ++ [c]) ∧
    (checkAll cfg (calls ++ [c])).ranks = c.mapTargets ∪ c.myTargets ∧
    (∀ r ∈ (checkAll cfg (calls ++ [c])).ranks, (checkAll cfg (calls ++ [c])).count r = idleCalls r (calls ++ [c])) ∧
    (∀ r ∈ c.myTargets, (checkAll cfg (calls ++ [c])).count r = 0) ∧
    ((checkTargets cfg c.mapTargets c.myTargets (checkAll cfg calls)).ok = true ↔ c.myTargets ⊆ c.mapTargets) ∧
    (∀ want ∈ (checkTargets cfg c.mapTargets c.myTargets (checkAll cfg calls)).sent, c.myTargets ⊆ want) ∧
    ∀ r ∈ c.mapTargets, r ∉ c.myTargets →
      (cfg.targetRemovalMin ≤ idleCalls r (calls ++ [c]) →
        ∀ want ∈ (checkTargets cfg c.mapTargets c.myTargets (checkAll cfg calls)).sent, r ∉ want) ∧
      (cfg.targetRemovalMax ≤ idleCalls r (calls ++ [c]) →
        (checkTargets cfg c.mapTargets c.myTargets (checkAll cfg calls)).sent.isSome = true) := by
  obtain ⟨hranks, hcount, hok, hwant, hsend⟩ := checkTargets_spec cfg c.mapTargets c.myTargets (checkAll cfg calls)
  have hidle : ∀ r ∈ c.mapTargets ∪ c.myTargets,
      nextCount c.mapTargets c.myTargets (checkAll cfg calls) r = idleCalls r (calls ++ [c]) := by
    intro r hr
    have hget := get_checkAll cfg (calls ++ [c]) r
    rw [checkAll_concat, PrevTargets.get, hranks, if_pos hr] at hget
    rw [← hcount r hr, hget]
  rw [checkAll_concat]
  refine ⟨rfl, hranks, fun r hr => ?_, fun r hr => ?_, hok, fun want hw r hr => ?_, fun r hmap hmy => ⟨?_, ?_⟩⟩
  · have hr' := hranks ▸ hr
    rw [hcount r hr', hidle r hr']
  · rw [hcount r (Finset.mem_union_right _ hr), nextCount, if_pos hr]
  · exact (hwant want hw r).mpr (.inl hr)
  · intro hmin want hw hin
    rcases (hwant want hw r).mp hin with h | ⟨-, hlow⟩
    · exact hmy h
    · rw [hidle r (Finset.mem_union_left _ hmap)] at hlow
      exact absurd hmin (not_le.mpr hlow)
  · intro hmax
    have hr := Finset.mem_union_left c.myTargets hmap
    exact hsend.mpr (.inr ⟨r, hr, (hidle r hr).symm ▸ hmax⟩)

/-- Rank 1 stays in the map: with 2 and 3 as the settings, it is left out and asked for at the third idle call. -/
theorem checkTargets_run_third :
    (checkTargets ⟨2, 3⟩ {1, 2} {2} (checkAll ⟨2, 3⟩ [⟨{1, 2}, {2}⟩, ⟨{1, 2}, {2}⟩])).sent = some {2} ∧
    (∀ want ∈ (checkTargets ⟨2, 3⟩ {1, 2} {2} (checkAll ⟨2, 3⟩ [⟨{1, 2}, {2}⟩, ⟨{1, 2}, {2}⟩])).sent, 1 ∉ want) ∧
    (checkTargets ⟨2, 3⟩ {1, 2} {2} (checkAll ⟨2, 3⟩ [⟨{1, 2}, {2}⟩, ⟨{1, 2}, {2}⟩])).sent.isSome = true := by
  obtain ⟨-, -, -, -, -, -, hidle⟩ := checkTargets_run ⟨2, 3⟩ [⟨{1, 2}, {2}⟩, ⟨{1, 2}, {2}⟩] ⟨{1, 2}, {2}⟩
  have hcalls : idleCalls 1 [⟨{1, 2}, {2}⟩, ⟨{1, 2}, {2}⟩, ⟨{1, 2}, {2}⟩] = 3 := by decide
  obtain ⟨hmin, hmax⟩ := hidle 1 (by decide) (by decide)
  refine ⟨by decide +kernel, hmin ?_, hmax ?_⟩
  · show 2 ≤ ((idleCalls 1 [⟨{1, 2}, {2}⟩, ⟨{1, 2}, {2}⟩, ⟨{1, 2}, {2}⟩] : ℕ) : ℤ)
    rw [hcalls]
    decide
  · show 3 ≤ ((idleCalls 1 [⟨{1, 2}, {2}⟩, ⟨{1, 2}, {2}⟩, ⟨{1, 2}, {2}⟩] : ℕ) : ℤ)
    rw [hcalls]
    decide

end CephMds.Rebalance
