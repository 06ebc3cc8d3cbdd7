import CephMds.Model.Versions
import Mathlib

/-!
# What a fragment has to pass on, snapshot by snapshot

Where the intervals of `dirty_old_rstat` are disjoint and before the current one
(`Good`), each snapshot has one difference that is pending. A segment of the loop
adds to the differences of its snapshots and to no others (`Segment`), except where
the end of the range is in a gap that has an interval after it and two of the
range before it: the first of the two is taken for the last. And an interval that
ends after the beginning of the current one stays there.
-/

namespace CephMds.Versions.CDir

open Checked Intervals Stat

variable {d d' : CDir} {ofirst first last s k : ℕ} {delta : NestInfo}

/-- `rstat - accounted_rstat`. -/
def OldRstat.pending (o : OldRstat) : NestCount := o.rstat.count - o.accountedRstat.count

/-- The difference that is pending for a snapshot. -/
def pending (d : CDir) (s : ℕ) : NestCount :=
  if d.first ≤ s then d.fnode.rstat.count - d.fnode.accountedRstat.count
  else ((valueAt d.dirtyOldRstat s).map OldRstat.pending).getD 0

/-- The intervals are disjoint, and before the current one. -/
structure Good (d : CDir) : Prop where
  disjoint : Disjoint d.dirtyOldRstat
  below {k : ℕ} {p : Piece OldRstat} : d.dirtyOldRstat[k]? = some p → k < d.first
  first_le : d.first ≤ cephNosnap

/-- No gap before the current interval has an interval after it and two before
it that end in the range. -/
def Clear (d : CDir) (ofirst last : ℕ) : Prop :=
  ∀ s, ofirst ≤ s → s ≤ last → s < d.first → valueAt d.dirtyOldRstat s = none →
    (∃ k, s < k ∧ k ∈ d.dirtyOldRstat) → ∀ k₁ ∈ d.dirtyOldRstat, ∀ k₂ ∈ d.dirtyOldRstat, ofirst ≤ k₁ → k₁ < k₂ → s ≤ k₂

/-! ## Adding to a segment -/

/-- What has been picked: nothing is changed, and the segment has an entry of its own. -/
structure Picked (d d' : CDir) (first last : ℕ) : Prop where
  good : d'.Good
  pending (s : ℕ) : d'.pending s = d.pending s
  le : first ≤ last
  target : last = cephNosnap ∧ d'.first = first ∨
    last < d'.first ∧ ∃ o, d'.dirtyOldRstat[last]? = some ⟨first, o⟩

theorem count_add (r r' : NestInfo) : (r.add r').count = r.count + r'.count := rfl

theorem addTo_head : (d.addTo cephNosnap delta) = { d with fnode := { d.fnode with rstat := d.fnode.rstat.add delta } } :=
  if_pos rfl

theorem addTo_old {o : OldRstat} (hl : last ≠ cephNosnap) (h : d.dirtyOldRstat[last]? = some ⟨first, o⟩) :
    d.addTo last delta = { d with
      dirtyOldRstat := d.dirtyOldRstat.insert last ⟨first, { o with rstat := o.rstat.add delta }⟩ } := by
  unfold addTo
  rw [if_neg hl, h]

theorem addTo_first : (d.addTo last delta).first = d.first := by
  unfold addTo
  split
  · rfl
  · split <;> rfl

/-- No interval comes or goes, and none is moved. -/
theorem addTo_shape (d : CDir) (last : ℕ) (delta : NestInfo) (x : ℕ) :
    ((d.addTo last delta).dirtyOldRstat[x]?).map Piece.first = (d.dirtyOldRstat[x]?).map Piece.first := by
  unfold addTo
  split
  · rfl
  · split
    · rfl
    · rename_i p hp
      show ((d.dirtyOldRstat.insert last _)[x]?).map Piece.first = _
      rw [getElem?_insert]
      split
      · subst ‹x = last›
        rw [hp]
        rfl
      · rfl

theorem addTo_mem : k ∈ (d.addTo last delta).dirtyOldRstat ↔ k ∈ d.dirtyOldRstat := by
  rw [← Std.ExtTreeMap.isSome_getElem?_iff_mem, ← Std.ExtTreeMap.isSome_getElem?_iff_mem,
    ← Option.isSome_map (f := Piece.first), addTo_shape, Option.isSome_map]

theorem Picked.good_addTo (h : Picked d d' first last) : (d'.addTo last delta).Good := by
  rcases h.target with ⟨rfl, -⟩ | ⟨hlt, o, ho⟩
  · rw [addTo_head]
    exact ⟨h.good.disjoint, h.good.below, h.good.first_le⟩
  · have hl : last ≠ cephNosnap := by
      have := h.good.first_le
      omega
    rw [addTo_old hl ho]
    refine ⟨h.good.disjoint.insert h.le fun k p hk hne => ?_, fun {k p} hk => ?_, h.good.first_le⟩
    · rcases Nat.lt_or_gt_of_ne hne with hk' | hk'
      · exact .inl (h.good.disjoint.apart hk ho hk')
      · exact .inr (h.good.disjoint.apart ho hk hk')
    · rw [getElem?_insert] at hk
      split at hk
      · subst ‹k = last›
        exact hlt
      · exact h.good.below hk

theorem Picked.grows (h : Picked d d' first last) (hs : s ≤ cephNosnap) :
    (d'.addTo last delta).pending s = d.pending s + if first ≤ s ∧ s ≤ last then delta.count else 0 := by
  rw [← h.pending]
  rcases h.target with ⟨rfl, rfl⟩ | ⟨hlt, o, ho⟩
  · rw [addTo_head]
    unfold CDir.pending
    dsimp only
    by_cases hf : d'.first ≤ s
    · rw [if_pos hf, if_pos hf, if_pos ⟨hf, hs⟩, count_add]
      abel
    · rw [if_neg hf, if_neg hf, if_neg (fun hc => hf hc.1), add_zero]
  · have hl : last ≠ cephNosnap := by
      have := h.good.first_le
      omega
    have hother : ∀ k p, d'.dirtyOldRstat[k]? = some p → k ≠ last → k < first ∨ last < p.first := by
      intro k p hk hne
      rcases Nat.lt_or_gt_of_ne hne with hk' | hk'
      · exact .inl (h.good.disjoint.apart hk ho hk')
      · exact .inr (h.good.disjoint.apart ho hk hk')
    have hself : ∀ p, d'.dirtyOldRstat[last]? = some p → first ≤ p.first := by
      intro p hp
      rw [ho] at hp
      cases hp
      exact le_rfl
    rw [addTo_old hl ho]
    unfold CDir.pending
    dsimp only
    by_cases hf : d'.first ≤ s
    · rw [if_pos hf, if_pos hf, if_neg (by omega), add_zero]
    · rw [if_neg hf, if_neg hf, h.good.disjoint.valueAt_insert h.le hother hself]
      split
      · rename_i hx
        rw [h.good.disjoint.valueAt_eq_some.mpr ⟨last, _, ho, hx.1, hx.2, rfl⟩]
        show o.rstat.count + delta.count - o.accountedRstat.count = o.rstat.count - o.accountedRstat.count + delta.count
        abel
      · rw [add_zero]

/-! ## Picking the segment -/

theorem setFirst_dirtyOldRstat (d : CDir) (last first : ℕ) : (d.setFirst last first).dirtyOldRstat =
    d.dirtyOldRstat.insert last ⟨first, (d.dirtyOldRstat[last]?.map Piece.value).getD .new⟩ := rfl

theorem setFirst_eq {o : OldRstat} (h : d.dirtyOldRstat[last]? = some ⟨first, o⟩) : d.setFirst last first = d := by
  have hm : d.dirtyOldRstat.insert last ⟨first, (d.dirtyOldRstat[last]?.map Piece.value).getD .new⟩ =
      d.dirtyOldRstat := by
    refine Std.ExtTreeMap.ext_getElem? fun {k} => ?_
    rw [getElem?_insert, h]
    split
    · subst ‹k = last›
      exact h.symm
    · rfl
  show { d with dirtyOldRstat := _ } = d
  rw [hm]

theorem Good.picked_head (h : d.Good) (ho : 0 < ofirst) (hl : ofirst ≤ cephNosnap) :
    Picked d (d.projectToHead ofirst).2 (d.projectToHead ofirst).1 cephNosnap := by
  have hle := h.first_le
  have hpred : pred (max ofirst d.first) = max ofirst d.first - 1 := pred_eq (by omega) (by omega)
  unfold projectToHead
  dsimp only
  split
  · rename_i hc
    have hother : ∀ k p, d.dirtyOldRstat[k]? = some p → k ≠ pred (max ofirst d.first) →
        k < d.first ∨ pred (max ofirst d.first) < p.first := fun k p hk _ => .inl (h.below hk)
    have hself : ∀ p, d.dirtyOldRstat[pred (max ofirst d.first)]? = some p → d.first ≤ p.first := by
      intro p hp
      have := h.below hp
      omega
    refine ⟨⟨h.disjoint.insert (by omega) hother, fun {k p} hk => ?_, by show max _ _ ≤ _; omega⟩, fun s => ?_,
      by omega, .inl ⟨rfl, rfl⟩⟩
    · show k < max ofirst d.first
      have hk : (d.dirtyOldRstat.insert (pred (max ofirst d.first)) _)[k]? = some p := hk
      rw [getElem?_insert] at hk
      split at hk
      · omega
      · have := h.below hk
        omega
    · unfold CDir.pending
      show (if max ofirst d.first ≤ s then _ else Option.getD (Option.map _ (valueAt (d.dirtyOldRstat.insert _ _) s)) 0) = _
      rw [h.disjoint.valueAt_insert (by omega) hother hself]
      by_cases hs : max ofirst d.first ≤ s
      · rw [if_pos hs, if_pos (by omega)]
        rfl
      · rw [if_neg hs]
        by_cases hs' : d.first ≤ s
        · rw [if_pos ⟨hs', by omega⟩, if_pos hs']
          rfl
        · rw [if_neg (by omega), if_neg hs']
  · rename_i hc
    refine ⟨⟨h.disjoint, fun {k p} hk => ?_, by show max _ _ ≤ _; omega⟩, fun s => ?_, by omega, .inl ⟨rfl, rfl⟩⟩
    · have := h.below hk
      show k < max ofirst d.first
      omega
    · unfold CDir.pending
      dsimp only
      by_cases hs : max ofirst d.first ≤ s
      · rw [if_pos hs, if_pos (by omega)]
      · rw [if_neg hs]
        by_cases hs' : d.first ≤ s
        · -- What is accounted for has nothing pending.
          have heq : d.fnode.rstat = d.fnode.accountedRstat := by
            by_contra hne
            exact hc ⟨by omega, hne⟩
          have hnone : valueAt d.dirtyOldRstat s = none := h.disjoint.valueAt_eq_none.mpr fun k p hk _ => by
            have := h.below hk
            omega
          rw [if_pos hs', hnone, heq, sub_self]
          rfl
        · rw [if_neg hs']

/-- A gap is filled. -/
theorem Good.picked_gap (h : d.Good) (hle : first ≤ last) (hlt : last < d.first)
    (hfree : ∀ x, first ≤ x → x ≤ last → valueAt d.dirtyOldRstat x = none) :
    Picked d (d.setFirst last first) first last := by
  have hnone : d.dirtyOldRstat[last]? = none := by
    refine Option.eq_none_iff_forall_ne_some.mpr fun p hp => ?_
    have := h.disjoint.valueAt_eq_none.mp (hfree last hle le_rfl) last p hp (h.disjoint.nonempty hp)
    omega
  have hother : ∀ k p, d.dirtyOldRstat[k]? = some p → k ≠ last → k < first ∨ last < p.first := by
    intro k p hk _
    by_contra hc
    have hp := h.disjoint.nonempty hk
    have := h.disjoint.valueAt_eq_none.mp (hfree (max first p.first) (by omega) (by omega)) k p hk (by omega)
    omega
  have hself : ∀ p, d.dirtyOldRstat[last]? = some p → first ≤ p.first := by
    intro p hp
    rw [hnone] at hp
    cases hp
  refine ⟨⟨h.disjoint.insert hle hother, fun {k p} hk => ?_, h.first_le⟩, fun s => ?_, hle, .inr ⟨hlt, .new, ?_⟩⟩
  · rw [setFirst_dirtyOldRstat, getElem?_insert] at hk
    split at hk
    · subst ‹k = last›
      exact hlt
    · exact h.below hk
  · unfold CDir.pending
    rw [setFirst_dirtyOldRstat, h.disjoint.valueAt_insert hle hother hself, hnone]
    show (if d.first ≤ s then _ else _) = _
    split
    · rfl
    · split
      · rename_i hx
        rw [hfree s hx.1 hx.2]
        rfl
      · rfl
  · rw [setFirst_dirtyOldRstat, getElem?_insert, if_pos rfl, hnone]
    rfl

/-- The interval around `last` is cut at both ends of what is to be changed. -/
theorem Good.cutAround {p : Piece OldRstat} (h : d.Good) (ho : 0 < ofirst) (hol : ofirst ≤ last)
    (hk : d.dirtyOldRstat[k]? = some p) (hf : p.first ≤ last) (hlk : last ≤ k) :
    Picked d (d.cutAround k p ofirst last) (max ofirst p.first) last ∧
      (∃ o, (d.cutAround k p ofirst last).dirtyOldRstat[last]? = some ⟨max ofirst p.first, o⟩) ∧
      (d.cutAround k p ofirst last).first = d.first ∧
      (∀ x, ofirst ≤ x → x < max ofirst p.first → (x ∈ (d.cutAround k p ofirst last).dirtyOldRstat ↔ x ∈ d.dirtyOldRstat)) ∧
      ∀ x, valueAt (d.cutAround k p ofirst last).dirtyOldRstat x = valueAt d.dirtyOldRstat x := by
  have hlt := h.below hk
  have hle := h.first_le
  have hpred : pred ofirst = ofirst - 1 := pred_eq ho (by omega)
  -- The cut on the left.
  obtain ⟨m, hm, hdis, hval, hmem, hkm⟩ : ∃ m, m = (if p.first < ofirst then splitAt d.dirtyOldRstat k (pred ofirst)
      else d.dirtyOldRstat) ∧ Disjoint m ∧ (∀ x, valueAt m x = valueAt d.dirtyOldRstat x) ∧
      (∀ x, x ∈ m ↔ p.first < ofirst ∧ x = ofirst - 1 ∨ x ∈ d.dirtyOldRstat) ∧ m[k]? = some ⟨max ofirst p.first, p.value⟩ := by
    refine ⟨_, rfl, ?_⟩
    split
    · rename_i hc
      have hcut := recut_splitAt h.disjoint hk (s := pred ofirst) (by omega) (by omega)
      refine ⟨hcut.disjoint, hcut.valueAt, fun x => ?_, ?_⟩
      · rw [hcut.mem, hpred]
        exact or_congr_left ⟨fun hx => ⟨hc, hx⟩, And.right⟩
      · rw [getElem?_splitAt hk, if_pos rfl, hpred, Nat.sub_add_cancel ho, max_eq_left hc.le]
    · rename_i hc
      refine ⟨h.disjoint, fun _ => rfl, fun x => ⟨.inr, fun hx => hx.resolve_left fun hx => hc hx.1⟩, ?_⟩
      rw [hk, max_eq_right (by omega)]
  -- The cut on the right.
  obtain ⟨m', hm', hdis', hval', hmem', hl'⟩ : ∃ m', m' = (if last < k then splitAt m k last else m) ∧ Disjoint m' ∧
      (∀ x, valueAt m' x = valueAt m x) ∧ (∀ x, x ∈ m' ↔ last < k ∧ x = last ∨ x ∈ m) ∧
      m'[last]? = some ⟨max ofirst p.first, p.value⟩ := by
    refine ⟨_, rfl, ?_⟩
    split
    · rename_i hc
      have hcut := recut_splitAt hdis hkm (s := last) (by show max _ _ ≤ _; omega) hc
      refine ⟨hcut.disjoint, hcut.valueAt, fun x => ?_, ?_⟩
      · rw [hcut.mem]
        exact or_congr_left ⟨fun hx => ⟨hc, hx⟩, And.right⟩
      · rw [getElem?_splitAt hkm, if_neg (by omega), if_pos rfl]
    · rename_i hc
      refine ⟨hdis, fun _ => rfl, fun x => ⟨.inr, fun hx => hx.resolve_left fun hx => hc hx.1⟩, ?_⟩
      rwa [show last = k by omega]
  have hd : d.cutAround k p ofirst last = { d with dirtyOldRstat := m' } := by
    rw [hm', hm]
    rfl
  rw [hd]
  refine ⟨⟨⟨hdis', fun {x q} hx => ?_, hle⟩, fun x => ?_, by omega, .inr ⟨by show last < d.first; omega, p.value, hl'⟩⟩,
    ⟨_, hl'⟩, rfl, fun x hx hx' => ?_, fun x => (hval' x).trans (hval x)⟩
  · show x < d.first
    rcases (hmem' x).mp (mem_iff.mpr ⟨q, hx⟩) with ⟨-, hx⟩ | hx
    · omega
    · rcases (hmem x).mp hx with ⟨-, hx⟩ | hx
      · omega
      · obtain ⟨r, hr⟩ := mem_iff.mp hx
        exact h.below hr
  · unfold CDir.pending
    dsimp only
    rw [hval', hval]
  · show x ∈ m' ↔ _
    rw [hmem', hmem]
    constructor
    · rintro (⟨-, rfl⟩ | ⟨-, rfl⟩ | hx)
      · omega
      · omega
      · exact hx
    · exact fun hx => .inr (.inr hx)

/-! ## Gaps -/

/-- What is below the segment is clear in both, or in neither. -/
theorem clear_iff (hfl : first ≤ last) (hfirst : d'.first = d.first)
    (hval : ∀ x, x < first → (valueAt d'.dirtyOldRstat x = none ↔ valueAt d.dirtyOldRstat x = none))
    (hkey : ∀ x, ofirst ≤ x → x < first → (x ∈ d'.dirtyOldRstat ↔ x ∈ d.dirtyOldRstat)) (hlast : last ∈ d'.dirtyOldRstat)
    (hbeyond : ∀ x, ofirst ≤ x → x < first → valueAt d.dirtyOldRstat x = none → ∃ k, x < k ∧ k ∈ d.dirtyOldRstat)
    (hrest : ∀ x, first ≤ x → x ≤ last → valueAt d.dirtyOldRstat x = none → (∃ k, x < k ∧ k ∈ d.dirtyOldRstat) →
      ∀ k₁ ∈ d.dirtyOldRstat, ∀ k₂ ∈ d.dirtyOldRstat, ofirst ≤ k₁ → k₁ < k₂ → x ≤ k₂) :
    Clear d' ofirst (first - 1) ↔ Clear d ofirst last := by
  constructor
  · intro h x ho hx hxf hv hk k₁ hk₁ k₂ hk₂ h₁ h₂
    by_cases hxs : x < first
    · by_contra hc
      refine hc (h x ho (by omega) (hfirst ▸ hxf) ((hval x hxs).mpr hv) ⟨last, by omega, hlast⟩ k₁ ?_ k₂ ?_ h₁ h₂)
      · exact (hkey k₁ h₁ (by omega)).mpr hk₁
      · exact (hkey k₂ (by omega) (by omega)).mpr hk₂
    · exact hrest x (by omega) hx hv hk k₁ hk₁ k₂ hk₂ h₁ h₂
  · intro h x ho hx hxf hv hk k₁ hk₁ k₂ hk₂ h₁ h₂
    by_cases hxs : x < first
    · have hv' := (hval x hxs).mp hv
      by_contra hc
      refine hc (h x ho (by omega) (hfirst ▸ hxf) hv' (hbeyond x ho hxs hv') k₁ ?_ k₂ ?_ h₁ h₂)
      · exact (hkey k₁ h₁ (by omega)).mp hk₁
      · exact (hkey k₂ (by omega) (by omega)).mp hk₂
    · omega

/-- One segment has been changed, and no other. -/
structure Segment (delta : NestInfo) (d d' : CDir) (ofirst first last : ℕ) : Prop where
  good : d'.Good
  grows {s : ℕ} : s ≤ cephNosnap → d'.pending s = d.pending s + if first ≤ s ∧ s ≤ last then delta.count else 0
  le : first ≤ last
  from_le : ofirst ≤ first
  first_le : first ≤ d'.first
  clear : Clear d' ofirst (first - 1) ↔ Clear d ofirst last

theorem Picked.clear_addTo (h : Picked d d' first last) : Clear (d'.addTo last delta) ofirst k ↔ Clear d' ofirst k := by
  have hval : ∀ x, valueAt (d'.addTo last delta).dirtyOldRstat x = none ↔ valueAt d'.dirtyOldRstat x = none := by
    intro x
    rw [h.good_addTo.disjoint.valueAt_eq_none, h.good.disjoint.valueAt_eq_none]
    have hshape (y : ℕ) := addTo_shape d' last delta y
    constructor
    · intro hall y p hy hf
      have hy' := hshape y
      rw [hy] at hy'
      obtain ⟨q, hq, hqf⟩ := Option.map_eq_some_iff.mp hy'
      exact hall y q hq (hqf ▸ hf)
    · intro hall y p hy hf
      have hy' := hshape y
      rw [hy] at hy'
      obtain ⟨q, hq, hqf⟩ := Option.map_eq_some_iff.mp hy'.symm
      exact hall y q hq (hqf ▸ hf)
  unfold Clear
  simp only [addTo_mem, addTo_first, hval]

theorem Picked.segment (h : Picked d d' first last) (ho : ofirst ≤ first) (hle : first ≤ d'.first)
    (hc : Clear d' ofirst (first - 1) ↔ Clear d ofirst last) : Segment delta d (d'.addTo last delta) ofirst first last :=
  ⟨h.good_addTo, h.grows, h.le, ho, addTo_first.symm ▸ hle, h.clear_addTo.trans hc⟩

/-- An interval that ends at `b`, and behind it two that overlap. -/
def Overlaps (d : CDir) (b : ℕ) : Prop :=
  b ∈ d.dirtyOldRstat ∧ ∃ x y p, d.dirtyOldRstat[x]? = some p ∧ y ∈ d.dirtyOldRstat ∧ b < y ∧ y < x ∧ p.first ≤ y

theorem Overlaps.not_good (h : d.Overlaps k) : ¬ d.Good := by
  intro hg
  obtain ⟨-, x, y, p, hx, hy, -, hyx, hp⟩ := h
  obtain ⟨q, hq⟩ := mem_iff.mp hy
  have := hg.disjoint.apart hq hx hyx
  omega

/-- The segment is a gap: nothing is in it, and what is in the range before it is clear. -/
theorem Good.gap (h : d.Good) (hof : ofirst ≤ first) (hle : first ≤ last) (hlt : last < d.first) (delta : NestInfo)
    (hfree : ∀ x, first ≤ x → x ≤ last → valueAt d.dirtyOldRstat x = none)
    (hbeyond : ∀ x, ofirst ≤ x → x < first → valueAt d.dirtyOldRstat x = none → ∃ k, x < k ∧ k ∈ d.dirtyOldRstat)
    (hrest : ∀ x, first ≤ x → x ≤ last → (∃ k, x < k ∧ k ∈ d.dirtyOldRstat) →
      ∀ k₁ ∈ d.dirtyOldRstat, ∀ k₂ ∈ d.dirtyOldRstat, ofirst ≤ k₁ → k₁ < k₂ → x ≤ k₂) :
    Segment delta d ((d.setFirst last first).addTo last delta) ofirst first last := by
  have hpicked := h.picked_gap hle hlt hfree
  have hval : ∀ x, x < first → (valueAt (d.setFirst last first).dirtyOldRstat x = none ↔ valueAt d.dirtyOldRstat x = none) := by
    intro x hx
    rw [hpicked.good.disjoint.valueAt_eq_none, h.disjoint.valueAt_eq_none, setFirst_dirtyOldRstat]
    constructor
    · intro hall k p hk hf
      refine hall k p ?_ hf
      rw [getElem?_insert, if_neg ?_]
      · exact hk
      · rintro rfl
        have := h.disjoint.valueAt_eq_none.mp (hfree k hle le_rfl) k p hk (h.disjoint.nonempty hk)
        omega
    · intro hall k p hk hf
      rw [getElem?_insert] at hk
      split at hk
      · cases hk
        have : first ≤ x := hf
        omega
      · exact hall k p hk hf
  refine hpicked.segment hof (by show first ≤ d.first; omega)
    (clear_iff hle rfl hval (fun x _ hx => ?_) ?_ hbeyond fun x hx hxl _ => hrest x hx hxl)
  · rw [setFirst_dirtyOldRstat, mem_insert]
    exact ⟨fun hm => hm.resolve_left (by omega), .inr⟩
  · rw [setFirst_dirtyOldRstat, mem_insert]
    exact .inl rfl

theorem beyondLast_spec (hol : ofirst ≤ last) (hall : ∀ x ∈ d.dirtyOldRstat, x < last) :
    ofirst ≤ d.beyondLast ofirst ∧ d.beyondLast ofirst ≤ last ∧
      (∀ x ∈ d.dirtyOldRstat, x < d.beyondLast ofirst ∨ x < ofirst) ∧
      (ofirst < d.beyondLast ofirst → d.beyondLast ofirst - 1 ∈ d.dirtyOldRstat) := by
  unfold beyondLast
  split
  · rename_i hm
    rw [Std.ExtTreeMap.maxKey?_eq_none_iff] at hm
    refine ⟨le_rfl, hol, fun x hx => ?_, fun hlt => absurd hlt (lt_irrefl _)⟩
    rw [hm] at hx
    cases Std.ExtTreeMap.not_mem_empty hx
  · rename_i K hm
    obtain ⟨hK, hmax⟩ := Std.ExtTreeMap.maxKey?_eq_some_iff_mem_and_forall.mp hm
    have hmax : ∀ x ∈ d.dirtyOldRstat, x ≤ K := fun x hx => Nat.isLE_compare.mp (hmax x hx)
    have := hall K hK
    split
    · refine ⟨by omega, by omega, fun x hx => .inl (Nat.lt_succ_of_le (hmax x hx)), fun _ => ?_⟩
      rwa [Nat.add_sub_cancel]
    · refine ⟨le_rfl, hol, fun x hx => .inr ?_, fun hlt => absurd hlt (lt_irrefl _)⟩
      have := hmax x hx
      omega

/-- A key is in its own interval. -/
theorem Good.ne_of_free (h : d.Good) (hk : k ∈ d.dirtyOldRstat) (hs : valueAt d.dirtyOldRstat s = none) : k ≠ s := by
  rintro rfl
  obtain ⟨p, hp⟩ := mem_iff.mp hk
  have := h.disjoint.valueAt_eq_none.mp hs k p hp (h.disjoint.nonempty hp)
  omega

/-- Nothing ends at `last` or later. -/
theorem Good.segment_end (h : d.Good) (hol : ofirst ≤ last) (hlt : last < d.first) (delta : NestInfo)
    (hall : ∀ x ∈ d.dirtyOldRstat, x < last) :
    Segment delta d ((d.setFirst last (d.beyondLast ofirst)).addTo last delta) ofirst (d.beyondLast ofirst) last := by
  obtain ⟨hof, hle, hend, hmem⟩ := beyondLast_spec hol hall
  refine h.gap hof hle hlt delta (fun x hx hxl => ?_) (fun x hox hx hv => ?_) fun x hx hxl hk => ?_
  · refine h.disjoint.valueAt_eq_none.mpr fun k p hk _ => ?_
    rcases hend k (mem_iff.mpr ⟨p, hk⟩) with hk' | hk' <;> omega
  · have hm := hmem (by omega)
    have := h.ne_of_free hm hv
    exact ⟨_, by omega, hm⟩
  · obtain ⟨k, hk, hkm⟩ := hk
    rcases hend k hkm with hk' | hk' <;> omega

/-- The interval around `last`. -/
theorem Good.segment_around {p : Piece OldRstat} (h : d.Good) (ho : 0 < ofirst) (hol : ofirst ≤ last) (delta : NestInfo)
    (hk : d.dirtyOldRstat[k]? = some p) (hf : p.first ≤ last) (hlk : last ≤ k) :
    Segment delta d (((d.cutAround k p ofirst last).setFirst last (max ofirst p.first)).addTo last delta) ofirst
      (max ofirst p.first) last := by
  obtain ⟨hpicked, ⟨o, ho'⟩, hfirst, hkey, hval⟩ := h.cutAround ho hol hk hf hlk
  have hlt := h.below hk
  rw [setFirst_eq ho']
  refine hpicked.segment (by omega) (by omega) (clear_iff hpicked.le hfirst (fun x _ => by rw [hval]) hkey
    (mem_iff.mpr ⟨_, ho'⟩) (fun x _ hx _ => ⟨k, by omega, mem_iff.mpr ⟨p, hk⟩⟩) fun x hx hxl hv => ?_)
  have := h.disjoint.valueAt_eq_none.mp hv k p hk (by omega)
  omega

/-- A gap with an interval after it: it reaches to the first interval that ends
in the range, if this is the only one before the gap. -/
theorem Good.segment_right {p q : Piece OldRstat} {y : ℕ} (h : d.Good) (hol : ofirst ≤ last)
    (hlt : last < d.first) (delta : NestInfo) (hp : lowerBound d.dirtyOldRstat last = some (k, p)) (hf : last < p.first)
    (hq : lowerBound d.dirtyOldRstat ofirst = some (y, q)) :
    Segment delta d ((d.setFirst last (if q.first ≤ last ∧ ofirst ≤ y then y + 1 else ofirst)).addTo last delta) ofirst
        (if q.first ≤ last ∧ ofirst ≤ y then y + 1 else ofirst) last ∨
      0 < y + 1 ∧ y + 1 ≤ last ∧ (if q.first ≤ last ∧ ofirst ≤ y then y + 1 else ofirst) = y + 1 ∧ ¬ Clear d ofirst last ∧
        ((d.setFirst last (y + 1)).addTo last delta).Overlaps y := by
  obtain ⟨hk, -, hkleast⟩ := lowerBound_eq_some.mp hp
  obtain ⟨hy, hoy, hyleast⟩ := lowerBound_eq_some.mp hq
  have hkp := h.disjoint.nonempty hk
  have hyq := h.disjoint.nonempty hy
  have hfree : valueAt d.dirtyOldRstat last = none := by
    refine h.disjoint.valueAt_eq_none.mpr fun x r hx hr => ?_
    by_contra hc
    have hkx := hkleast x r hx (by omega)
    rcases Nat.lt_or_gt_of_ne (show x ≠ k by rintro rfl; rw [hk] at hx; cases hx; omega) with hlt | hlt
    · omega
    · have := h.disjoint.apart hk hx hlt
      omega
  have hafter : ∃ x, last < x ∧ x ∈ d.dirtyOldRstat := ⟨k, by omega, mem_iff.mpr ⟨p, hk⟩⟩
  by_cases hc : q.first ≤ last
  · have hyl := h.disjoint.valueAt_eq_none.mp hfree y q hy hc
    rw [if_pos ⟨hc, hoy⟩]
    by_cases hex : ∃ x, x ∈ d.dirtyOldRstat ∧ y < x ∧ x < last
    · obtain ⟨x, hx, hyx, hxl⟩ := hex
      refine .inr ⟨by omega, by omega, rfl, fun hclear => ?_, ?_, last, x, ?_⟩
      · have := hclear last hol le_rfl hlt hfree hafter y (mem_iff.mpr ⟨q, hy⟩) x hx hoy hyx
        omega
      · rw [addTo_mem, setFirst_dirtyOldRstat, mem_insert]
        exact .inr (mem_iff.mpr ⟨q, hy⟩)
      · have hfirst := addTo_shape (d.setFirst last (y + 1)) last delta last
        rw [setFirst_dirtyOldRstat, getElem?_insert, if_pos rfl] at hfirst
        obtain ⟨r, hr, hrf⟩ := Option.map_eq_some_iff.mp hfirst
        have hrf : r.first = y + 1 := hrf
        refine ⟨r, hr, ?_, hyx, hxl, by omega⟩
        rw [addTo_mem, setFirst_dirtyOldRstat, mem_insert]
        exact .inr hx
    · have hex : ∀ x ∈ d.dirtyOldRstat, y < x → last ≤ x := fun x hx hyx => by
        by_contra hc
        exact hex ⟨x, hx, hyx, by omega⟩
      refine .inl (h.gap (by omega) (by omega) hlt delta (fun x hx hxl => ?_) (fun x _ hx _ => ?_) fun x hx hxl _ => ?_)
      · refine h.disjoint.valueAt_eq_none.mpr fun z r hz hr => ?_
        by_contra hc
        have := hex z (mem_iff.mpr ⟨r, hz⟩) (by omega)
        have := h.disjoint.valueAt_eq_none.mp hfree z r hz (by omega)
        omega
      · exact ⟨k, by omega, mem_iff.mpr ⟨p, hk⟩⟩
      · intro k₁ hk₁ k₂ hk₂ h₁ h₂
        obtain ⟨r, hr⟩ := mem_iff.mp hk₁
        have := hyleast k₁ r hr h₁
        have := hex k₂ hk₂ (by omega)
        omega
  · rw [if_neg (fun hh => hc hh.1)]
    have hnot : ∀ x ∈ d.dirtyOldRstat, ofirst ≤ x → last < x := by
      intro x hx hox
      obtain ⟨r, hr⟩ := mem_iff.mp hx
      have := hyleast x r hr hox
      omega
    refine .inl (h.gap le_rfl hol hlt delta (fun x hx hxl => ?_) (fun x _ hx _ => by omega) fun x hx hxl _ => ?_)
    · refine h.disjoint.valueAt_eq_none.mpr fun z r hz hr => ?_
      by_contra hc
      have := hnot z (mem_iff.mpr ⟨r, hz⟩) (by omega)
      have := h.disjoint.valueAt_eq_none.mp hfree z r hz (by omega)
      omega
    · intro k₁ hk₁ k₂ hk₂ h₁ h₂
      have := hnot k₁ hk₁ h₁
      omega

/-- The segment in `dirty_old_rstat`: it is the right one, or the range is not clear. -/
theorem Good.projectToSparse (h : d.Good) (ho : 0 < ofirst) (hol : ofirst ≤ last) (hlt : last < d.first) (delta : NestInfo) :
    ∃ first d', d.projectToSparse ofirst last = .ok (first, d') ∧
      (Segment delta d (d'.addTo last delta) ofirst first last ∨
        0 < first ∧ first ≤ last ∧ ¬ Clear d ofirst last ∧ (d'.addTo last delta).Overlaps (first - 1)) := by
  unfold CDir.projectToSparse
  cases hl : lowerBound d.dirtyOldRstat last with
  | none =>
    refine ⟨_, _, rfl, .inl (h.segment_end hol hlt delta fun x hx => ?_)⟩
    obtain ⟨p, hp⟩ := mem_iff.mp hx
    exact lowerBound_eq_none.mp hl x p hp
  | some z =>
    obtain ⟨k, p⟩ := z
    obtain ⟨hk, hlk, -⟩ := lowerBound_eq_some.mp hl
    dsimp only
    split
    · rename_i hf
      exact ⟨_, _, rfl, .inl (h.segment_around ho hol delta hk hf hlk)⟩
    · rename_i hf
      cases hq : lowerBound d.dirtyOldRstat ofirst with
      | none =>
        have := lowerBound_eq_none.mp hq k p hk
        omega
      | some y =>
        obtain ⟨y, q⟩ := y
        refine ⟨_, _, rfl, ?_⟩
        rcases h.segment_right hol hlt delta hl (by omega) hq with hs | ⟨h0, hle, hfirst, hc, hov⟩
        · exact .inl hs
        · refine .inr ?_
          dsimp only
          rw [hfirst]
          exact ⟨h0, hle, hc, hov⟩

theorem projectToHead_eq (h : ofirst ≤ d.first) : (d.projectToHead ofirst).2 = d := by
  unfold projectToHead
  dsimp only
  rw [max_eq_right h, if_neg (fun hh => absurd hh.1 (lt_irrefl _))]

/-- The current interval. -/
theorem Good.segment_head (h : d.Good) (ho : 0 < ofirst) (hol : ofirst ≤ cephNosnap) (delta : NestInfo) :
    Segment delta d ((d.projectToHead ofirst).2.addTo cephNosnap delta) ofirst (d.projectToHead ofirst).1 cephNosnap := by
  refine (h.picked_head ho hol).segment (le_max_left _ _) le_rfl ?_
  show Clear _ ofirst (max ofirst d.first - 1) ↔ _
  constructor
  · intro hc x hox hx hxf
    rw [projectToHead_eq (by omega)] at hc
    exact hc x hox (by omega) hxf
  · intro hc x hox hx hxf
    rw [projectToHead_eq (by omega)] at hxf ⊢
    exact hc x hox (hxf.le.trans h.first_le) hxf

/-! ## What stays in the map -/

theorem addTo_of_ne {x : ℕ} (hx : x ≠ last) : (d.addTo last delta).dirtyOldRstat[x]? = d.dirtyOldRstat[x]? := by
  unfold addTo
  split
  · rfl
  · split
    · rfl
    · show (d.dirtyOldRstat.insert last _)[x]? = _
      rw [getElem?_insert, if_neg hx]

/-- The keys stay, and behind a key that is not before `last` nothing changes. -/
structure Keeps (d d' : CDir) (last : ℕ) : Prop where
  first : d'.first = d.first
  mem {k : ℕ} : k ∈ d.dirtyOldRstat → k ∈ d'.dirtyOldRstat
  behind {b x : ℕ} : b ∈ d.dirtyOldRstat → last ≤ b → b < x → d'.dirtyOldRstat[x]? = d.dirtyOldRstat[x]?

theorem Keeps.addTo (h : Keeps d d' last) : Keeps d (d'.addTo last delta) last :=
  ⟨addTo_first.trans h.first, fun hk => addTo_mem.mpr (h.mem hk), fun hb hl hx =>
    (addTo_of_ne (by omega)).trans (h.behind hb hl hx)⟩

theorem Keeps.setFirst (h : Keeps d d' last) : Keeps d (d'.setFirst last k) last := by
  refine ⟨h.first, fun hk => ?_, fun hb hl hx => ?_⟩
  · rw [setFirst_dirtyOldRstat, mem_insert]
    exact .inr (h.mem hk)
  · rw [setFirst_dirtyOldRstat, getElem?_insert, if_neg (by omega)]
    exact h.behind hb hl hx

theorem Keeps.refl (d : CDir) (last : ℕ) : Keeps d d last := ⟨rfl, id, fun _ _ _ => rfl⟩

theorem keeps_cutAround {p : Piece OldRstat} (hl : lowerBound d.dirtyOldRstat last = some (k, p)) (hol : ofirst ≤ last) :
    Keeps d (d.cutAround k p ofirst last) last := by
  obtain ⟨-, hlk, hleast⟩ := lowerBound_eq_some.mp hl
  refine ⟨rfl, fun {x} hx => ?_, fun {b x} hb hlb hx => ?_⟩
  · show x ∈ if last < k then splitAt _ k last else _
    have hleft : x ∈ if p.first < ofirst then splitAt d.dirtyOldRstat k (pred ofirst) else d.dirtyOldRstat := by
      split
      · exact splitAt_mem hx
      · exact hx
    split
    · exact splitAt_mem hleft
    · exact hleft
  · obtain ⟨q, hq⟩ := mem_iff.mp hb
    have hkb := hleast b q hq hlb
    have hleft : (if p.first < ofirst then splitAt d.dirtyOldRstat k (pred ofirst) else d.dirtyOldRstat)[x]? =
        d.dirtyOldRstat[x]? := by
      split
      · refine splitAt_of_lt (by omega) ?_
        unfold pred
        omega
      · rfl
    show (if last < k then splitAt _ k last else _)[x]? = _
    split
    · exact (splitAt_of_lt (by omega) (by omega)).trans hleft
    · exact hleft

theorem projectToSparse_keeps (hol : ofirst ≤ last) (h : d.projectToSparse ofirst last = .ok (first, d')) :
    Keeps d d' last ∧ ofirst ≤ first := by
  unfold projectToSparse at h
  split at h
  · cases h
    refine ⟨(Keeps.refl d last).setFirst, ?_⟩
    unfold beyondLast
    split
    · rfl
    · split <;> omega
  · rename_i k p hl
    split at h
    · cases h
      exact ⟨(keeps_cutAround hl hol).setFirst, le_max_left _ _⟩
    · obtain ⟨q, -, hq⟩ := bind_ok.mp h
      cases hq
      refine ⟨(Keeps.refl d last).setFirst, ?_⟩
      split <;> omega

/-- Neither the beginning of the current interval nor a key goes away before the range reaches the head. -/
theorem projectSegments_keeps {fuel : ℕ} (hl : last ≠ cephNosnap) (hf : d.first ≤ cephNosnap)
    (h : projectSegments ofirst delta fuel last d = .ok d') :
    d'.first = d.first ∧ ∀ k ∈ d.dirtyOldRstat, k ∈ d'.dirtyOldRstat := by
  induction fuel generalizing last d with
  | zero => cases h
  | succ fuel ih =>
    unfold projectSegments at h
    split at h
    · cases h
      exact ⟨rfl, fun _ hk => hk⟩
    · rename_i hlo
      obtain ⟨⟨first, d₁⟩, hpick, h⟩ := bind_ok.mp h
      obtain ⟨u, hle, h⟩ := bind_ok.mp h
      have hle : first ≤ last := of_decide_eq_true (assert_ok.mp hle)
      unfold pickSegment at hpick
      rw [if_neg hl] at hpick
      have hd : d₁.first = d.first ∧ (∀ k ∈ d.dirtyOldRstat, k ∈ d₁.dirtyOldRstat) ∧ first ≤ cephNosnap := by
        split at hpick
        · cases hpick
          exact ⟨rfl, fun k hk => mem_insert.mpr (.inr hk), hf⟩
        · have hkeeps := (projectToSparse_keeps (by omega) hpick).1
          exact ⟨hkeeps.first, fun k hk => hkeeps.mem hk, by omega⟩
      obtain ⟨hfirst, hmem⟩ := ih (d := d₁.addTo last delta)
        (by unfold pred; unfold cephNosnap at hd ⊢; omega) (by rw [addTo_first, hd.1]; exact hf) h
      exact ⟨hfirst.trans (addTo_first.trans hd.1), fun k hk => hmem k (addTo_mem.mpr (hd.2.1 k hk))⟩

/-- Two intervals that overlap behind the range do so to the end. -/
theorem Overlaps.projectSegments {fuel b : ℕ} (ho : d.Overlaps b) (hlb : last ≤ b) (hlt : last < d.first)
    (hf : d.first ≤ cephNosnap) (h0 : 0 < ofirst) (h : projectSegments ofirst delta fuel last d = .ok d') : d'.Overlaps b := by
  induction fuel generalizing last d with
  | zero => cases h
  | succ fuel ih =>
    unfold CDir.projectSegments at h
    split at h
    · cases h
      exact ho
    · rename_i hlo
      obtain ⟨⟨first, d₁⟩, hpick, h⟩ := bind_ok.mp h
      obtain ⟨u, hle, h⟩ := bind_ok.mp h
      have hle : first ≤ last := of_decide_eq_true (assert_ok.mp hle)
      unfold pickSegment at hpick
      rw [if_neg (by omega), if_neg (by omega)] at hpick
      obtain ⟨hkeeps, hof⟩ := projectToSparse_keeps (by omega) hpick
      have hkeeps : Keeps d (d₁.addTo last delta) last := hkeeps.addTo
      have hpred : pred first = first - 1 := pred_eq (by omega) (by omega)
      refine ih ?_ (by omega) (by rw [hkeeps.first]; omega) (by rw [hkeeps.first]; exact hf) h
      obtain ⟨hb, x, y, p, hx, hy, hby, hyx, hp⟩ := ho
      exact ⟨hkeeps.mem hb, x, y, p, (hkeeps.behind hb hlb (by omega)).trans hx, hkeeps.mem hy, hby, hyx, hp⟩

/-! ## The loop -/

/-- The difference has grown for the snapshots of the range and for no others. -/
def Grown (d d' : CDir) (ofirst last : ℕ) (delta : NestInfo) : Prop :=
  d'.Good ∧ ∀ s ≤ cephNosnap, d'.pending s = d.pending s + if ofirst ≤ s ∧ s ≤ last then delta.count else 0

theorem Segment.grown_iff (h : Segment delta d d₁ ofirst first last) (h0 : 0 < ofirst) (hl : last ≤ cephNosnap) :
    Grown d₁ d' ofirst (pred first) delta ↔ Grown d d' ofirst last delta := by
  have hle := h.le
  have hof := h.from_le
  have hpred : pred first = first - 1 := pred_eq (by omega) (by omega)
  refine and_congr_right fun _ => forall_congr' fun s => imp_congr_right fun hs => ?_
  rw [h.grows hs, hpred, add_assoc]
  have hsum : ((if first ≤ s ∧ s ≤ last then delta.count else 0) + if ofirst ≤ s ∧ s ≤ first - 1 then delta.count else 0) =
      if ofirst ≤ s ∧ s ≤ last then delta.count else 0 := by
    by_cases hfs : first ≤ s
    · rw [if_neg (show ¬ (ofirst ≤ s ∧ s ≤ first - 1) by omega), add_zero]
      by_cases hsl : s ≤ last
      · rw [if_pos ⟨hfs, hsl⟩, if_pos ⟨by omega, hsl⟩]
      · rw [if_neg (by omega), if_neg (by omega)]
    · rw [if_neg (show ¬ (first ≤ s ∧ s ≤ last) by omega), zero_add]
      by_cases hos : ofirst ≤ s
      · rw [if_pos ⟨hos, by omega⟩, if_pos ⟨hos, by omega⟩]
      · rw [if_neg (by omega), if_neg (by omega)]
  rw [hsum]

theorem Segment.grown_of {fuel : ℕ} (h : Segment delta d (d₁.addTo last delta) ofirst first last) (hol : ofirst ≤ last)
    (hpick : d.pickSegment ofirst last = .ok (first, d₁)) :
    projectSegments ofirst delta (fuel + 1) last d = projectSegments ofirst delta fuel (pred first) (d₁.addTo last delta) := by
  conv_lhs => unfold projectSegments
  rw [if_neg (by omega), hpick]
  show (assert (decide (first ≤ last)) >>= _) = _
  rw [decide_eq_true h.le, assert_true_bind]

/-- A range that does not end in the middle of the current interval is dealt with iff it is clear. -/
theorem Good.projectSegments_iff {fuel : ℕ} (h : d.Good) (h0 : 0 < ofirst) (hl : last = cephNosnap ∨ last < d.first)
    (hpos : 0 < fuel) (hfuel : last + 1 < ofirst + fuel) :
    (∃ d', projectSegments ofirst delta fuel last d = .ok d' ∧ Grown d d' ofirst last delta) ↔ Clear d ofirst last := by
  induction fuel generalizing last d with
  | zero => cases hpos
  | succ fuel ih =>
    have hle := h.first_le
    by_cases hol : last < ofirst
    · refine ⟨fun _ x hox hx => by omega, fun _ => ⟨d, ?_, h, fun s _ => ?_⟩⟩
      · unfold CDir.projectSegments
        rw [if_pos hol]
        rfl
      · rw [if_neg (by omega), add_zero]
    · -- One segment, and the rest by induction.
      have hstep : ∀ first d₁, d.pickSegment ofirst last = .ok (first, d₁) →
          Segment delta d (d₁.addTo last delta) ofirst first last →
          ((∃ d', CDir.projectSegments ofirst delta (fuel + 1) last d = .ok d' ∧ Grown d d' ofirst last delta) ↔
            Clear d ofirst last) := by
        intro first d₁ hpick hseg
        have := hseg.le
        have := hseg.from_le
        have := hseg.first_le
        have hpred : pred first = first - 1 := pred_eq (by omega) (by omega)
        rw [hseg.grown_of (by omega) hpick, ← hseg.clear, ← hpred,
          ← ih hseg.good (.inr (by omega)) (by omega) (by omega)]
        exact exists_congr fun d' => and_congr_right fun _ => (hseg.grown_iff h0 (by omega)).symm
      by_cases hn : last = cephNosnap
      · subst hn
        exact hstep _ _ (if_pos rfl) (h.segment_head h0 (by omega) delta)
      · have hlt : last < d.first := hl.resolve_left hn
        have hpick : d.pickSegment ofirst last = d.projectToSparse ofirst last := by
          unfold pickSegment
          rw [if_neg hn, if_neg (by omega)]
        obtain ⟨first, d₁, hsparse, hseg | ⟨hf0, hfl, hclear, hover⟩⟩ := h.projectToSparse h0 (by omega) hlt delta
        · exact hstep first d₁ (hpick.trans hsparse) hseg
        · refine iff_of_false (fun hex => ?_) hclear
          obtain ⟨d', hrun, hgrown⟩ := hex
          unfold CDir.projectSegments at hrun
          rw [if_neg (by omega), hpick, hsparse] at hrun
          obtain ⟨z, hz, hrun⟩ := bind_ok.mp hrun
          cases hz
          obtain ⟨u, -, hrun⟩ := bind_ok.mp hrun
          have hkeeps := (projectToSparse_keeps (by omega) hsparse).1
          have hpred : pred first = first - 1 := pred_eq hf0 (by omega)
          have hfirst : (d₁.addTo last delta).first = d.first := addTo_first.trans hkeeps.first
          exact (hover.projectSegments (by omega) (by omega) (by omega) h0 hrun).not_good hgrown.1

/-- A range that ends in the middle of the current interval never is. -/
theorem Good.not_grown {fuel : ℕ} (hl : last < cephNosnap) (hfl : d.first ≤ last) (hol : ofirst ≤ last) :
    ¬ ∃ d', projectSegments ofirst delta fuel last d = .ok d' ∧ Grown d d' ofirst last delta := by
  rintro ⟨d', hrun, hgood, -⟩
  cases fuel with
  | zero => cases hrun
  | succ fuel =>
    unfold CDir.projectSegments at hrun
    have hpick : d.pickSegment ofirst last = .ok (d.first, d.cow last) := by
      unfold pickSegment
      rw [if_neg (by omega), if_pos hfl]
      rfl
    rw [if_neg (by omega), hpick] at hrun
    obtain ⟨z, hz, hrun⟩ := bind_ok.mp hrun
    cases hz
    obtain ⟨u, -, hrun⟩ := bind_ok.mp hrun
    have hfirst : ((d.cow last).addTo last delta).first = d.first := addTo_first
    obtain ⟨hf, hmem⟩ := projectSegments_keeps (by unfold pred; unfold cephNosnap at hl ⊢; omega) (by omega) hrun
    have hkey : last ∈ d'.dirtyOldRstat := hmem last (addTo_mem.mpr (mem_insert.mpr (.inl rfl)))
    obtain ⟨p, hp⟩ := mem_iff.mp hkey
    have := hgood.below hp
    omega

/-- After `_project_rstat_inode_to_frag`. -/
def Projects (inode : Inode) (linkunlink : ℤ) (ofirst last : ℕ) (d : CDir) : Prop :=
  ∃ i d', projectRstatInodeToFrag inode ofirst last d linkunlink = .ok (i, d') ∧
    Grown d d' ofirst last (inodeDelta inode linkunlink)

theorem projects_iff {inode : Inode} {linkunlink : ℤ} : Projects inode linkunlink ofirst last d ↔
    ∃ d', projectSegments ofirst (inodeDelta inode linkunlink) (last + 2) last d = .ok d' ∧
      Grown d d' ofirst last (inodeDelta inode linkunlink) := by
  unfold Projects projectRstatInodeToFrag
  constructor
  · rintro ⟨i, d', h, hg⟩
    obtain ⟨d₁, h₁, h⟩ := bind_ok.mp h
    cases h
    exact ⟨_, h₁, hg⟩
  · rintro ⟨d', h, hg⟩
    exact ⟨_, d', by rw [h]; rfl, hg⟩

/-- The differences grow for the range, and for nothing else, iff the range
does not end in the middle of the current interval and is clear. -/
theorem projectRstatInodeToFrag_iff (h : d.Good) (inode : Inode) (linkunlink : ℤ) (h0 : 0 < ofirst) (hol : ofirst ≤ last)
    (hl : last ≤ cephNosnap) : Projects inode linkunlink ofirst last d ↔
      (last = cephNosnap ∨ last < d.first) ∧ Clear d ofirst last := by
  rw [projects_iff]
  by_cases hr : last = cephNosnap ∨ last < d.first
  · rw [h.projectSegments_iff h0 hr (by omega) (by omega)]
    exact ⟨fun hc => ⟨hr, hc⟩, And.right⟩
  · exact iff_of_false (Good.not_grown (by omega) (by omega) hol) fun hc => hr hc.1

/-! ## Two ranges -/

/-- A file of one byte that is not accounted for. -/
def newFile : Inode := ⟨⟨0, 0, 0⟩, ⟨0, 0, (1, 1, 0, 0)⟩, .zero, 0, 0, false⟩

/-- A fragment with the intervals `[first, last]` of a list. -/
def withIntervals (first : ℕ) (l : List (ℕ × ℕ)) : CDir where
  first := first
  fnode := ⟨⟨0, 0, 0⟩, ⟨0, 0, 0⟩, .zero, .zero⟩
  dirtyOldRstat := l.foldl (fun m p => m.insert p.2 ⟨p.1, .new⟩) ∅

theorem good_withIntervals {l : List (ℕ × ℕ)} (hl : l.Pairwise fun p q => p.2 < q.1)
    (hp : ∀ p ∈ l, p.1 ≤ p.2 ∧ p.2 < first) (hf : first ≤ cephNosnap) : (withIntervals first l).Good := by
  have hfold : ∀ (m : Pieces OldRstat) (l : List (ℕ × ℕ)), Disjoint m → l.Pairwise (fun p q => p.2 < q.1) →
      (∀ p ∈ l, p.1 ≤ p.2 ∧ p.2 < first) → (∀ k q, m[k]? = some q → k < first) →
      (∀ k q, m[k]? = some q → ∀ p ∈ l, k < p.1) →
      Disjoint (l.foldl (fun m p => m.insert p.2 ⟨p.1, OldRstat.new⟩) m) ∧
        ∀ k q, (l.foldl (fun m p => m.insert p.2 ⟨p.1, OldRstat.new⟩) m)[k]? = some q → k < first := by
    intro m l
    induction l generalizing m with
    | nil => exact fun hm _ _ hb _ => ⟨hm, hb⟩
    | cons p l ih =>
      intro hm hl hp hb hk
      rw [List.pairwise_cons] at hl
      have hp0 := hp p List.mem_cons_self
      refine ih _ (hm.insert hp0.1 fun k q hkq _ => .inl (hk k q hkq p List.mem_cons_self)) hl.2
        (fun q hq => hp q (List.mem_cons_of_mem _ hq)) (fun k q hkq => ?_) fun k q hkq r hr => ?_
      · rw [getElem?_insert] at hkq
        split at hkq
        · omega
        · exact hb k q hkq
      · rw [getElem?_insert] at hkq
        split at hkq
        · exact ‹k = p.2› ▸ hl.1 r hr
        · exact hk k q hkq r (List.mem_cons_of_mem _ hr)
  obtain ⟨hdis, hbelow⟩ := hfold ∅ l disjoint_empty hl hp
    (fun k q hk => by rw [Std.ExtTreeMap.getElem?_empty] at hk; cases hk)
    fun k q hk => by rw [Std.ExtTreeMap.getElem?_empty] at hk; cases hk
  exact ⟨hdis, fun {k q} hk => hbelow k q hk, hf⟩

/-- One older interval, and the range is everything. -/
theorem projectRstatInodeToFrag_one : Projects newFile 0 1 cephNosnap (withIntervals 40 [(5, 6)]) := by
  have hgood : (withIntervals 40 [(5, 6)]).Good := good_withIntervals (by simp) (by simp) (by decide)
  refine (projectRstatInodeToFrag_iff hgood newFile 0 (by decide) (by decide) le_rfl).mpr ⟨.inl rfl, ?_⟩
  intro x _ _ _ _ _ k₁ hk₁ k₂ hk₂ _ hlt
  have hkey : ∀ k, k ∈ (withIntervals 40 [(5, 6)]).dirtyOldRstat → k = 6 := fun k hk =>
    (mem_insert.mp hk).resolve_right Std.ExtTreeMap.not_mem_empty
  rw [hkey k₁ hk₁, hkey k₂ hk₂] at hlt
  exact absurd hlt (lt_irrefl _)

/-- A range in the middle of the current interval; and a range with a gap at
its end, that has an interval after it and two before it. -/
theorem not_projectRstatInodeToFrag :
    (withIntervals 2 []).Good ∧ ¬ Projects newFile 0 5 7 (withIntervals 2 []) ∧
    (withIntervals 40 [(1, 2), (5, 6), (20, 30)]).Good ∧
      ¬ Projects newFile 0 1 15 (withIntervals 40 [(1, 2), (5, 6), (20, 30)]) := by
  have hgood : (withIntervals 40 [(1, 2), (5, 6), (20, 30)]).Good := good_withIntervals (by simp) (by simp) (by decide)
  refine ⟨good_withIntervals (by simp) (by simp) (by decide), ?_, hgood, ?_⟩
  · rw [projects_iff]
    exact Good.not_grown (by decide) (by decide) (by decide)
  · rw [projects_iff, hgood.projectSegments_iff (by decide) (.inr (by decide)) (by decide) (by decide)]
    intro hclear
    have hkey : ∀ k ∈ [2, 6, 30], k ∈ (withIntervals 40 [(1, 2), (5, 6), (20, 30)]).dirtyOldRstat := by
      intro k hk
      refine mem_insert.mpr ?_
      rw [mem_insert, mem_insert]
      simp at hk
      omega
    have hnone : valueAt (withIntervals 40 [(1, 2), (5, 6), (20, 30)]).dirtyOldRstat 15 = none := by decide +kernel
    have := hclear 15 (by decide) le_rfl (by decide) hnone ⟨30, by decide, hkey 30 (by decide)⟩ 2 (hkey 2 (by decide)) 6
      (hkey 6 (by decide)) (by decide) (by decide)
    omega

end CephMds.Versions.CDir
