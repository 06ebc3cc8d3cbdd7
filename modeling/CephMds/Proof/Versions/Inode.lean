import CephMds.Model.Versions
import Mathlib

/-!
# The versions of an inode

The versions of an inode, the current one and the older ones, are without gaps
from the oldest on (`Good`). A segment of the loop is cut out of the version around
its end (`Cut`), and then changed; the range below the oldest version is left alone.
What is cut or changed is in `dirty_old_rstats`, but for the copy of the current
version that `cow_old_inode` makes when the range begins in the middle of it.
-/

namespace CephMds.Versions.CInode

open Checked Intervals Stat

variable {pin pin' pin₁ : CInode} {ofirst first last s t k : ℕ} {delta : NestInfo}

/-- The version for a snapshot. -/
def versionAt (pin : CInode) (s : ℕ) : Option Inode :=
  if pin.first ≤ s then (if s ≤ pin.last then some pin.inode else none) else valueAt pin.oldInodes s

/-- The versions are disjoint and without gaps; there is no snapshot 0. -/
structure Good (pin : CInode) : Prop where
  disjoint : Disjoint pin.oldInodes
  below {k : ℕ} {p : Piece Inode} : pin.oldInodes[k]? = some p → k < pin.first
  contiguous {s t : ℕ} : s ≤ t → t ≤ pin.last → (pin.versionAt s).isSome → (pin.versionAt t).isSome
  zero : pin.versionAt 0 = none
  first_le : pin.first ≤ pin.last
  last_le : pin.last ≤ cephNosnap

theorem versionAt_of_lt (h : s < pin.first) : pin.versionAt s = valueAt pin.oldInodes s := if_neg (by omega)

theorem versionAt_of_le (h : pin.first ≤ s) (hs : s ≤ pin.last) : pin.versionAt s = some pin.inode := by
  unfold versionAt
  rw [if_pos h, if_pos hs]

theorem Good.first_pos (h : pin.Good) : 0 < pin.first := by
  refine Nat.pos_of_ne_zero fun h0 => ?_
  have := h.zero
  rw [versionAt_of_le (by omega) (Nat.zero_le _)] at this
  cases this

theorem Good.piece_pos {p : Piece Inode} (h : pin.Good) (hk : pin.oldInodes[k]? = some p) : 0 < p.first := by
  refine Nat.pos_of_ne_zero fun h0 => ?_
  have := h.zero
  rw [versionAt_of_lt h.first_pos, h.disjoint.valueAt_eq_none] at this
  have := this k p hk (by omega)
  omega

/-- What `Good` says of the versions does not depend on where they are cut. -/
theorem Good.congr (h : pin.Good) (hdis : Disjoint pin'.oldInodes)
    (hbelow : ∀ k p, pin'.oldInodes[k]? = some p → k < pin'.first)
    (hv : ∀ s, (pin'.versionAt s).isSome = (pin.versionAt s).isSome) (hlast : pin'.last = pin.last)
    (hf : pin'.first ≤ pin'.last) : pin'.Good := by
  refine ⟨hdis, fun {k p} => hbelow k p, fun {s t} hst ht => ?_, ?_, hf, hlast ▸ h.last_le⟩
  · rw [hv, hv]
    exact h.contiguous hst (hlast ▸ ht)
  · rw [← Option.not_isSome_iff_eq_none, hv, Option.not_isSome_iff_eq_none]
    exact h.zero

/-! ## Cuts -/

/-- The versions are cut: there is one that ends at `last`, and everything else
that was cut is dirty. -/
structure Cut (pin pin' : CInode) (first last : ℕ) : Prop where
  good : pin'.Good
  versionAt (s : ℕ) : pin'.versionAt s = pin.versionAt s
  last_eq : pin'.last = pin.last
  lt : last < pin'.first
  entry : ∃ v, pin'.oldInodes[last]? = some ⟨first, v⟩
  mono {k : ℕ} : k ∈ pin.dirtyOldRstats → k ∈ pin'.dirtyOldRstats
  listed {k : ℕ} {p : Piece Inode} : k ≠ last → pin'.oldInodes[k]? = some p →
    k ∈ pin'.dirtyOldRstats ∨ pin.oldInodes[k]? = some p

/-- The current version, copied. -/
theorem Good.cowOldInode (h : pin.Good) (hf : pin.first ≤ last) (hl : last < pin.last) :
    Cut pin (pin.cowOldInode last) pin.first last := by
  have hother : ∀ k p, pin.oldInodes[k]? = some p → k ≠ last → k < pin.first ∨ last < p.first :=
    fun k p hk _ => .inl (h.below hk)
  have hdis : Disjoint (pin.cowOldInode last).oldInodes := h.disjoint.insert hf hother
  have hv : ∀ s, (pin.cowOldInode last).versionAt s = pin.versionAt s := by
    intro s
    unfold CInode.versionAt
    show (if last + 1 ≤ s then _ else valueAt (pin.oldInodes.insert last ⟨pin.first, pin.inode⟩) s) = _
    rw [h.disjoint.valueAt_insert hf hother fun p hp => by have := h.below hp; omega]
    by_cases hs : last + 1 ≤ s
    · rw [if_pos hs, if_pos (show pin.first ≤ s by omega)]
      rfl
    · rw [if_neg hs]
      by_cases hs' : pin.first ≤ s
      · rw [if_pos ⟨hs', by omega⟩, if_pos hs', if_pos (by omega)]
      · rw [if_neg (by omega), if_neg hs']
  refine ⟨h.congr hdis (fun k p hk => ?_) (fun s => by rw [hv]) rfl hl, hv, rfl, Nat.lt_succ_self _, ⟨pin.inode, ?_⟩, id,
    fun {k p} hne hk => .inr ?_⟩
  · show k < last + 1
    have hk : (pin.oldInodes.insert last _)[k]? = some p := hk
    rw [getElem?_insert] at hk
    split at hk
    · omega
    · have := h.below hk
      omega
  · show (pin.oldInodes.insert last _)[last]? = _
    rw [getElem?_insert, if_pos rfl]
  · have hk : (pin.oldInodes.insert last _)[k]? = some p := hk
    rwa [getElem?_insert, if_neg hne] at hk

/-- The versions below the current one, cut at a point. -/
theorem Good.splitAt {p : Piece Inode} (h : pin.Good) (dirty : Finset ℕ) (hk : pin.oldInodes[k]? = some p) (hf : p.first ≤ s)
    (hs : s < k) : ({ pin with oldInodes := splitAt pin.oldInodes k s, dirtyOldRstats := dirty } : CInode).Good ∧
      ∀ x, ({ pin with oldInodes := splitAt pin.oldInodes k s, dirtyOldRstats := dirty } : CInode).versionAt x =
        pin.versionAt x := by
  have hcut := recut_splitAt h.disjoint hk hf hs
  have hv : ∀ x, ({ pin with oldInodes := Intervals.splitAt pin.oldInodes k s, dirtyOldRstats := dirty } : CInode).versionAt x =
      pin.versionAt x := by
    intro x
    unfold CInode.versionAt
    dsimp only
    rw [hcut.valueAt]
  refine ⟨h.congr hcut.disjoint (fun y q hy => ?_) (fun x => by rw [hv]) rfl h.first_le, hv⟩
  have hkf := h.below hk
  rcases (hcut.mem y).mp (mem_iff.mpr ⟨q, hy⟩) with rfl | hy
  · exact hs.trans hkf
  · obtain ⟨r, hr⟩ := mem_iff.mp hy
    exact h.below hr

/-- "Splitting right". -/
theorem Good.splitRight {p : Piece Inode} (h : pin.Good) (hk : pin.oldInodes[k]? = some p) (hf : p.first ≤ last)
    (hlk : last ≤ k) : Cut pin (pin.splitRight k last) p.first last := by
  unfold CInode.splitRight
  split
  · rename_i hlt
    obtain ⟨hgood, hv⟩ := h.splitAt (insert k pin.dirtyOldRstats) hk hf hlt
    refine ⟨hgood, hv, rfl, by have := h.below hk; show last < pin.first; omega, ⟨p.value, ?_⟩,
      Finset.mem_insert_of_mem, fun {y q} hne hy => ?_⟩
    · show (Intervals.splitAt pin.oldInodes k last)[last]? = _
      rw [getElem?_splitAt hk, if_neg (by omega), if_pos rfl]
    · have hy : (Intervals.splitAt pin.oldInodes k last)[y]? = some q := hy
      rw [getElem?_splitAt hk] at hy
      split at hy
      · exact .inl (‹y = k› ▸ Finset.mem_insert_self _ _)
      · exact .inr hy
  · obtain rfl : k = last := by omega
    exact ⟨h, fun _ => rfl, rfl, h.below hk, ⟨p.value, hk⟩, id, fun _ hy => .inr hy⟩

/-- "Splitting left". -/
theorem Cut.splitLeft (h : Cut pin pin₁ first last) (ofirst : ℕ) (hol : ofirst ≤ last) :
    Cut pin (pin₁.splitLeft first ofirst last).2 (pin₁.splitLeft first ofirst last).1 last ∧
      (pin₁.splitLeft first ofirst last).1 = max ofirst first := by
  unfold CInode.splitLeft
  split
  · rename_i hlt
    obtain ⟨v, hv⟩ := h.entry
    have := h.good.last_le
    have := h.good.first_le
    have := h.lt
    have hpred : pred ofirst = ofirst - 1 := pred_eq (by omega) (by omega)
    obtain ⟨hgood, hver⟩ := h.good.splitAt (insert (pred ofirst) pin₁.dirtyOldRstats) hv (s := pred ofirst)
      (by show first ≤ _; omega) (by omega)
    refine ⟨⟨hgood, fun s => (hver s).trans (h.versionAt s), h.last_eq, h.lt, ⟨v, ?_⟩,
      fun hk => Finset.mem_insert_of_mem (h.mono hk), fun {y q} hne hy => ?_⟩, (max_eq_left hlt.le).symm⟩
    · show (Intervals.splitAt pin₁.oldInodes last (pred ofirst))[last]? = _
      rw [getElem?_splitAt hv, if_pos rfl, hpred, Nat.sub_add_cancel (by omega)]
    · have hy : (Intervals.splitAt pin₁.oldInodes last (pred ofirst))[y]? = some q := hy
      rw [getElem?_splitAt hv, if_neg hne] at hy
      split at hy
      · exact .inl (‹y = pred ofirst› ▸ Finset.mem_insert_self _ _)
      · exact (h.listed hne hy).imp_left Finset.mem_insert_of_mem
  · exact ⟨h, (max_eq_right (by omega)).symm⟩

/-! ## A segment -/

/-- The versions of a range have grown, and no others. -/
def Grown (pin pin' : CInode) (ofirst last : ℕ) (delta : NestInfo) : Prop :=
  ∀ s, pin'.versionAt s = (pin.versionAt s).map fun v =>
    if ofirst ≤ s ∧ s ≤ last then { v with rstat := v.rstat.add delta } else v

/-- What has changed is dirty. -/
structure Listed (pin pin' : CInode) : Prop where
  mono {k : ℕ} : k ∈ pin.dirtyOldRstats → k ∈ pin'.dirtyOldRstats
  listed {k : ℕ} {p : Piece Inode} : pin'.oldInodes[k]? = some p → k ∈ pin'.dirtyOldRstats ∨ pin.oldInodes[k]? = some p

theorem Listed.trans (h : Listed pin pin₁) (h' : Listed pin₁ pin') : Listed pin pin' :=
  ⟨fun hk => h'.mono (h.mono hk), fun hk => (h'.listed hk).elim .inl fun hk => (h.listed hk).imp_left h'.mono⟩

theorem Grown.trans (h : Grown pin pin₁ first last delta) (h' : Grown pin₁ pin' ofirst (first - 1) delta)
    (hof : ofirst ≤ first) (hle : first ≤ last) (h0 : 0 < first) : Grown pin pin' ofirst last delta := by
  intro s
  rw [h' s, h s, Option.map_map]
  refine congrArg (fun f => (pin.versionAt s).map f) (funext fun v => ?_)
  dsimp only [Function.comp]
  by_cases hfs : first ≤ s
  · rw [if_neg (show ¬ (ofirst ≤ s ∧ s ≤ first - 1) by omega)]
    by_cases hsl : s ≤ last
    · rw [if_pos ⟨hfs, hsl⟩, if_pos ⟨by omega, hsl⟩]
    · rw [if_neg (by omega), if_neg (by omega)]
  · rw [if_neg (show ¬ (first ≤ s ∧ s ≤ last) by omega)]
    by_cases hos : ofirst ≤ s
    · rw [if_pos ⟨hos, by omega⟩, if_pos ⟨hos, by omega⟩]
    · rw [if_neg (by omega), if_neg (by omega)]

/-- An old version is changed. -/
theorem Cut.addToOld (h : Cut pin pin₁ first last) (hle : first ≤ last) (delta : NestInfo) :
    (pin₁.addToOld last delta).Good ∧ Grown pin (pin₁.addToOld last delta) first last delta ∧
      Listed pin (pin₁.addToOld last delta) ∧ (pin₁.addToOld last delta).last = pin.last ∧
      (pin₁.addToOld last delta).first = pin₁.first := by
  obtain ⟨v, hv⟩ := h.entry
  have heq : pin₁.addToOld last delta = { pin₁ with
      oldInodes := pin₁.oldInodes.insert last ⟨first, { v with rstat := v.rstat.add delta }⟩
      dirtyOldRstats := insert last pin₁.dirtyOldRstats } := by
    unfold CInode.addToOld
    rw [hv]
  have hother : ∀ k p, pin₁.oldInodes[k]? = some p → k ≠ last → k < first ∨ last < p.first := by
    intro k p hk hne
    rcases Nat.lt_or_gt_of_ne hne with hk' | hk'
    · exact .inl (h.good.disjoint.apart hk hv hk')
    · exact .inr (h.good.disjoint.apart hv hk hk')
  have hself : ∀ p, pin₁.oldInodes[last]? = some p → first ≤ p.first := by
    intro p hp
    rw [hv] at hp
    cases hp
    exact le_rfl
  have hlt := h.lt
  have hgrown : Grown pin (pin₁.addToOld last delta) first last delta := by
    intro s
    rw [heq, ← h.versionAt]
    unfold CInode.versionAt
    dsimp only
    by_cases hf : pin₁.first ≤ s
    · simp only [if_pos hf, if_neg (show ¬ (first ≤ s ∧ s ≤ last) by omega), Option.map_id']
    · rw [if_neg hf, if_neg hf, h.good.disjoint.valueAt_insert hle hother hself]
      split
      · rename_i hx
        rw [h.good.disjoint.valueAt_eq_some.mpr ⟨last, _, hv, hx.1, hx.2, rfl⟩]
        rfl
      · rw [Option.map_id']
  have hsome : ∀ s, ((pin₁.addToOld last delta).versionAt s).isSome = (pin₁.versionAt s).isSome := by
    intro s
    rw [hgrown s, Option.isSome_map, h.versionAt]
  refine ⟨?_, hgrown, ?_, ?_, ?_⟩
  · refine h.good.congr ?_ (fun k p hk => ?_) hsome ?_ ?_
    · rw [heq]
      exact h.good.disjoint.insert hle hother
    · rw [heq] at hk ⊢
      dsimp only at hk ⊢
      rw [getElem?_insert] at hk
      split at hk
      · omega
      · exact h.good.below hk
    · rw [heq]
    · rw [heq]
      exact h.good.first_le
  · rw [heq]
    refine ⟨fun hk => Finset.mem_insert_of_mem (h.mono hk), fun {k p} hk => ?_⟩
    dsimp only at hk ⊢
    rw [getElem?_insert] at hk
    split at hk
    · exact .inl (‹k = last› ▸ Finset.mem_insert_self _ _)
    · exact (h.listed ‹_› hk).imp_left Finset.mem_insert_of_mem
  · rw [heq]
    exact h.last_eq
  · rw [heq]

/-- There is nothing below a point without a version. -/
theorem Good.grown_none (h : pin.Good) (hl : last ≤ pin.last) (hn : pin.versionAt last = none) (delta : NestInfo) :
    Grown pin pin ofirst last delta := by
  intro s
  by_cases hs : s ≤ last
  · have hnone : pin.versionAt s = none := by
      rw [← Option.not_isSome_iff_eq_none]
      intro hsome
      have := h.contiguous hs hl hsome
      rw [hn] at this
      cases this
    rw [hnone]
    rfl
  · simp only [if_neg (show ¬ (ofirst ≤ s ∧ s ≤ last) by omega), Option.map_id']

/-- The old version that ends at `last` is cut out, or there is none. -/
theorem Good.pickOld (h : pin.Good) (hl : last < pin.last) :
    pin.pickOld last = none ∧ pin.versionAt last = none ∨
      ∃ first pin₁, pin.pickOld last = some (first, pin₁) ∧ Cut pin pin₁ first last ∧ 0 < first ∧ first ≤ last := by
  unfold CInode.pickOld
  split
  · rename_i hf
    exact .inr ⟨_, _, rfl, h.cowOldInode hf hl, h.first_pos, hf⟩
  · rename_i hf
    have hv : pin.versionAt last = valueAt pin.oldInodes last := versionAt_of_lt (by omega)
    cases hp : lowerBound pin.oldInodes last with
    | none =>
      refine .inl ⟨rfl, ?_⟩
      rw [hv]
      exact h.disjoint.valueAt_eq_none.mpr fun k p hk _ => lowerBound_eq_none.mp hp k p hk
    | some z =>
      obtain ⟨k, p⟩ := z
      obtain ⟨hk, hlk, hleast⟩ := lowerBound_eq_some.mp hp
      dsimp only
      split
      · rename_i hlt
        refine .inl ⟨rfl, ?_⟩
        rw [hv, h.disjoint.valueAt_eq_none]
        intro y q hy hq
        by_contra hc
        have hky := hleast y q hy (by omega)
        rcases Nat.lt_or_gt_of_ne (show k ≠ y by rintro rfl; rw [hk] at hy; cases hy; omega) with hne | hne
        · have := h.disjoint.apart hk hy hne
          omega
        · omega
      · exact .inr ⟨_, _, rfl, h.splitRight hk (by omega) hlk, h.piece_pos hk, by omega⟩

/-- The part of the range below the end of the current version. -/
theorem Good.projectSegments {fuel : ℕ} (h : pin.Good) (ofirst : ℕ) (hl : last < pin.last) (hfuel : last < fuel) (delta : NestInfo) :
    ∃ pin', projectSegments ofirst delta fuel last pin = .ok pin' ∧ pin'.Good ∧ Grown pin pin' ofirst last delta ∧
      Listed pin pin' ∧ pin'.last = pin.last := by
  induction fuel generalizing last pin with
  | zero => omega
  | succ fuel ih =>
    unfold CInode.projectSegments
    have hrefl : Listed pin pin := ⟨id, .inr⟩
    by_cases hol : last < ofirst
    · rw [if_pos hol]
      refine ⟨pin, rfl, h, fun s => ?_, hrefl, rfl⟩
      simp only [if_neg (show ¬ (ofirst ≤ s ∧ s ≤ last) by omega), Option.map_id']
    · rw [if_neg hol, if_neg hl.ne]
      rcases h.pickOld hl with ⟨hp, hn⟩ | ⟨first, pin₁, hp, hcut, h0, hle⟩
      · rw [hp]
        exact ⟨pin, rfl, h, h.grown_none hl.le hn delta, hrefl, rfl⟩
      · rw [hp]
        dsimp only
        obtain ⟨hleft, hfirst⟩ := hcut.splitLeft ofirst (by omega)
        rw [hfirst] at hleft ⊢
        obtain ⟨hgood, hgrown, hlisted, hlast, -⟩ := hleft.addToOld (by omega) delta
        have := h.last_le
        have hpred : pred (max ofirst first) = max ofirst first - 1 := pred_eq (by omega) (by omega)
        rw [hpred]
        obtain ⟨pin', hrun, hgood', hgrown', hlisted', hlast'⟩ := ih hgood (show max ofirst first - 1 < _ by omega) (by omega)
        exact ⟨pin', hrun, hgood', hgrown.trans hgrown' (le_max_left _ _) (by omega) (by omega),
          hlisted.trans hlisted', hlast'.trans hlast⟩

/-- The current version is changed. -/
theorem Good.addToHead (h : pin.Good) (delta : NestInfo) :
    (pin.addToHead delta).Good ∧ Grown pin (pin.addToHead delta) pin.first pin.last delta := by
  have hgrown : Grown pin (pin.addToHead delta) pin.first pin.last delta := by
    intro s
    unfold CInode.versionAt
    show (if pin.first ≤ s then _ else _) = _
    by_cases hf : pin.first ≤ s
    · by_cases hs : s ≤ pin.last
      · simp only [if_pos hf, if_pos hs, if_pos (show pin.first ≤ s ∧ s ≤ pin.last from ⟨hf, hs⟩)]
        exact if_pos hs
      · simp only [if_pos hf, if_neg hs]
        exact if_neg hs
    · simp only [if_neg hf, if_neg (show ¬ (pin.first ≤ s ∧ s ≤ pin.last) by omega), Option.map_id']
      rfl
  exact ⟨h.congr h.disjoint (fun k p => h.below) (fun s => by rw [hgrown s, Option.isSome_map]) rfl h.first_le, hgrown⟩

/-- What `project_rstat_frag_to_inode` does: the versions of the range have
grown, and what was changed or cut is dirty, but for the copy of the current version. -/
theorem projectRstatFragToInode_spec (h : pin.Good) (ofirst : ℕ) (hl : last ≤ pin.last) (rstat accountedRstat : NestInfo) :
    ∃ pin', projectRstatFragToInode rstat accountedRstat ofirst last pin = .ok pin' ∧ pin'.Good ∧ pin'.last = pin.last ∧
      Grown pin pin' ofirst last (rstat.sub accountedRstat) ∧
      pin.dirtyOldRstats ⊆ pin'.dirtyOldRstats ∧
      ∀ k p, pin'.oldInodes[k]? = some p → k ∈ pin'.dirtyOldRstats ∨ pin.oldInodes[k]? = some p ∨
        last = pin.last ∧ k + 1 = ofirst ∧ p = ⟨pin.first, pin.inode⟩ := by
  unfold projectRstatFragToInode
  rcases Nat.lt_or_eq_of_le hl with hlt | rfl
  · obtain ⟨pin', hrun, hgood, hgrown, hlisted, hlast⟩ :=
      h.projectSegments ofirst hlt (show last < last + 2 by omega) (rstat.sub accountedRstat)
    exact ⟨pin', hrun, hgood, hlast, hgrown, fun k hk => hlisted.mono hk, fun k p hk => (hlisted.listed hk).imp_right .inl⟩
  · have hle := h.last_le
    have hfl := h.first_le
    have h0 := h.first_pos
    unfold CInode.projectSegments
    by_cases hol : pin.last < ofirst
    · rw [if_pos hol]
      refine ⟨pin, rfl, h, rfl, fun s => ?_, fun _ hk => hk, fun _ _ hk => .inr (.inl hk)⟩
      simp only [if_neg (show ¬ (ofirst ≤ s ∧ s ≤ pin.last) by omega), Option.map_id']
    · rw [if_neg hol, if_pos rfl]
      dsimp only
      have hpred : pred (max ofirst pin.first) = max ofirst pin.first - 1 := pred_eq (by omega) (by omega)
      by_cases hf : pin.first < ofirst
      · -- The range begins in the current version.
        rw [max_eq_left hf.le] at hpred ⊢
        rw [if_pos hf, hpred]
        have hcut := h.cowOldInode (show pin.first ≤ ofirst - 1 by omega) (by omega)
        obtain ⟨hgood, hgrown⟩ := hcut.good.addToHead (rstat.sub accountedRstat)
        refine ⟨(pin.cowOldInode (ofirst - 1)).addToHead _, ?_, hgood, rfl, fun s => ?_, fun _ hk => hk, fun k p hk => .inr ?_⟩
        · unfold CInode.projectSegments
          rw [if_pos (by omega)]
          rfl
        · rw [hgrown s, hcut.versionAt]
          have hfirst : (pin.cowOldInode (ofirst - 1)).first = ofirst := Nat.sub_add_cancel (by omega)
          have hlast : (pin.cowOldInode (ofirst - 1)).last = pin.last := rfl
          rw [hfirst, hlast]
        · have hk : (pin.oldInodes.insert (ofirst - 1) ⟨pin.first, pin.inode⟩)[k]? = some p := hk
          rw [getElem?_insert] at hk
          split at hk
          · cases hk
            exact .inr ⟨rfl, by omega, rfl⟩
          · exact .inl hk
      · rw [max_eq_right (by omega)] at hpred ⊢
        rw [if_neg (lt_irrefl _), hpred]
        obtain ⟨hgood, hgrown⟩ := h.addToHead (rstat.sub accountedRstat)
        obtain ⟨pin', hrun, hgood', hgrown', hlisted, hlast⟩ := hgood.projectSegments ofirst
          (show pin.first - 1 < pin.last by omega) (show pin.first - 1 < pin.last + 1 by omega) (rstat.sub accountedRstat)
        exact ⟨pin', hrun, hgood', hlast, hgrown.trans hgrown' (by omega) hfl h0, fun k hk => hlisted.mono hk,
          fun k p hk => (hlisted.listed hk).imp_right .inl⟩

/-! ## Two versions -/

def emptyDir : Inode := ⟨⟨0, 0, 0⟩, .zero, .zero, 0, 0, false⟩

/-- An empty directory with a version for `[3, 9]`. -/
def twoVersions : CInode where
  first := 10
  last := cephNosnap
  inode := emptyDir
  oldInodes := (∅ : Pieces Inode).insert 9 ⟨3, emptyDir⟩
  dirtyOldRstats := ∅

theorem good_twoVersions : twoVersions.Good := by
  have hdis : Disjoint twoVersions.oldInodes := disjoint_empty.insert (by decide) fun k p hk => by
    rw [Std.ExtTreeMap.getElem?_empty] at hk
    cases hk
  have hkey : ∀ k p, twoVersions.oldInodes[k]? = some p → k = 9 ∧ p = ⟨3, emptyDir⟩ := by
    intro k p hk
    have hk : ((∅ : Pieces Inode).insert 9 ⟨3, emptyDir⟩)[k]? = some p := hk
    rw [getElem?_insert] at hk
    split at hk
    · cases hk
      exact ⟨‹k = 9›, rfl⟩
    · rw [Std.ExtTreeMap.getElem?_empty] at hk
      cases hk
  have hin : twoVersions.oldInodes[9]? = some ⟨3, emptyDir⟩ := by
    show ((∅ : Pieces Inode).insert 9 _)[9]? = _
    rw [getElem?_insert, if_pos rfl]
  have hnone : ∀ s, s < 3 → twoVersions.versionAt s = none := by
    intro s hs
    rw [versionAt_of_lt (by show s < 10; omega), hdis.valueAt_eq_none]
    intro k p hk hp
    rw [(hkey k p hk).2] at hp
    have : 3 ≤ s := hp
    omega
  refine ⟨hdis, fun {k p} hk => ?_, fun {s t} hst ht hs => ?_, hnone 0 (by decide), by decide, le_rfl⟩
  · rw [(hkey k p hk).1]
    decide
  · have h3 : 3 ≤ s := by
      by_contra hc
      rw [hnone s (by omega)] at hs
      cases hs
    by_cases ht' : t < 10
    · rw [versionAt_of_lt ht', hdis.valueAt_eq_some.mpr ⟨9, _, hin, by show 3 ≤ t; omega, by omega, rfl⟩]
      rfl
    · rw [versionAt_of_le (by show 10 ≤ t; omega) ht]
      rfl

/-- A byte is added from the snapshot 5 on. -/
theorem projectRstatFragToInode_two : ∃ pin', projectRstatFragToInode ⟨0, 0, (1, 1, 0, 0)⟩ .zero 5 cephNosnap twoVersions =
      .ok pin' ∧ pin'.versionAt 4 = some emptyDir ∧
    (pin'.versionAt 5).map (fun v => v.rstat.count) = some (1, 1, 0, 0) ∧
    (pin'.versionAt 11).map (fun v => v.rstat.count) = some (1, 1, 0, 0) := by
  have hl : cephNosnap ≤ twoVersions.last := le_rfl
  obtain ⟨pin', hrun, -, -, hgrown, -⟩ :=
    projectRstatFragToInode_spec good_twoVersions 5 hl ⟨0, 0, (1, 1, 0, 0)⟩ .zero
  refine ⟨pin', hrun, (hgrown 4).trans ?_, ?_, ?_⟩
  · rw [show twoVersions.versionAt 4 = some emptyDir by decide +kernel]
    rfl
  · rw [hgrown 5, show twoVersions.versionAt 5 = some emptyDir by decide +kernel]
    rfl
  · rw [hgrown 11, show twoVersions.versionAt 11 = some emptyDir by decide +kernel]
    rfl

/-- A byte is added from the snapshot 12 on: the copy `[10, 11]` of the current version, whose bounds are
new, is not dirty. -/
theorem not_projectRstatFragToInode_listed : ¬ ∀ (pin pin' : CInode) (ofirst last : ℕ) (rstat accountedRstat : NestInfo),
    pin.Good → last ≤ pin.last → projectRstatFragToInode rstat accountedRstat ofirst last pin = .ok pin' →
      ∀ k p, pin'.oldInodes[k]? = some p → k ∈ pin'.dirtyOldRstats ∨ pin.oldInodes[k]? = some p := by
  intro h
  have hrun : projectRstatFragToInode ⟨0, 0, (1, 1, 0, 0)⟩ .zero 12 cephNosnap twoVersions =
      .ok ((twoVersions.cowOldInode 11).addToHead ⟨0, 0, (1, 1, 0, 0)⟩) := by
    unfold projectRstatFragToInode CInode.projectSegments
    rw [if_neg (by decide), if_pos (show cephNosnap = twoVersions.last from rfl)]
    show CInode.projectSegments 12 _ (cephNosnap + 1) 11 _ = _
    unfold CInode.projectSegments
    rw [if_pos (by decide)]
    rfl
  have hcopy := h twoVersions _ 12 cephNosnap _ _ good_twoVersions le_rfl hrun 11 ⟨10, emptyDir⟩
  have hin : ((twoVersions.cowOldInode 11).addToHead ⟨0, 0, (1, 1, 0, 0)⟩).oldInodes[11]? = some ⟨10, emptyDir⟩ := by
    show (twoVersions.oldInodes.insert 11 _)[11]? = _
    rw [getElem?_insert, if_pos rfl]
    rfl
  rcases hcopy hin with hdirty | hold
  · cases hdirty
  · have hne : ((∅ : Pieces Inode).insert 9 ⟨3, emptyDir⟩)[11]? = some ⟨10, emptyDir⟩ := hold
    rw [getElem?_insert, if_neg (by decide), Std.ExtTreeMap.getElem?_empty] at hne
    cases hne

end CephMds.Versions.CInode
