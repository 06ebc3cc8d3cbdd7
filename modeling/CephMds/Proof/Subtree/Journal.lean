import CephMds.Proof.Subtree.Reachable
import CephMds.Proof.Subtree.SubtreeMap
import Mathlib

/-!
# The journaled subtree map and the live one

`Projection` says what the loop over the projected renames needs of the two
trees. The loop takes each renamed fragment from root to root (`cur`), and a
fragment that leaves its root takes bounds along (`Projection.stage_root`,
`Projection.stage_mid`), so that at the end each bound is listed where the
projected tree has it (`Projection.marked`). If the projected renames do not
get into each other's way (`Settled`), the journaled map covers what is mine
after the renames (`createSubtreeMap_mine`).
-/

namespace CephMds

open Checked

/-! ## Projected renames -/

namespace Cache

open SubtreeMap Forest

variable {ι α L : Type} [LinearOrder α]

section Marks

variable (c : Cache ι α L) (proj : DirTree ι α) (D : α → Prop)

/-- The fragment goes to another root. -/
def Crosses (d : α) : Prop := D d ∧ proj.forest.above c.isSubtreeRoot d ≠ c.rootAbove d

/-- It goes to a root with another authority, and becomes one itself. -/
def Splits (d : α) : Prop := c.isSubtreeRoot d = false ∧ D d ∧
  (c.rootAbove d).map c.dirAuth ≠ (proj.forest.above c.isSubtreeRoot d).map c.dirAuth

open Classical in
noncomputable def hungMark (d : α) : Bool := c.isSubtreeRoot d || D d

open Classical in
/-- The roots after the renames. -/
noncomputable def splitMark (d : α) : Bool := c.isSubtreeRoot d || Splits c proj D d

/-- The fragment `d` takes the bound `b` along. -/
def Moves (d b : α) : Prop :=
  Crosses c proj D d ∧ c.isSubtreeRoot d = false ∧
    ∃ O q, c.rootAbove d = some O ∧ b ∈ c.bounds O ∧ c.getParentDir b = some q ∧ contains proj d q = true

end Marks

/-- What the loop needs of a fragment that a rename takes from `O` to `N`. -/
def Goes (c : Cache ι α L) (proj : DirTree ι α) (B : α → Prop) (O N d : α) : Prop :=
  c.isSubtreeRoot d = true ∨ B d ∧ c.dirAuth O = c.dirAuth N ∨
    c.rootAbove d = some O ∧ proj.forest.above c.isSubtreeRoot d = some N

/-- The fragments of `D` have other parents in the projected tree, which have
the authority there that they have now. Those of `B` have no bounds and stay
in subtrees of one authority. The others are below their root still before
they are renamed, and a bound is taken along by one fragment only, to the root
that it is below then. -/
structure Projection (c : Cache ι α L) (proj : DirTree ι α) (D B : α → Prop) : Prop where
  inv : Inv c
  rehung : Rehung c.tree.forest proj.forest D
  authority {d n : α} : D d → proj.forest.parent d = some n →
    (c.getProjectedSubtreeRoot proj n).map c.dirAuth = c.rootAuth n
  bare {d : α} : B d → c.isSubtreeRoot d = false ∧
    (c.rootAbove d).map c.dirAuth = (proj.forest.above c.isSubtreeRoot d).map c.dirAuth ∧
    ∀ b q, c.isSubtreeRoot b = true → c.getParentDir b = some q → contains proj d q = false
  parent {d o : α} : D d → ¬ B d → c.getParentDir d = some o →
    c.getProjectedSubtreeRoot proj o = c.getSubtreeRoot o
  taken {d b : α} : Moves c proj D d b →
    (c.getParentDir b).bind (c.getProjectedSubtreeRoot proj) = proj.forest.above c.isSubtreeRoot d
  alone {d e b : α} : Moves c proj D d b → Moves c proj D e b → d = e

variable {c : Cache ι α L} {proj : DirTree ι α} {D B : α → Prop} {b d e q O N x : α}

omit [LinearOrder α] in
theorem hungMark_iff : hungMark c D d = true ↔ c.isSubtreeRoot d = true ∨ D d := by
  simp [hungMark]

omit [LinearOrder α] in
theorem splitMark_iff : splitMark c proj D d = true ↔ c.isSubtreeRoot d = true ∨ Splits c proj D d := by
  simp [splitMark]

omit [LinearOrder α] in
theorem splitMark_of_root (h : c.isSubtreeRoot d = true) : splitMark c proj D d = true :=
  splitMark_iff.mpr (.inl h)

omit [LinearOrder α] in
theorem Splits.crosses (h : Splits c proj D d) : Crosses c proj D d :=
  ⟨h.2.1, fun he => h.2.2 (by rw [he])⟩

namespace Projection

variable (h : Projection c proj D B)
include h

/-- Where the fragment or bound `b` is after the renames, from where it is now. -/
theorem nearest_split (x : α) :
    c.getProjectedSubtreeRoot proj x = c.getSubtreeRoot x ∧
      proj.forest.nearest (splitMark c proj D) x = c.getSubtreeRoot x ∨
    ∃ d, D d ∧ c.isSubtreeRoot d = false ∧ proj.forest.nearest (hungMark c D) x = some d ∧
      c.getSubtreeRoot x = c.rootAbove d ∧
      c.getProjectedSubtreeRoot proj x = proj.forest.above c.isSubtreeRoot d ∧
      proj.forest.nearest (splitMark c proj D) x =
        if splitMark c proj D d then some d else proj.forest.above c.isSubtreeRoot d :=
  h.rehung.nearest_split (g := Option.map c.dirAuth) (fun _ => splitMark_of_root)
    (fun _ hs => (splitMark_iff.mp hs).imp_right And.right) (fun _ _ => h.authority) (fun _ => hungMark_iff) x

theorem above_split (hD : D d) :
    proj.forest.above (splitMark c proj D) d = proj.forest.above c.isSubtreeRoot d :=
  h.rehung.above_split (g := Option.map c.dirAuth) (fun _ => splitMark_of_root)
    (fun _ hs => (splitMark_iff.mp hs).imp_right And.right) (fun _ _ => h.authority) hD

theorem not_splits (hB : B d) : ¬ Splits c proj D d := fun hs => hs.2.2 (h.bare hB).2.1

theorem not_moves (hB : B d) : ¬ Moves c proj D d b := by
  rintro ⟨-, -, O, q, -, hb, hq, hc⟩
  rw [(h.bare hB).2.2 b q (h.inv.mem_bounds' hb).2.1 hq] at hc
  cases hc

/-- A bound that is taken along is a root that keeps its parent. -/
theorem moved (hm : Moves c proj D d b) : c.isSubtreeRoot b = true ∧ c.rootAbove b = c.rootAbove d ∧ ¬ D b := by
  have htaken := h.taken hm
  obtain ⟨hd, -, O, q, hO, hb, hq, -⟩ := hm
  obtain ⟨-, hroot, q', hq', hr⟩ := h.inv.mem_bounds' hb
  obtain rfl := Option.some.inj (hq.symm.trans hq')
  refine ⟨hroot, ((h.inv.mem_bounds O b).mp hb).2.trans hO.symm, fun hD => ?_⟩
  have hB : ¬ B b := fun hB => absurd ((h.bare hB).1.symm.trans hroot) (by decide)
  rw [hq, Option.bind_some, h.parent hD hB hq, hr, ← hO] at htaken
  exact hd.2 htaken.symm

/-- Where such a bound ends. -/
theorem above_of_moves (hm : Moves c proj D d b) : proj.forest.above (splitMark c proj D) b =
    if splitMark c proj D d then some d else proj.forest.above c.isSubtreeRoot d := by
  have htaken := h.taken hm
  obtain ⟨-, -, hD⟩ := h.moved hm
  obtain ⟨hd, hr, O, q, hO, hb, hq, hc⟩ := id hm
  obtain ⟨-, hroot, q', hq', hR⟩ := h.inv.mem_bounds' hb
  obtain rfl := Option.some.inj (hq.symm.trans hq')
  rw [hq, Option.bind_some] at htaken
  rw [proj.forest.above_of_parent ((h.rehung b hD).trans hq)]
  rcases h.nearest_split q with ⟨hsame, -⟩ | ⟨e, hDe, hre, hk, hRe, hPe, hs⟩
  · rw [htaken, hR, ← hO] at hsame
    exact absurd hsame hd.2
  · have he : Moves c proj D e b := by
      refine ⟨⟨hDe, fun heq => hd.2 ?_⟩, hre, O, q, hRe.symm.trans hR, hb, hq, contains_of_nearest hk⟩
      rw [← htaken, hPe, heq, ← hRe, hR, hO]
    rw [hs, h.alone he hm]

/-- A root that is neither renamed nor taken along is where it was. -/
theorem above_of_unmoved (hb : c.isSubtreeRoot b = true) (hD : ¬ D b) (hn : ∀ d, ¬ Moves c proj D d b) :
    proj.forest.above (splitMark c proj D) b = c.rootAbove b := by
  have hp := h.rehung b hD
  cases hq : c.tree.forest.parent b with
  | none => rw [rootAbove, Forest.above, Forest.above, hp, hq]; rfl
  | some q =>
    rw [proj.forest.above_of_parent (hp.trans hq), rootAbove_of_parent hq]
    rcases h.nearest_split q with ⟨-, hs⟩ | ⟨e, hDe, hre, hk, hR, hP, hs⟩
    · exact hs
    · obtain ⟨O, hO⟩ := h.inv.rootAbove_isSome hb hq
      have heO : c.rootAbove e = some O := by rw [← hR, ← rootAbove_of_parent hq, hO]
      have hsame : proj.forest.above c.isSubtreeRoot e = c.rootAbove e := by
        refine not_not.mp fun hne => hn e ⟨⟨hDe, hne⟩, hre, O, q, heO, ?_, hq, contains_of_nearest hk⟩
        exact (h.inv.mem_bounds O b).mpr ⟨hb, hO⟩
      rw [hs, if_neg, hsame, hR]
      exact fun hse => (splitMark_iff.mp hse).elim (by simp [hre]) fun hse => hse.crosses.2 hsame

end Projection

/-! ### While the renames are applied -/

section Stage

variable (c : Cache ι α L) (proj : DirTree ι α) (D : α → Prop) (whoami : ℤ)

/-- The renames have taken the fragment away from its root. -/
def Left (cur : α → Option α) (d : α) : Prop := cur d ≠ c.rootAbove d

open Classical in
/-- Where `b` is listed when the renames have the fragments below `cur`. -/
noncomputable def locAt (cur : α → Option α) (b : α) : Option α :=
  if c.isSubtreeRoot b then
    if D b then cur b
    else if ∃ d, Left c cur d ∧ Moves c proj D d b then proj.forest.above (splitMark c proj D) b
    else c.rootAbove b
  else if Splits c proj D b ∧ Left c cur b then proj.forest.above c.isSubtreeRoot b else none

/-- The subtrees that are mine by then. -/
def keyAt (cur : α → Option α) (r : α) : Prop :=
  c.isSubtreeRoot r = true ∧ (c.dirAuth r).first = whoami ∨
    Splits c proj D r ∧ Left c cur r ∧ ∃ O, c.rootAbove r = some O ∧ (c.dirAuth O).first = whoami

end Stage

variable {whoami : ℤ} {cur cur' : α → Option α} {le : SubtreeMap α}

theorem left_update {v : Option α} (h : e ≠ d) : Left c (Function.update cur d v) e ↔ Left c cur e := by
  rw [Left, Function.update_of_ne h, Left]

theorem locAt_hung (hb : c.isSubtreeRoot b = true) (hD : D b) : locAt c proj D cur b = cur b := by
  rw [locAt, if_pos hb, if_pos hD]

theorem locAt_root (hb : c.isSubtreeRoot b = true) (hD : ¬ D b)
    (hn : ∀ d, Left c cur d → ¬ Moves c proj D d b) : locAt c proj D cur b = c.rootAbove b := by
  rw [locAt, if_pos hb, if_neg hD, if_neg]
  rintro ⟨d, hd, hm⟩
  exact hn d hd hm

theorem locAt_split (hb : c.isSubtreeRoot b = false) (hs : Splits c proj D b) (hl : Left c cur b) :
    locAt c proj D cur b = proj.forest.above c.isSubtreeRoot b := by
  rw [locAt, if_neg (by simp [hb]), if_pos ⟨hs, hl⟩]

theorem locAt_none (hb : c.isSubtreeRoot b = false) (hs : ¬ (Splits c proj D b ∧ Left c cur b)) :
    locAt c proj D cur b = none := by
  rw [locAt, if_neg (by simp [hb]), if_neg hs]

/-- What else the renames have done by then changes a renamed root, what a
fragment takes along, and a fragment that becomes a root. -/
theorem locAt_congr (hhung : c.isSubtreeRoot b = true → D b → cur b = cur' b)
    (hroot : (∃ d, Left c cur d ∧ Moves c proj D d b) ↔ ∃ d, Left c cur' d ∧ Moves c proj D d b)
    (hmid : Splits c proj D b → (Left c cur b ↔ Left c cur' b)) :
    locAt c proj D cur b = locAt c proj D cur' b := by
  rw [locAt, locAt]
  cases hb : c.isSubtreeRoot b with
  | true =>
    by_cases hD : D b
    · simp only [if_true, hD, hhung hb hD]
    · simp only [if_true, hD, if_false]
      congr 1
      exact propext hroot
  | false =>
    simp only [Bool.false_eq_true, if_false]
    congr 1
    exact propext (and_congr_right hmid)

/-- A step of a fragment that is no root, splits nothing and takes no bound
along leaves the map. -/
theorem stage_idle {v : Option α} (hr : c.isSubtreeRoot d = false) (hs : ¬ Splits c proj D d)
    (hm : ∀ b, ¬ Moves c proj D d b) (hL : Lists (keyAt c proj D whoami cur) (locAt c proj D cur) le) :
    Lists (keyAt c proj D whoami (Function.update cur d v)) (locAt c proj D (Function.update cur d v)) le := by
  refine hL.congr (fun r => ?_) fun b => ?_
  · refine or_congr_right (and_congr_right fun hsr => and_congr_left fun _ => (left_update ?_).symm)
    rintro rfl
    exact hs hsr
  · refine locAt_congr (fun hb _ => ?_) ?_ fun hsb => (left_update ?_).symm
    · rw [Function.update_of_ne]
      rintro rfl
      exact Bool.false_ne_true (hr.symm.trans hb)
    · refine exists_congr fun e => and_congr_left fun hme => (left_update ?_).symm
      rintro rfl
      exact hm b hme
    · rintro rfl
      exact hs hsb

/-- A renamed root moves from the one list to the other. -/
theorem stage_root (hD : D d) (hr : c.isSubtreeRoot d = true) (hO : cur d = some O)
    (hL : Lists (keyAt c proj D whoami cur) (locAt c proj D cur) le) :
    Lists (keyAt c proj D whoami (Function.update cur d (some N)))
      (locAt c proj D (Function.update cur d (some N))) (le.moveSubtreeMapBound d O N) := by
  refine (hL.move N ((locAt_hung hr hD).trans hO)).congr (fun r => ?_) fun b => ?_
  · refine or_congr_right (and_congr_right fun hs => and_congr_left fun _ => (left_update ?_).symm)
    rintro rfl
    exact Bool.false_ne_true (hs.1.symm.trans hr)
  · by_cases hbd : b = d
    · rw [hbd, Function.update_self, locAt_hung hr hD, Function.update_self]
    · rw [Function.update_of_ne hbd]
      refine locAt_congr (fun _ _ => (Function.update_of_ne hbd ..).symm) ?_ fun _ => (left_update hbd).symm
      refine exists_congr fun e => and_congr_left fun hme => (left_update ?_).symm
      rintro rfl
      exact Bool.false_ne_true (hme.2.1.symm.trans hr)

omit [LinearOrder α] in
/-- The authorities that the loop compares. -/
theorem splits_iff (hD : D d) (hr : c.isSubtreeRoot d = false) (hO : c.rootAbove d = some O)
    (hN : proj.forest.above c.isSubtreeRoot d = some N) :
    Splits c proj D d ↔ c.dirAuth O ≠ c.dirAuth N := by
  rw [Splits, hO, hN]
  simp [hr, hD]

theorem moves_mid (hd : Crosses c proj D d) (hr : c.isSubtreeRoot d = false) (hO : c.rootAbove d = some O) :
    Moves c proj D d b ↔ b ∈ c.bounds O ∧ (c.getParentDir b).any (contains proj d) = true := by
  constructor
  · rintro ⟨-, -, O', q, hO', hb, hq, hc⟩
    obtain rfl := Option.some.inj (hO.symm.trans hO')
    rw [hq]
    exact ⟨hb, hc⟩
  · rintro ⟨hb, hp⟩
    cases hq : c.getParentDir b with
    | none =>
      rw [hq] at hp
      cases hp
    | some q =>
      rw [hq] at hp
      exact ⟨hd, hr, O, q, hO, hb, hq, hp⟩

namespace Projection

variable (h : Projection c proj D B)
include h

theorem locAt_moved (hl : Left c cur d) (hm : Moves c proj D d b) :
    locAt c proj D cur b = proj.forest.above (splitMark c proj D) b := by
  obtain ⟨hb, -, hD⟩ := h.moved hm
  rw [locAt, if_pos hb, if_neg hD, if_pos ⟨d, hl, hm⟩]

/-- A bound that has not been taken along is listed where it was. -/
theorem locAt_before (hl : ¬ Left c cur d) (hm : Moves c proj D d b) :
    locAt c proj D cur b = c.rootAbove d := by
  obtain ⟨hb, hR, hD⟩ := h.moved hm
  rw [locAt_root hb hD fun e hle hme => hl (h.alone hm hme ▸ hle), hR]

/-- A fragment that has not left is no subtree of the map yet. -/
theorem locAt_ne (hcur : ∀ e r, cur e = some r → c.isSubtreeRoot r = true) (hr : c.isSubtreeRoot d = false)
    (hl : ¬ Left c cur d) : locAt c proj D cur b ≠ some d := by
  have hroot : ∀ {F : Forest α} {x : α}, F.above c.isSubtreeRoot x ≠ some d := by
    intro F x hx
    exact Bool.false_ne_true (hr.symm.trans (F.above_marked hx))
  cases hb : c.isSubtreeRoot b with
  | true =>
    by_cases hD : D b
    · rw [locAt_hung hb hD]
      exact fun hbd => Bool.false_ne_true (hr.symm.trans (hcur b d hbd))
    · by_cases hm : ∃ e, Left c cur e ∧ Moves c proj D e b
      · obtain ⟨e, hle, hm⟩ := hm
        rw [h.locAt_moved hle hm, h.above_of_moves hm]
        split
        · rw [Ne, Option.some_inj]
          rintro rfl
          exact hl hle
        · exact hroot
      · rw [locAt_root hb hD fun e hle hm' => hm ⟨e, hle, hm'⟩]
        exact hroot
  | false =>
    by_cases hs : Splits c proj D b ∧ Left c cur b
    · rw [locAt_split hb hs.1 hs.2]
      exact hroot
    · rw [locAt_none hb hs]
      nofun

section Mid

variable (hcur : ∀ e r, cur e = some r → c.isSubtreeRoot r = true) (hd : Crosses c proj D d)
  (hr : c.isSubtreeRoot d = false) (hc : cur d = some O) (hO : c.rootAbove d = some O)
  (hN : proj.forest.above c.isSubtreeRoot d = some N)
include hcur hd hr hc hO hN

omit h hcur hr in
/-- The fragment leaves its root in this step. -/
theorem leaves : ¬ Left c cur d ∧ Left c (Function.update cur d (some N)) d := by
  refine ⟨fun hl => hl (hc.trans hO.symm), ?_⟩
  rw [Left, Function.update_self, ← hN]
  exact hd.2

/-- The new subtree, if there is one. -/
theorem stage_create (hL : Lists (keyAt c proj D whoami cur) (locAt c proj D cur) le) :
    Lists (keyAt c proj D whoami (Function.update cur d (some N)))
      (fun b => if b = d ∧ c.dirAuth O ≠ c.dirAuth N then some N else locAt c proj D cur b)
      (if c.dirAuth O ≠ c.dirAuth N then createProjected le d O N else le) := by
  obtain ⟨hbefore, hafter⟩ := leaves hd hc hO hN
  have hs := splits_iff hd.1 hr hO hN
  have hOr : c.isSubtreeRoot O = true := rootAbove_isRoot hO
  have hkeyO : (le.subtrees O).isSome ↔ (c.dirAuth O).first = whoami := by
    rw [hL.key]
    constructor
    · rintro (⟨-, hm⟩ | ⟨hs, -⟩)
      · exact hm
      · exact absurd (hs.1.symm.trans hOr) (by decide)
    · exact fun hm => .inl ⟨hOr, hm⟩
  have hkey : ∀ r, keyAt c proj D whoami (Function.update cur d (some N)) r ↔ keyAt c proj D whoami cur r ∨
      r = d ∧ c.dirAuth O ≠ c.dirAuth N ∧ (c.dirAuth O).first = whoami := by
    intro r
    by_cases hrd : r = d
    · subst hrd
      simp [keyAt, hr, hbefore, hafter, hs, hO]
    · simp [keyAt, left_update hrd, hrd]
  by_cases hne : c.dirAuth O ≠ c.dirAuth N
  · have hloc : locAt c proj D cur d = none := locAt_none hr fun h => hbefore h.2
    rw [if_pos hne, createProjected]
    split
    · rename_i hk
      refine ((hL.create fun b => h.locAt_ne hcur hr hbefore).push (r := N) hloc).congr (fun r => ?_) fun b => ?_
      · rw [hkey]
        exact or_congr_right ⟨fun hrd => ⟨hrd, hne, hkeyO.mp hk⟩, fun h => h.1⟩
      · rw [Function.update_apply]
        exact if_congr (by simp [hne]) rfl rfl
    · rename_i hk
      refine (hL.push (r := N) hloc).congr (fun r => ?_) fun b => ?_
      · rw [hkey]
        exact ⟨.inl, fun h => h.resolve_right fun h => hk (hkeyO.mpr h.2.2)⟩
      · rw [Function.update_apply]
        exact if_congr (by simp [hne]) rfl rfl
  · rw [if_neg hne]
    refine hL.congr (fun r => ?_) fun b => (if_neg fun h => hne h.2).symm
    rw [hkey]
    exact ⟨.inl, fun h => h.resolve_right fun h => hne h.2.1⟩

/-- And the bounds that it takes along. -/
theorem stage_mid (hL : Lists (keyAt c proj D whoami cur) (locAt c proj D cur) le) :
    Lists (keyAt c proj D whoami (Function.update cur d (some N)))
      (locAt c proj D (Function.update cur d (some N)))
      ((ascending (c.bounds O)).foldl (fun le b => if (c.getParentDir b).any (contains proj d) then
          le.moveSubtreeMapBound b O (if c.dirAuth O ≠ c.dirAuth N then d else N) else le)
        (if c.dirAuth O ≠ c.dirAuth N then createProjected le d O N else le)) := by
  obtain ⟨hbefore, hafter⟩ := leaves hd hc hO hN
  have hs := splits_iff hd.1 hr hO hN
  have hbd : ∀ {b}, b ∈ c.bounds O → b ≠ d := by
    rintro b hb rfl
    exact Bool.false_ne_true (hr.symm.trans (h.inv.mem_bounds' hb).2.1)
  refine ((h.stage_create hcur hd hr hc hO hN hL).moves (nodup_ascending _) fun b hb hp => ?_).congr
    (fun _ => Iff.rfl) fun b => ?_
  · rw [mem_ascending] at hb
    rw [if_neg fun h => hbd hb h.1, h.locAt_before hbefore ((moves_mid hd hr hO).mpr ⟨hb, hp⟩), hO]
  · have hmoves := moves_mid (b := b) hd hr hO
    by_cases hm : Moves c proj D d b
    · rw [if_pos ⟨mem_ascending.mpr (hmoves.mp hm).1, (hmoves.mp hm).2⟩, h.locAt_moved hafter hm,
        h.above_of_moves hm]
      by_cases hne : c.dirAuth O ≠ c.dirAuth N
      · rw [if_pos hne, if_pos (splitMark_iff.mpr (.inr (hs.mpr hne)))]
      · rw [if_neg hne, if_neg, hN]
        exact fun hsm => (splitMark_iff.mp hsm).elim (by simp [hr]) fun h => hne (hs.mp h)
    · rw [if_neg fun hb => hm (hmoves.mpr ⟨mem_ascending.mp hb.1, hb.2⟩)]
      by_cases hbd' : b = d ∧ c.dirAuth O ≠ c.dirAuth N
      · rw [if_pos hbd', hbd'.1, locAt_split hr (hs.mpr hbd'.2) hafter, hN]
      · rw [if_neg hbd']
        refine locAt_congr (fun hb _ => ?_) ⟨?_, ?_⟩ fun hsb => (left_update ?_).symm
        · rw [Function.update_of_ne]
          rintro rfl
          exact Bool.false_ne_true (hr.symm.trans hb)
        · rintro ⟨e, he, hme⟩
          have hed : e ≠ d := by rintro rfl; exact hm hme
          exact ⟨e, (left_update hed).mpr he, hme⟩
        · rintro ⟨e, he, hme⟩
          have hed : e ≠ d := by rintro rfl; exact hm hme
          exact ⟨e, (left_update hed).mp he, hme⟩
        · rintro rfl
          exact hbd' ⟨rfl, hs.mp hsb⟩

end Mid

/-- One fragment of a rename from a directory below `O` to one below `N`. -/
theorem projectDirfrag_stage {o n : α} (ho : c.getProjectedSubtreeRoot proj o = some O)
    (hn : c.getProjectedSubtreeRoot proj n = some N)
    (hcur : ∀ e r, cur e = some r → c.isSubtreeRoot r = true) (hD : D d) (hc : cur d = some O)
    (hd : O ≠ N → Goes c proj B O N d)
    (hL : Lists (keyAt c proj D whoami cur) (locAt c proj D cur) le) :
    ∃ le', c.projectDirfrag proj o n le d = .ok le' ∧
      Lists (keyAt c proj D whoami (Function.update cur d (some N)))
        (locAt c proj D (Function.update cur d (some N))) le' := by
  rw [projectDirfrag, ho, hn]
  by_cases hne : O = N
  · refine ⟨le, by simp [deref, bind, Except.bind, hne, pure, Except.pure], ?_⟩
    rwa [← hne, ← hc, Function.update_eq_self]
  simp only [deref, bind, Except.bind, hne, if_false]
  have hparent : ∀ b ∈ ascending (c.bounds O), ∃ q, c.getParentDir b = some q ∧ c.isSubtreeRoot b = true := by
    intro b hb
    obtain ⟨-, hroot, q, hq, -⟩ := h.inv.mem_bounds' (mem_ascending.mp hb)
    exact ⟨q, hq, hroot⟩
  cases hr : c.isSubtreeRoot d with
  | true => exact ⟨_, rfl, stage_root hD hr hc hL⟩
  | false =>
    rcases hd hne with hr' | ⟨hB, hauth⟩ | ⟨hO, hN⟩
    · exact absurd (hr.symm.trans hr') (by decide)
    · refine ⟨le, ?_, stage_idle hr (h.not_splits hB) (fun _ => h.not_moves hB) hL⟩
      simp only [hauth, ne_eq, not_true_eq_false, if_false, Bool.false_eq_true]
      refine (foldlM_pure (g := fun le _ => le) (fun le b hb => ?_) le).trans (by simp)
      obtain ⟨q, hq, hroot⟩ := hparent b hb
      simp [hq, (h.bare hB).2.2 b q hroot hq, pure, Except.pure]
    · have hd : Crosses c proj D d := by
        refine ⟨hD, fun he => hne ?_⟩
        rw [hN, hO] at he
        exact (Option.some.inj he).symm
      refine ⟨_, foldlM_pure (fun le b hb => ?_) _, h.stage_mid hcur hd hr hc hO hN hL⟩
      obtain ⟨q, hq, -⟩ := hparent b hb
      rw [hq]
      rfl

/-- All fragments of a rename. -/
theorem dirfrags_stage {o n : α} {l : List α} (hnd : l.Nodup)
    (ho : c.getProjectedSubtreeRoot proj o = some O) (hn : c.getProjectedSubtreeRoot proj n = some N)
    (hcur : ∀ e r, cur e = some r → c.isSubtreeRoot r = true)
    (hl : ∀ d ∈ l, D d ∧ cur d = some O ∧ (O ≠ N → Goes c proj B O N d))
    (hL : Lists (keyAt c proj D whoami cur) (locAt c proj D cur) le) :
    ∃ le', l.foldlM (c.projectDirfrag proj o n) le = .ok le' ∧
      Lists (keyAt c proj D whoami fun e => if e ∈ l then some N else cur e)
        (locAt c proj D fun e => if e ∈ l then some N else cur e) le' := by
  induction l generalizing le cur with
  | nil => exact ⟨le, rfl, by simpa using hL⟩
  | cons d l ih =>
    obtain ⟨hd, hnd⟩ := List.nodup_cons.mp hnd
    obtain ⟨hDd, hc, hg⟩ := hl d List.mem_cons_self
    obtain ⟨le₁, h₁, hL₁⟩ := h.projectDirfrag_stage ho hn hcur hDd hc hg hL
    have hNroot : c.isSubtreeRoot N = true := proj.forest.nearest_marked hn
    obtain ⟨le', h', hL'⟩ := ih hnd (fun e r her => by
        by_cases hed : e = d
        · rw [hed, Function.update_self] at her
          exact Option.some.inj her ▸ hNroot
        · exact hcur e r (by rwa [Function.update_of_ne hed] at her))
      (fun e he => by
        have hed : e ≠ d := by rintro rfl; exact hd he
        rw [Function.update_of_ne hed]
        exact hl e (List.mem_cons_of_mem d he)) hL₁
    refine ⟨le', ?_, ?_⟩
    · rw [List.foldlM_cons, h₁]
      exact h'
    · have hset : (fun e => if e ∈ d :: l then some N else cur e) =
          fun e => if e ∈ l then some N else Function.update cur d (some N) e := by
        funext e
        by_cases hed : e = d
        · simp [hed]
        · simp [hed]
      rwa [hset]

/-- After all renames, the marks are the roots of the projected tree. -/
theorem marked (hall : ∀ d, D d → cur d = proj.forest.above c.isSubtreeRoot d)
    (hL : Lists (keyAt c proj D whoami cur) (locAt c proj D cur) le) :
    Marked proj.forest (splitMark c proj D) (keyAt c proj D whoami cur) le := by
  have hleft : ∀ {d}, Crosses c proj D d → Left c cur d := by
    intro d hd
    rw [Left, hall d hd.1]
    exact hd.2
  refine ⟨hL.congr (fun _ => Iff.rfl) fun b => ?_, fun {r} hr => splitMark_iff.mpr (hr.imp And.left And.left)⟩
  cases hb : c.isSubtreeRoot b with
  | true =>
    rw [if_pos (splitMark_of_root hb)]
    by_cases hD : D b
    · rw [locAt_hung hb hD, hall b hD, h.above_split hD]
    by_cases hm : ∃ d, Moves c proj D d b
    · obtain ⟨d, hm⟩ := hm
      exact h.locAt_moved (hleft hm.1) hm
    · rw [locAt_root hb hD fun d _ hm' => hm ⟨d, hm'⟩, h.above_of_unmoved hb hD fun d hm' => hm ⟨d, hm'⟩]
  | false =>
    by_cases hs : Splits c proj D b
    · rw [if_pos (splitMark_iff.mpr (.inr hs)), locAt_split hb hs (hleft hs.crosses), h.above_split hs.2.1]
    · rw [if_neg fun hsm => (splitMark_iff.mp hsm).elim (by simp [hb]) hs, locAt_none hb fun h => hs h.1]

/-- What is then covered is what is mine now. -/
theorem covers_iff (hall : ∀ d, D d → cur d = proj.forest.above c.isSubtreeRoot d) (x : α) :
    (∃ r, keyAt c proj D whoami cur r ∧ proj.forest.nearest (splitMark c proj D) x = some r) ↔
      (c.rootAuth x).map Auth.first = some whoami := by
  have hroot : ∀ {r}, c.isSubtreeRoot r = true →
      (keyAt c proj D whoami cur r ↔ (c.dirAuth r).first = whoami) := by
    intro r hr
    constructor
    · rintro (⟨-, hm⟩ | ⟨hs, -⟩)
      · exact hm
      · exact absurd (hs.1.symm.trans hr) (by decide)
    · exact fun hm => .inl ⟨hr, hm⟩
  rw [rootAuth]
  rcases h.nearest_split x with ⟨-, hs⟩ | ⟨d, hD, hr, -, hR, -, hs⟩
  · rw [hs]
    cases hx : c.getSubtreeRoot x with
    | none => simp
    | some r => simp [hroot (getSubtreeRoot_isRoot hx)]
  · rw [hs, hR]
    split
    · rename_i hsm
      have hsd : Splits c proj D d := (splitMark_iff.mp hsm).resolve_left (by simp [hr])
      have hleft : Left c cur d := by
        rw [Left, hall d hD]
        exact hsd.crosses.2
      have hkey : keyAt c proj D whoami cur d ↔
          ∃ O, c.rootAbove d = some O ∧ (c.dirAuth O).first = whoami := by
        simp [keyAt, hr, hsd, hleft]
      simp [hkey, Option.map_eq_some_iff]
    · rename_i hsm
      have hauth : (c.rootAbove d).map c.dirAuth = (proj.forest.above c.isSubtreeRoot d).map c.dirAuth :=
        not_not.mp fun hne => hsm (splitMark_iff.mpr (.inr ⟨hr, hD, hne⟩))
      rw [hauth]
      cases hN : proj.forest.above c.isSubtreeRoot d with
      | none => simp
      | some N => simp [hroot (proj.forest.above_marked hN)]

end Projection

end Cache

/-! ## The renames of an inode, one after the other -/

section Links

variable {α : Type} {R R' : α → Option α} {a z o n : α} {l : List (α × α)} {S : Option α}

/-- Pairs that lead from `a` to `z`. -/
def Links : α → List (α × α) → α → Prop
  | a, [], z => a = z
  | a, p :: l, z => p.1 = a ∧ Links p.2 l z

/-- From outside `S`, nothing leads to another value if only pairs from `S` do. -/
theorem Links.stays (h : Links a l z) (hS : ∀ p ∈ l, R p.1 ≠ R p.2 → R p.1 = S) (ha : R a ≠ S) :
    (∀ p ∈ l, R p.1 = R p.2) ∧ R z = R a := by
  induction l generalizing a with
  | nil =>
    obtain rfl : a = z := h
    exact ⟨nofun, rfl⟩
  | cons p l ih =>
    obtain ⟨rfl, h⟩ := h
    have hp : R p.1 = R p.2 := not_not.mp fun hne => ha (hS p List.mem_cons_self hne)
    obtain ⟨hl, hz⟩ := ih h (fun q hq => hS q (List.mem_cons_of_mem p hq)) (hp ▸ ha)
    exact ⟨List.forall_mem_cons.mpr ⟨hp, hl⟩, hz.trans hp.symm⟩

/-- The one pair that leads to another value leads to the last one. -/
theorem Links.last (h : Links a l z) (hS : ∀ p ∈ l, R p.1 ≠ R p.2 → R p.1 = S) {p : α × α} (hp : p ∈ l)
    (hne : R p.1 ≠ R p.2) : R z = R p.2 := by
  induction l generalizing a with
  | nil => cases hp
  | cons p' l ih =>
    obtain ⟨rfl, h⟩ := h
    have hl : ∀ q ∈ l, R q.1 ≠ R q.2 → R q.1 = S := fun q hq => hS q (List.mem_cons_of_mem p' hq)
    rcases List.mem_cons.mp hp with rfl | hp
    · have hpS := hS p List.mem_cons_self hne
      exact (h.stays hl fun he => hne (hpS.trans he.symm)).2
    · exact ih h hl hp

/-- Without such a pair the first and the last value are the same. -/
theorem Links.same (h : Links a l z) (hl : ∀ p ∈ l, R p.1 = R p.2) : R a = R z := by
  induction l generalizing a with
  | nil => exact congrArg R h
  | cons p l ih =>
    obtain ⟨rfl, h⟩ := h
    exact (hl p List.mem_cons_self).trans (ih h fun q hq => hl q (List.mem_cons_of_mem p hq))

theorem Links.ends (h : Links a l z) (hl : l ≠ []) : (∃ p ∈ l, p.1 = a) ∧ ∃ p ∈ l, p.2 = z := by
  induction l generalizing a with
  | nil => exact absurd rfl hl
  | cons p l ih =>
    obtain ⟨rfl, h⟩ := h
    refine ⟨⟨p, List.mem_cons_self, rfl⟩, ?_⟩
    by_cases hl' : l = []
    · subst hl'
      exact ⟨p, List.mem_cons_self, h⟩
    · obtain ⟨-, q, hq, hz⟩ := ih h hl'
      exact ⟨q, List.mem_cons_of_mem p hq, hz⟩

end Links

/-- A rename, with the directories after it. -/
structure Rename (ι α : Type) where
  diri : ι
  olddir : α
  newdir : α
  tree : DirTree ι α

section Renames

variable {ι α : Type} [DecidableEq ι] {t t' : DirTree ι α} {ρ : List (Rename ι α)} {i : ι} {a : α}

/-- The renames `ρ` lead from `t` to `t'`. -/
def Renames : DirTree ι α → List (Rename ι α) → DirTree ι α → Prop
  | t, [], t' => t = t'
  | t, r :: ρ, t' => Reparented t r.tree r.diri r.olddir r.newdir ∧ Renames r.tree ρ t'

/-- The renames of `i`. -/
def renamesOf (ρ : List (Rename ι α)) (i : ι) : List (α × α) :=
  (ρ.filter fun r => r.diri = i).map fun r => (r.olddir, r.newdir)

omit [DecidableEq ι] in
theorem Renames.same (h : Renames t ρ t') : t'.inode = t.inode ∧ t'.dirfrags = t.dirfrags := by
  induction ρ generalizing t with
  | nil =>
    obtain rfl : t = t' := h
    exact ⟨rfl, rfl⟩
  | cons r ρ ih =>
    obtain ⟨hR, h⟩ := h
    obtain ⟨hi, hd⟩ := ih h
    exact ⟨hi.trans hR.inode, hd.trans hR.dirfrags⟩

theorem Renames.links (h : Renames t ρ t') (ha : t.parentDir i = some a) :
    ∃ z, t'.parentDir i = some z ∧ Links a (renamesOf ρ i) z := by
  induction ρ generalizing t a with
  | nil =>
    obtain rfl : t = t' := h
    exact ⟨a, ha, rfl⟩
  | cons r ρ ih =>
    obtain ⟨hR, h⟩ := h
    by_cases hi : r.diri = i
    · subst hi
      obtain ⟨z, hz, hl⟩ := ih h hR.new
      refine ⟨z, hz, ?_⟩
      rw [renamesOf, List.filter_cons_of_pos (by simp), List.map_cons]
      exact ⟨Option.some.inj (hR.old.symm.trans ha), hl⟩
    · obtain ⟨z, hz, hl⟩ := ih h ((hR.other (Ne.symm hi)).trans ha)
      refine ⟨z, hz, ?_⟩
      rw [renamesOf, List.filter_cons_of_neg (by simpa using hi)]
      exact hl

theorem Renames.parentDir_eq (h : Renames t ρ t') (hi : renamesOf ρ i = []) :
    t'.parentDir i = t.parentDir i := by
  induction ρ generalizing t with
  | nil =>
    obtain rfl : t = t' := h
    rfl
  | cons r ρ ih =>
    obtain ⟨hR, h⟩ := h
    have hne : r.diri ≠ i := by
      rintro rfl
      rw [renamesOf, List.filter_cons_of_pos (by simp), List.map_cons] at hi
      cases hi
    rw [renamesOf, List.filter_cons_of_neg (by simpa using hne)] at hi
    exact (ih h hi).trans (hR.other (Ne.symm hne))

/-- A renamed inode has a parent. -/
theorem Renames.parentDir_isSome (h : Renames t ρ t') (hi : renamesOf ρ i ≠ []) :
    ∃ a, t.parentDir i = some a := by
  induction ρ generalizing t with
  | nil => exact absurd rfl hi
  | cons r ρ ih =>
    obtain ⟨hR, h⟩ := h
    by_cases hri : r.diri = i
    · exact ⟨_, hri ▸ hR.old⟩
    · rw [renamesOf, List.filter_cons_of_neg (by simpa using hri)] at hi
      rw [← hR.other (Ne.symm hri)]
      exact ih h hi

end Renames

namespace Cache

open SubtreeMap Forest

variable {ι α L : Type} [LinearOrder α] {c : Cache ι α L} {t' : DirTree ι α} {ρ : List (Rename ι α)}

/-- The fragment is no root and takes no bound along, and its inode stays in
subtrees of one authority. -/
structure Bare (c : Cache ι α L) (proj : DirTree ι α) (d : α) : Prop where
  mid : c.isSubtreeRoot d = false
  empty {b q : α} : c.isSubtreeRoot b = true → c.getParentDir b = some q → contains proj d q = false
  same {i : ι} {p : α × α} : c.tree.inode d = some i → p ∈ c.projectedSubtreeRenames i →
    (c.getProjectedSubtreeRoot proj p.1).map c.dirAuth = (c.rootAbove d).map c.dirAuth ∧
      (c.getProjectedSubtreeRoot proj p.2).map c.dirAuth = (c.rootAbove d).map c.dirAuth

/-- The projected rename `p` takes the bound `b` along with the fragment `d`. -/
def Takes (c : Cache ι α L) (proj : DirTree ι α) (p : α × α) (d b : α) : Prop :=
  ∃ i O q, c.tree.inode d = some i ∧ p ∈ c.projectedSubtreeRenames i ∧
    c.getProjectedSubtreeRoot proj p.1 ≠ c.getProjectedSubtreeRoot proj p.2 ∧
    c.getProjectedSubtreeRoot proj p.1 = some O ∧ c.isSubtreeRoot d = false ∧ b ∈ c.bounds O ∧
    c.getParentDir b = some q ∧ contains proj d q = true

/-- No directory goes to one that another rename takes to another authority.
Unless it is bare, no other rename takes its parent to another subtree. A
fragment inside a subtree goes to another one at most once, and each bound is
taken along at most once, to the root that it is below then. -/
structure Settled (c : Cache ι α L) (proj : DirTree ι α) : Prop where
  authority {i : ι} {z : α} : c.projectedSubtreeRenames i ≠ [] → proj.parentDir i = some z →
    (c.getProjectedSubtreeRoot proj z).map c.dirAuth = c.rootAuth z
  parent {i : ι} {d a : α} : c.projectedSubtreeRenames i ≠ [] → c.tree.inode d = some i → ¬ Bare c proj d →
    c.tree.parentDir i = some a → c.getProjectedSubtreeRoot proj a = c.getSubtreeRoot a
  once {i : ι} {d : α} {p : α × α} : p ∈ c.projectedSubtreeRenames i → c.tree.inode d = some i →
    c.isSubtreeRoot d = false → ¬ Bare c proj d →
    c.getProjectedSubtreeRoot proj p.1 ≠ c.getProjectedSubtreeRoot proj p.2 →
    c.getProjectedSubtreeRoot proj p.1 = c.rootAbove d
  taken {p : α × α} {d b : α} : Takes c proj p d b →
    (c.getParentDir b).bind (c.getProjectedSubtreeRoot proj) = c.getProjectedSubtreeRoot proj p.2
  alone {p p' : α × α} {d e b : α} : Takes c proj p d b → Takes c proj p' e b → d = e

section Sequence

variable [DecidableEq ι] [AddCommGroup L]

/-- The renames one after the other. -/
def performRenames (I : InodeAuthority ι α) (c : Cache ι α L) (ρ : List (Rename ι α)) : Checked (Cache ι α L) :=
  ρ.foldlM (fun c r => adjustSubtreeAfterRename I { c with tree := r.tree } r.diri r.olddir true) c

/-- They return, and leave every fragment with its authority. -/
theorem performRenames_spec (I : InodeAuthority ι α) (hI : Inv c) (hR : Renames c.tree ρ t')
    (hp : c.projectedSubtreeRenames = renamesOf ρ)
    (hroot : ∀ r ∈ ρ, (c.getSubtreeRoot r.olddir).isSome ∧ (c.getSubtreeRoot r.newdir).isSome) :
    ∃ c', c.performRenames I ρ = .ok c' ∧ c'.tree = t' ∧ ∀ x, c'.rootAuth x = c.rootAuth x := by
  induction ρ generalizing c with
  | nil =>
    obtain rfl : c.tree = t' := hR
    exact ⟨c, rfl, rfl, fun _ => rfl⟩
  | cons r ρ ih =>
    obtain ⟨hR₁, hR⟩ := hR
    obtain ⟨ho, hn⟩ := hroot r List.mem_cons_self
    have hhead : renamesOf (r :: ρ) r.diri = (r.olddir, r.newdir) :: renamesOf ρ r.diri := by
      rw [renamesOf, List.filter_cons_of_pos (by simp), List.map_cons]
      rfl
    obtain ⟨c₁, h₁⟩ := adjustSubtreeAfterRename_returns (I := I) true hI hR₁
      (fun _ => by rw [hp, hhead]; rfl) ho hn
    obtain ⟨⟨hI₁, ht₁, -, hA₁⟩, hrest, -⟩ := adjustSubtreeAfterRename_rest hI hR₁ h₁
    have hp₁ : c₁.projectedSubtreeRenames = renamesOf ρ := by
      rw [hrest rfl, hp]
      funext i
      by_cases hi : i = r.diri
      · rw [hi, Function.update_self, hhead]
        rfl
      · rw [Function.update_of_ne hi, renamesOf, List.filter_cons_of_neg (by simpa using Ne.symm hi)]
        rfl
    have hsome : ∀ x, (c.getSubtreeRoot x).isSome → (c₁.getSubtreeRoot x).isSome := by
      intro x hx
      have := congrArg Option.isSome (hA₁ x)
      rw [rootAuth, rootAuth, Option.isSome_map, Option.isSome_map] at this
      rw [this, hx]
    obtain ⟨c', hc', ht', hA'⟩ := ih hI₁ (ht₁ ▸ hR) hp₁ fun r' hr' =>
      (hroot r' (List.mem_cons_of_mem r hr')).imp (hsome _) (hsome _)
    refine ⟨c', ?_, ht', fun x => (hA' x).trans (hA₁ x)⟩
    rw [performRenames, List.foldlM_cons, h₁]
    exact hc'

end Sequence

/-! ## The two maps -/

/-- The fragments of the renamed inodes. -/
def RenamedFrag (c : Cache ι α L) (d : α) : Prop :=
  ∃ i, c.tree.inode d = some i ∧ c.projectedSubtreeRenames i ≠ []

section Frags

variable [DecidableEq ι] {i : ι} {d b : α} (hR : Renames c.tree ρ t') (hp : c.projectedSubtreeRenames = renamesOf ρ)
include hR hp

omit [LinearOrder α] in
/-- The way of a fragment of a renamed inode. -/
theorem frag_links (hd : c.tree.inode d = some i) (hi : c.projectedSubtreeRenames i ≠ []) : ∃ a z,
    c.tree.parentDir i = some a ∧ t'.parentDir i = some z ∧ c.tree.forest.parent d = some a ∧
    t'.forest.parent d = some z ∧ Links a (c.projectedSubtreeRenames i) z := by
  obtain ⟨a, ha⟩ := hR.parentDir_isSome (i := i) (hp ▸ hi)
  obtain ⟨z, hz, hl⟩ := hR.links ha
  rw [← hp] at hl
  refine ⟨a, z, ha, hz, ?_, ?_, hl⟩
  · simp [DirTree.forest, hd, ha]
  · simp [DirTree.forest, hR.same.1, hd, hz]

variable (hs : Settled c t')
include hs

/-- The rename that takes a fragment to another subtree takes it to its last. -/
theorem frag_last {p : α × α} (hd : c.tree.inode d = some i) (hr : c.isSubtreeRoot d = false)
    (hB : ¬ Bare c t' d) (hpm : p ∈ c.projectedSubtreeRenames i)
    (hne : c.getProjectedSubtreeRoot t' p.1 ≠ c.getProjectedSubtreeRoot t' p.2) :
    t'.forest.above c.isSubtreeRoot d = c.getProjectedSubtreeRoot t' p.2 := by
  obtain ⟨a, z, -, -, -, hdz, hl⟩ := frag_links hR hp hd (List.ne_nil_of_mem hpm)
  rw [t'.forest.above_of_parent hdz]
  exact hl.last (fun q hq => hs.once hq hd hr hB) hpm hne

/-- A fragment takes a bound along because of such a rename. -/
theorem frag_takes (hI : Inv c) (hm : Moves c t' (RenamedFrag c) d b) : ∃ p, Takes c t' p d b ∧
    t'.forest.above c.isSubtreeRoot d = c.getProjectedSubtreeRoot t' p.2 := by
  obtain ⟨⟨⟨i, hd, hi⟩, hne⟩, hr, O, q, hO, hb, hq, hc⟩ := hm
  have hB : ¬ Bare c t' d := fun hB => by
    rw [hB.empty (hI.mem_bounds' hb).2.1 hq] at hc
    cases hc
  obtain ⟨a, z, ha, -, hda, hdz, hl⟩ := frag_links hR hp hd hi
  by_cases hex : ∃ p ∈ c.projectedSubtreeRenames i,
      c.getProjectedSubtreeRoot t' p.1 ≠ c.getProjectedSubtreeRoot t' p.2
  · obtain ⟨p, hpm, hpne⟩ := hex
    have hpO := (hs.once hpm hd hr hB hpne).trans hO
    exact ⟨p, ⟨i, O, q, hd, hpm, hpne, hpO, hr, hb, hq, hc⟩, frag_last hR hp hs hd hr hB hpm hpne⟩
  · refine absurd ?_ hne
    have hsame := hl.same (R := c.getProjectedSubtreeRoot t') fun p hpm => not_not.mp fun h => hex ⟨p, hpm, h⟩
    rw [t'.forest.above_of_parent hdz, rootAbove_of_parent hda, ← hs.parent hi hd hB ha]
    exact hsame.symm

theorem projection_of_settled (hI : Inv c) :
    Projection c t' (RenamedFrag c) (fun d => RenamedFrag c d ∧ Bare c t' d) where
  inv := hI
  rehung d hd := by
    simp only [DirTree.forest, hR.same.1]
    cases hi : c.tree.inode d with
    | none => rfl
    | some i =>
      have : renamesOf ρ i = [] := by
        rw [← hp]
        exact not_not.mp fun h => hd ⟨i, hi, h⟩
      exact hR.parentDir_eq this
  authority {d n} hd hn := by
    obtain ⟨i, hd, hi⟩ := hd
    obtain ⟨a, z, -, hz, -, hdz, -⟩ := frag_links hR hp hd hi
    obtain rfl := Option.some.inj (hdz.symm.trans hn)
    exact hs.authority hi hz
  bare {d} hd := by
    obtain ⟨⟨i, hd, hi⟩, hB⟩ := hd
    obtain ⟨a, z, -, -, -, hdz, hl⟩ := frag_links hR hp hd hi
    obtain ⟨-, p, hpm, rfl⟩ := hl.ends hi
    refine ⟨hB.mid, ?_, fun b q hb hq => hB.empty hb hq⟩
    rw [t'.forest.above_of_parent hdz]
    exact (hB.same hd hpm).2.symm
  parent {d o} hD hB ho := by
    obtain ⟨i, hd, hi⟩ := id hD
    obtain ⟨a, z, ha, -, hda, -⟩ := frag_links hR hp hd hi
    obtain rfl := Option.some.inj (hda.symm.trans ho)
    exact hs.parent hi hd (fun h => hB ⟨hD, h⟩) ha
  taken {d b} hm := by
    obtain ⟨p, hp, hlast⟩ := frag_takes hR hp hs hI hm
    exact (hs.taken hp).trans hlast.symm
  alone {d e b} hd he := by
    obtain ⟨p, hdp, -⟩ := frag_takes hR hp hs hI hd
    obtain ⟨p', hep, -⟩ := frag_takes hR hp hs hI he
    exact hs.alone hdp hep

end Frags

section Loop

variable {proj : DirTree ι α} {D B : α → Prop} {whoami : ℤ} {cur : α → Option α} {le : SubtreeMap α} {i : ι}

/-- Where the renamed fragments are before the loop. -/
def start (c : Cache ι α L) (proj : DirTree ι α) (d : α) : Option α :=
  (c.getParentDir d).bind (c.getProjectedSubtreeRoot proj)

/-- What the loop needs of a renamed inode: its renames lead from the parent of
its fragments to the projected one. -/
def Passes (c : Cache ι α L) (proj : DirTree ι α) (D B : α → Prop) (i : ι) : Prop :=
  ∃ a z, Links a (c.projectedSubtreeRenames i) z ∧
    (∀ d ∈ c.tree.dirfrags i, D d ∧ c.getParentDir d = some a ∧ proj.forest.parent d = some z) ∧
    ∀ p ∈ c.projectedSubtreeRenames i, ∃ O N, c.getProjectedSubtreeRoot proj p.1 = some O ∧
      c.getProjectedSubtreeRoot proj p.2 = some N ∧ ∀ d ∈ c.tree.dirfrags i, O ≠ N → Goes c proj B O N d

namespace Projection

variable (h : Projection c proj D B)
include h

theorem start_eq {d : α} (hD : D d) (hB : ¬ B d) : start c proj d = c.rootAbove d := by
  cases hq : c.getParentDir d with
  | none => rw [start, hq, rootAbove, Forest.above, show c.tree.forest.parent d = none from hq]; rfl
  | some q => rw [start, hq, Option.bind_some, h.parent hD hB hq, rootAbove_of_parent hq]

/-- Before the renames, the map has the roots that are mine. -/
theorem authSubtrees_lists (whoami : ℤ) (ambiguous : α → Bool) :
    Lists (keyAt c proj D whoami (start c proj)) (locAt c proj D (start c proj))
      (c.authSubtrees whoami ambiguous) := by
  have hleft : ∀ d, D d → Left c (start c proj) d → B d := fun d hD hl =>
    not_not.mp fun hB => hl (h.start_eq hD hB)
  have hsplit : ∀ d, ¬ (Splits c proj D d ∧ Left c (start c proj) d) := fun d hd =>
    h.not_splits (hleft d hd.1.2.1 hd.2) hd.1
  refine ⟨fun r => ?_, fun {r l} hl => ?_⟩
  · rw [authSubtrees, keyAt, ← h.inv.key r]
    have : ¬ (Splits c proj D r ∧ Left c (start c proj) r ∧
        ∃ O, c.rootAbove r = some O ∧ (c.dirAuth O).first = whoami) := fun hr => hsplit r ⟨hr.1, hr.2.1⟩
    simp [this]
  · rw [authSubtrees] at hl
    simp only [Option.ite_none_right_eq_some, Option.some.injEq] at hl
    obtain ⟨-, rfl⟩ := hl
    refine ⟨nodup_ascending _, fun b => ?_⟩
    rw [mem_ascending, h.inv.mem_bounds]
    cases hb : c.isSubtreeRoot b with
    | true =>
      by_cases hD : D b
      · have hB : ¬ B b := fun hB => absurd ((h.bare hB).1.symm.trans hb) (by decide)
        rw [locAt_hung hb hD, h.start_eq hD hB]
        simp
      · rw [locAt_root hb hD fun d hl hm => h.not_moves (hleft d hm.1.1 hl) hm]
        simp
    | false =>
      rw [locAt_none hb (hsplit b)]
      simp

/-- The renames of one inode. -/
theorem links_stage {ps : List (α × α)} {a z : α} (hl : Links a ps z)
    (hcur : ∀ e r, cur e = some r → c.isSubtreeRoot r = true)
    (hD : ∀ d ∈ c.tree.dirfrags i, D d ∧ cur d = c.getProjectedSubtreeRoot proj a)
    (hg : ∀ p ∈ ps, ∃ O N, c.getProjectedSubtreeRoot proj p.1 = some O ∧
      c.getProjectedSubtreeRoot proj p.2 = some N ∧ ∀ d ∈ c.tree.dirfrags i, O ≠ N → Goes c proj B O N d)
    (hL : Lists (keyAt c proj D whoami cur) (locAt c proj D cur) le) :
    ∃ le', c.applyProjectedRenames proj (ps.map fun p => (i, p)) le = .ok le' ∧
      Lists (keyAt c proj D whoami fun e => if e ∈ c.tree.dirfrags i then c.getProjectedSubtreeRoot proj z else cur e)
        (locAt c proj D fun e => if e ∈ c.tree.dirfrags i then c.getProjectedSubtreeRoot proj z else cur e)
        le' := by
  induction ps generalizing a cur le with
  | nil =>
    obtain rfl : a = z := hl
    have hset : (fun e => if e ∈ c.tree.dirfrags i then c.getProjectedSubtreeRoot proj a else cur e) = cur := by
      funext e
      split
      · rename_i he
        exact (hD e he).2.symm
      · rfl
    rw [hset]
    exact ⟨le, rfl, hL⟩
  | cons p ps ih =>
    obtain ⟨rfl, hl⟩ := hl
    obtain ⟨O, N, hO, hN, hd⟩ := hg p List.mem_cons_self
    obtain ⟨le₁, h₁, hL₁⟩ := h.dirfrags_stage (c.tree.nodup_dirfrags i) hO hN hcur
      (fun d hdm => ⟨(hD d hdm).1, (hD d hdm).2.trans hO, hd d hdm⟩) hL
    obtain ⟨le', h', hL'⟩ := ih hl (fun e r her => by
        split at her
        · exact Option.some.inj her ▸ proj.forest.nearest_marked hN
        · exact hcur e r her)
      (fun d hdm => ⟨(hD d hdm).1, by rw [if_pos hdm, hN]⟩)
      (fun q hq => hg q (List.mem_cons_of_mem p hq)) hL₁
    refine ⟨le', ?_, ?_⟩
    · rw [List.map_cons, applyProjectedRenames, List.foldlM_cons, h₁]
      exact h'
    · have hset : (fun e => if e ∈ c.tree.dirfrags i then c.getProjectedSubtreeRoot proj z
            else if e ∈ c.tree.dirfrags i then some N else cur e) =
          fun e => if e ∈ c.tree.dirfrags i then c.getProjectedSubtreeRoot proj z else cur e := by
        funext e
        split <;> rfl
      rwa [hset] at hL'

/-- The renames of all inodes. -/
theorem renames_stage {renamed : List ι} (hnd : renamed.Nodup) (hi : ∀ i ∈ renamed, Passes c proj D B i)
    (hcur : ∀ e r, cur e = some r → c.isSubtreeRoot r = true)
    (hst : ∀ i ∈ renamed, ∀ d ∈ c.tree.dirfrags i, cur d = start c proj d)
    (hL : Lists (keyAt c proj D whoami cur) (locAt c proj D cur) le) :
    ∃ le' cur', c.applyProjectedRenames proj (c.projectedRenames renamed) le = .ok le' ∧
      Lists (keyAt c proj D whoami cur') (locAt c proj D cur') le' ∧
      (∀ i ∈ renamed, ∀ d ∈ c.tree.dirfrags i, cur' d = proj.forest.above c.isSubtreeRoot d) ∧
      ∀ e, (∀ i ∈ renamed, e ∉ c.tree.dirfrags i) → cur' e = cur e := by
  induction renamed generalizing cur le with
  | nil => exact ⟨le, cur, rfl, hL, nofun, fun _ _ => rfl⟩
  | cons i renamed ih =>
    obtain ⟨hin, hnd⟩ := List.nodup_cons.mp hnd
    obtain ⟨a, z, hl, hd, hg⟩ := hi i List.mem_cons_self
    have hother : ∀ j ∈ renamed, ∀ d ∈ c.tree.dirfrags j, d ∉ c.tree.dirfrags i := by
      intro j hj d hdj hdi
      rw [c.tree.mem_dirfrags] at hdj hdi
      exact hin (Option.some.inj (hdi.symm.trans hdj) ▸ hj)
    obtain ⟨le₁, h₁, hL₁⟩ := h.links_stage hl hcur (fun d hdm =>
      ⟨(hd d hdm).1, by rw [hst i List.mem_cons_self d hdm, start, (hd d hdm).2.1]; rfl⟩) hg hL
    obtain ⟨le', cur', h', hL', hdone, hrest⟩ := ih hnd (fun j hj => hi j (List.mem_cons_of_mem i hj))
      (fun e r her => by
        split at her
        · exact proj.forest.nearest_marked her
        · exact hcur e r her)
      (fun j hj d hdm => by
        rw [if_neg (hother j hj d hdm)]
        exact hst j (List.mem_cons_of_mem i hj) d hdm) hL₁
    refine ⟨le', cur', ?_, hL', List.forall_mem_cons.mpr ⟨fun d hdm => ?_, hdone⟩, fun e he => ?_⟩
    · rw [projectedRenames, List.flatMap_cons, applyProjectedRenames, List.foldlM_append]
      rw [applyProjectedRenames] at h₁
      rw [h₁]
      exact h'
    · rw [hrest d fun j hj hdj => hother j hj d hdj hdm, if_pos hdm,
        proj.forest.above_of_parent (hd d hdm).2.2]
      rfl
    · rw [hrest e fun j hj => he j (List.mem_cons_of_mem i hj), if_neg (he i List.mem_cons_self)]

end Projection

end Loop

section Main

variable [DecidableEq ι] {renamed : List ι}

end Main

/-- Fragment 1 is in the base fragment 0, and 2 and 3 are in 1. Fragment 4 is
in `p`, 5 is in 4, and 6 is in `s`. -/
def wide (p s : Fin 7) (h : ∀ d i q : Fin 7, some d = some i →
    ![none, some 0, some 1, some 1, some p, some 4, some s] i = some q → q < d) : DirTree (Fin 7) (Fin 7) :=
  .small some ![none, some 0, some 1, some 1, some p, some 4, some s] h

/-- Rank 1 has 1 and 5, and rank 0 the rest, with 4 and 6 below 0. -/
def spread : Cache (Fin 7) (Fin 7) ℤ :=
  (((((empty (wide 0 0 (by decide))).delegateTo 0 0).delegateTo 1 1).delegateTo 2 0).delegateTo 3 0).delegateTo 5 1

theorem inv_spread (ren : Fin 7 → List (Fin 7 × Fin 7)) : Inv { spread with projectedSubtreeRenames := ren } := by
  have h : Inv spread := ⟨by decide, by decide, by decide, by decide, by decide⟩
  exact ⟨h.key, h.pin, h.mem_bounds, h.rooted, h.cached⟩

/-- Fragment 4 is renamed to 2, and 6 then to 4. -/
def nested : List (Rename (Fin 7) (Fin 7)) := [⟨4, 0, 2, wide 2 0 (by decide)⟩, ⟨6, 0, 4, wide 2 4 (by decide)⟩]

/-- Fragment 4 is renamed to 2, and from there to 3. -/
def twice : List (Rename (Fin 7) (Fin 7)) := [⟨4, 0, 2, wide 2 0 (by decide)⟩, ⟨4, 2, 3, wide 3 0 (by decide)⟩]

theorem wide_dirfrags {p s : Fin 7} {hp} :
    (wide p s hp).dirfrags = fun i => (List.finRange 7).filter fun d => some d = some i :=
  rfl

theorem reparented_wide {p q s : Fin 7} {hp hq} : Reparented (wide p s hp) (wide q s hq) 4 p q := by
  have hother : ∀ j : Fin 7, j ≠ 4 → (wide q s hq).parentDir j = (wide p s hp).parentDir j := by
    simp [wide, DirTree.small, Fin.forall_fin_succ]
  have hinode : ∀ {p s : Fin 7} {hp}, (wide p s hp).inode = some := rfl
  exact ⟨hinode.trans hinode.symm, wide_dirfrags.trans wide_dirfrags.symm, rfl, rfl, hother _⟩

theorem reparented_wide_last {p s r : Fin 7} {hs hr} : Reparented (wide p s hs) (wide p r hr) 6 s r := by
  have hother : ∀ j : Fin 7, j ≠ 6 → (wide p r hr).parentDir j = (wide p s hs).parentDir j := by
    simp [wide, DirTree.small, Fin.forall_fin_succ]
  have hinode : ∀ {p s : Fin 7} {hp}, (wide p s hp).inode = some := rfl
  exact ⟨hinode.trans hinode.symm, wide_dirfrags.trans wide_dirfrags.symm, rfl, rfl, hother _⟩

end Cache

end CephMds
