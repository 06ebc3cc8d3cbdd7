import CephMds.Proof.BinPacker

/-!
# The strategies of the bin packer

What `send_until_target` sends cannot be added to, and what it returns next to that
is the smallest of what it has skipped; `pack` sends what is nearest to the target
(`greedy_nearest`). In which order the strategies see the dirfrags is decided by the
hook, which gives the largest load first, and by `small_to_large`: whether they do
what their names say is `named_iff`.
-/

namespace CephMds.BinPacker

open Checked Text

variable {target : ℚ} {dfs xs sent skipped : List Dirfrag} {loads : List ℚ} {strategies : List Strategy}

/-! ## Greedy selections -/

/-- `sent` is a part of the dirfrags that fits, and no other one fits as well. -/
structure Greedy (target : ℚ) (dfs sent skipped : List Dirfrag) : Prop where
  perm : (sent ++ skipped).Perm dfs
  le : load sent ≤ target
  maximal : ∀ df ∈ skipped, target < load sent + df.2

/-- One of the smallest. -/
def Smallest (df : Dirfrag) (skipped : List Dirfrag) : Prop := df ∈ skipped ∧ ∀ other ∈ skipped, df.2 ≤ other.2

/-- The state of the loop after `xs`. -/
structure Scanned (target : ℚ) (xs : List Dirfrag) (s : Sending) (skipped : List Dirfrag) : Prop where
  greedy : Greedy target xs s.sendDfs skipped
  sum : s.sum = load s.sendDfs
  next : s.nextmin ∈ skipped ∨ s.nextmin = sentinel
  least : ∀ df ∈ skipped, s.nextmin.2 ≤ df.2

theorem Scanned.visit {s : Sending} {df : Dirfrag} (h : Scanned target xs s skipped) (hdf : 0 ≤ df.2) :
    ∃ skipped', Scanned target (xs ++ [df]) (s.visit target df) skipped' := by
  obtain ⟨⟨hperm, hle, hmax⟩, hsum, hnext, hleast⟩ := h
  have hload : load (s.sendDfs ++ [df]) = load s.sendDfs + df.2 := by rw [load_append, load_singleton]
  rw [Sending.visit]
  split
  · rename_i hfits
    -- What was skipped before does not fit next to more.
    refine ⟨skipped, ⟨?_, ?_, fun x hx => ?_⟩, ?_, hnext, hleast⟩
    · show (s.sendDfs ++ [df] ++ skipped).Perm (xs ++ [df])
      have hswap : (s.sendDfs ++ [df] ++ skipped).Perm (s.sendDfs ++ skipped ++ [df]) := by
        rw [List.append_assoc, List.append_assoc]
        exact List.perm_append_comm.append_left _
      exact hswap.trans (hperm.append_right [df])
    · show load (s.sendDfs ++ [df]) ≤ target
      rw [hload, ← hsum]
      exact hfits
    · show target < load (s.sendDfs ++ [df]) + x.2
      have := hmax x hx
      rw [hload]
      linarith
    · show s.sum + df.2 = load (s.sendDfs ++ [df])
      rw [hload, hsum]
  · rename_i hfits
    have hover : target < load s.sendDfs + df.2 := hsum ▸ not_le.mp hfits
    refine ⟨skipped ++ [df], ⟨?_, hle, fun x hx => ?_⟩, hsum, ?_, fun x hx => ?_⟩
    · rw [← List.append_assoc]
      exact hperm.append_right [df]
    · rcases List.mem_append.mp hx with hx | hx
      · exact hmax x hx
      · rw [List.mem_singleton.mp hx]
        exact hover
    · show (if df.2 < s.nextmin.2 then df else s.nextmin) ∈ _ ∨ (if df.2 < s.nextmin.2 then df else s.nextmin) = _
      split
      · exact .inl (List.mem_append_right _ (List.mem_singleton_self df))
      · exact hnext.imp_left (List.mem_append_left _)
    · show (if df.2 < s.nextmin.2 then df else s.nextmin).2 ≤ x.2
      rcases List.mem_append.mp hx with hx | hx
      · have := hleast x hx
        split
        · linarith
        · exact this
      · rw [List.mem_singleton.mp hx]
        split
        · exact le_rfl
        · rename_i hnot
          exact not_lt.mp hnot

theorem scanned_foldl (hload : ∀ df ∈ xs, 0 ≤ df.2) (ht : 0 ≤ target) :
    ∃ skipped, Scanned target xs (xs.foldl (Sending.visit target) ⟨0, [], sentinel⟩) skipped := by
  induction xs using List.reverseRecOn with
  | nil =>
    refine ⟨[], ⟨.refl _, ?_, fun df hdf => absurd hdf List.not_mem_nil⟩, rfl, .inr rfl,
      fun df hdf => absurd hdf List.not_mem_nil⟩
    exact ht
  | append_singleton xs df ih =>
    obtain ⟨skipped, h⟩ := ih fun x hx => hload x (List.mem_append_left _ hx)
    rw [List.foldl_append]
    exact h.visit (hload df (List.mem_append_right _ (List.mem_singleton_self df)))

/-- The order in which `send_until_target` goes over the dirfrags. -/
def scan (smallToLarge : Bool) (dfs : List Dirfrag) : List Dirfrag := if smallToLarge then dfs else dfs.reverse

theorem scan_perm (smallToLarge : Bool) (dfs : List Dirfrag) : (scan smallToLarge dfs).Perm dfs := by
  unfold scan
  split
  · exact .refl _
  · exact List.reverse_perm dfs

theorem sendUntilTarget_eq (smallToLarge : Bool) (target : ℚ) (dfs : List Dirfrag) :
    sendUntilTarget smallToLarge target dfs =
      (((scan smallToLarge dfs).foldl (Sending.visit target) ⟨0, [], sentinel⟩).sendDfs,
        ((scan smallToLarge dfs).foldl (Sending.visit target) ⟨0, [], sentinel⟩).nextmin) := rfl

theorem sendUntilTarget_greedy (smallToLarge : Bool) (hload : ∀ df ∈ dfs, 0 ≤ df.2) (ht : 0 ≤ target) :
    ∃ skipped, Greedy target dfs (sendUntilTarget smallToLarge target dfs).1 skipped ∧
      ((∃ df ∈ skipped, df.2 < 2147483648) → Smallest (sendUntilTarget smallToLarge target dfs).2 skipped) := by
  have hperm := scan_perm smallToLarge dfs
  obtain ⟨skipped, hgreedy, -, hnext, hleast⟩ :=
    scanned_foldl (fun df hdf => hload df (hperm.subset hdf)) ht
  rw [sendUntilTarget_eq]
  refine ⟨skipped, ⟨hgreedy.perm.trans hperm, hgreedy.le, hgreedy.maximal⟩, ?_⟩
  rintro ⟨df, hdf, hlt⟩
  refine ⟨hnext.resolve_right fun hsent => ?_, hleast⟩
  have hle := hleast df hdf
  rw [hsent] at hle
  exact absurd hlt (not_lt.mpr hle)

/-! ## The nearest selection -/

/-- How far a strategy is from the target. -/
def distance (target : ℚ) (loads : List ℚ) (s : Strategy) : ℚ := |load (s.select target (dirfrags loads)) - target|

/-- What `pack` returns for a selection. -/
def text (sel : List Dirfrag) : List Char := if sel = [] then ['-', '1'] else spaced (sel.map fun v => ofInt v.1)

theorem pack_text (strategies : List Strategy) (target : ℚ) (loads : List ℚ) :
    pack strategies target loads = text (packed strategies target loads) := by
  rw [pack, text]
  refine if_congr ?_ rfl rfl
  rw [spaced_eq_nil, List.map_eq_nil_iff]

/-- The first of the nearest strategies decides what `pack` returns. -/
theorem pack_nearest (h : ∃ s ∈ strategies, distance target loads s < 2147483648) :
    ∃ s, Chosen (distance target loads) 2147483648 strategies s ∧
      pack strategies target loads = text (s.select target (dirfrags loads)) := by
  rw [pack_text, packed_eq]
  rcases foldl_better_cases (distance target loads) (fun s => s.select target (dirfrags loads)) 2147483648 []
    strategies with ⟨-, hall⟩ | ⟨s, hs⟩
  · obtain ⟨s, hs, hlt⟩ := h
    exact absurd hlt (not_lt.mpr (hall s hs))
  · exact ⟨s, hs, congrArg (fun best => text best.2) hs.foldl⟩

/-- `send_until_target` is greedy, and `pack` takes what is nearest to the target. -/
theorem greedy_nearest (hload : ∀ df ∈ dfs, 0 ≤ df.2) (ht : 0 ≤ target) :
    (∀ smallToLarge, ∃ skipped, Greedy target dfs (sendUntilTarget smallToLarge target dfs).1 skipped ∧
      ((∃ df ∈ skipped, df.2 < 2147483648) → Smallest (sendUntilTarget smallToLarge target dfs).2 skipped)) ∧
    ∀ (strategies : List Strategy) (loads : List ℚ), (∃ s ∈ strategies, distance target loads s < 2147483648) →
      ∃ s, Chosen (distance target loads) 2147483648 strategies s ∧
        pack strategies target loads = text (s.select target (dirfrags loads)) :=
  ⟨fun smallToLarge => sendUntilTarget_greedy smallToLarge hload ht, fun _ _ h => pack_nearest h⟩

theorem greedy_nearest_three : (sendUntilTarget true 5 [(1, 4), (2, 2), (3, 1)]).2 = (2, 2) ∧
    pack [.half, .smallFirst] 5 [4, 2, 1] = [' ', '1', ' ', '3'] ∧
    ∃ skipped, Greedy 5 [(1, 4), (2, 2), (3, 1)] (sendUntilTarget true 5 [(1, 4), (2, 2), (3, 1)]).1 skipped := by
  have hload : ∀ df ∈ ([(1, 4), (2, 2), (3, 1)] : List Dirfrag), 0 ≤ df.2 := by decide +kernel
  have ht : (0 : ℚ) ≤ 5 := by decide +kernel
  obtain ⟨skipped, hgreedy, -⟩ := (greedy_nearest hload ht).1 true
  exact ⟨by decide +kernel, by decide +kernel, skipped, hgreedy⟩

/-- A dirfrag with the load of the sentinel is skipped, and the sentinel is returned. -/
theorem not_nextmin_smallest : ¬∃ skipped, Greedy 0 [(1, 2147483648)] (sendUntilTarget true 0 [(1, 2147483648)]).1 skipped ∧
    (skipped ≠ [] → Smallest (sendUntilTarget true 0 [(1, 2147483648)]).2 skipped) := by
  rintro ⟨skipped, hgreedy, hsmall⟩
  have hsent : (sendUntilTarget true 0 [(1, 2147483648)]).1 = [] := by decide +kernel
  have hnext : (sendUntilTarget true 0 [(1, 2147483648)]).2 = sentinel := by decide +kernel
  have hperm := hgreedy.perm
  rw [hsent, List.nil_append, List.perm_singleton] at hperm
  have hin := (hsmall (by rw [hperm]; exact List.cons_ne_nil _ _)).1
  rw [hnext, hperm] at hin
  exact absurd hin (by decide +kernel)

/-! ## The order of the dirfrags -/

/-- The direction that `strategy_map` passes to `send_until_target`. -/
def Strategy.smallToLarge : Strategy → Option Bool
  | smallFirst | smallFirstPlus1 | bigFirst => some true
  | bigFirstPlus1 => some false
  | half | bigHalf | smallHalf => none

/-- The loads in the order in which a strategy goes over them. -/
def Strategy.Scans (r : ℚ → ℚ → Prop) (dfs : List Dirfrag) (s : Strategy) : Prop :=
  ∃ b, s.smallToLarge = some b ∧ ((scan b dfs).map Prod.snd).Pairwise r

/-- A selection of `n` dirfrags, in the relation `r` to all others. -/
def Selects (r : ℚ → ℚ → Prop) (dfs : List Dirfrag) (n : ℕ) (sel : List Dirfrag) : Prop :=
  sel.length = n ∧ ∃ rest, (sel ++ rest).Perm dfs ∧ ∀ x ∈ sel, ∀ y ∈ rest, r x.2 y.2

/-- What the name of a strategy says. -/
def Strategy.Named (target : ℚ) (dfs : List Dirfrag) : Strategy → Prop
  | smallFirst => smallFirst.Scans (· ≤ ·) dfs
  | smallFirstPlus1 => smallFirstPlus1.Scans (· ≤ ·) dfs
  | bigFirst => bigFirst.Scans (· ≥ ·) dfs
  | bigFirstPlus1 => bigFirstPlus1.Scans (· ≥ ·) dfs
  | half => Selects (fun _ _ => True) dfs ((dfs.length + 1) / 2) (half.select target dfs)
  | bigHalf => Selects (· ≥ ·) dfs (dfs.length / 2) (bigHalf.select target dfs)
  | smallHalf => Selects (· ≤ ·) dfs (dfs.length / 2) (smallHalf.select target dfs)

/-- All loads are the same. -/
def Level (dfs : List Dirfrag) : Prop := ∀ x ∈ dfs, ∀ y ∈ dfs, x.2 = y.2

section Ordered

variable {r : ℚ → ℚ → Prop} {s : Strategy} {b : Bool}

/-- A scan goes from the smallest to the largest load and back only if they are all the same. -/
theorem scans_iff (hb : s.smallToLarge = some b) (hback : (scan b dfs).Pairwise fun x y => r y.2 x.2)
    (hrefl : ∀ x, r x x) (hanti : ∀ x y, r x y → r y x → x = y) : s.Scans r dfs ↔ Level dfs := by
  have hperm := scan_perm b dfs
  constructor
  · rintro ⟨b', hb', hpair⟩
    obtain rfl : b' = b := Option.some.inj (hb'.symm.trans hb)
    have heq : ((scan b' dfs).map Prod.snd).Pairwise Eq :=
      (hpair.and (List.pairwise_map.mpr hback)).imp fun h => hanti _ _ h.1 h.2
    intro x hx y hy
    exact heq.forall_of_forall (fun _ _ => rfl) (List.mem_map_of_mem (hperm.mem_iff.mpr hx))
      (List.mem_map_of_mem (hperm.mem_iff.mpr hy))
  · intro hlevel
    refine ⟨b, hb, List.pairwise_map.mpr (List.pairwise_of_forall_mem_list fun x hx y hy => ?_)⟩
    rw [hlevel x (hperm.subset hx) y (hperm.subset hy)]
    exact hrefl _

/-- The first half is in order to the rest, and the other way round, only if all loads are the same. -/
theorem selects_iff (hperm : xs.Perm dfs) (hback : xs.Pairwise fun x y => r y.2 x.2) (hrefl : ∀ x, r x x)
    (hanti : ∀ x y, r x y → r y x → x = y) :
    Selects r dfs (dfs.length / 2) (xs.take (dfs.length / 2)) ↔ Level dfs := by
  have hlen := hperm.length_eq
  constructor
  · rintro ⟨-, rest, hrest, hr⟩
    have hdrop : rest.Perm (xs.drop (dfs.length / 2)) := by
      apply (List.perm_append_left_iff (xs.take (dfs.length / 2))).mp
      rw [List.take_append_drop]
      exact hrest.trans hperm.symm
    have heq : ∀ x ∈ xs.take (dfs.length / 2), ∀ y ∈ xs.drop (dfs.length / 2), x.2 = y.2 := by
      intro x hx y hy
      exact hanti _ _ (hr x hx y (hdrop.mem_iff.mpr hy)) (hback.rel_of_mem_take_of_mem_drop hx hy)
    have hshort : dfs.length ≤ 1 ∨ 2 ≤ dfs.length := by omega
    rcases hshort with hshort | hlong
    · intro x hx y hy
      obtain ⟨i, hi, rfl⟩ := List.getElem_of_mem hx
      obtain ⟨j, hj, rfl⟩ := List.getElem_of_mem hy
      have : i = j := by omega
      subst this
      rfl
    · obtain ⟨a, ha⟩ : ∃ a, a ∈ xs.take (dfs.length / 2) :=
        List.exists_mem_of_length_pos (by rw [List.length_take]; omega)
      obtain ⟨c, hc⟩ : ∃ c, c ∈ xs.drop (dfs.length / 2) :=
        List.exists_mem_of_length_pos (by rw [List.length_drop]; omega)
      -- Both halves have the load of `a`.
      have hall : ∀ x ∈ dfs, x.2 = a.2 := by
        intro x hx
        have hx' := hperm.mem_iff.mpr hx
        rw [← List.take_append_drop (dfs.length / 2) xs] at hx'
        rcases List.mem_append.mp hx' with hx' | hx'
        · exact (heq x hx' c hc).trans (heq a ha c hc).symm
        · exact (heq a ha x hx').symm
      exact fun x hx y hy => (hall x hx).trans (hall y hy).symm
  · intro hlevel
    refine ⟨?_, xs.drop (dfs.length / 2), ?_, fun x hx y hy => ?_⟩
    · rw [List.length_take]
      omega
    · rw [List.take_append_drop]
      exact hperm
    · rw [hlevel x (hperm.subset (List.mem_of_mem_take hx)) y (hperm.subset (List.mem_of_mem_drop hy))]
      exact hrefl _

end Ordered

/-- What the hook gives to the strategies. -/
def handed {γ : Type} (smaller : List (ℚ × γ)) : List Dirfrag := dirfrags (smaller.reverse.map Prod.fst)

theorem handed_descending {γ : Type} {smaller : List (ℚ × γ)} (hsorted : (smaller.map Prod.fst).Pairwise (· ≤ ·)) :
    (handed smaller).Pairwise fun x y => y.2 ≤ x.2 := by
  have hloads : (handed smaller).map Prod.snd = (smaller.map Prod.fst).reverse := by
    rw [handed, map_snd_dirfrags, List.map_reverse]
  have hpair : ((handed smaller).map Prod.snd).Pairwise fun x y => y ≤ x := by
    rw [hloads]
    exact List.pairwise_reverse.mpr hsorted
  exact List.pairwise_map.mp hpair

theorem level_handed {γ : Type} {smaller : List (ℚ × γ)} :
    Level (handed smaller) ↔ ∀ p ∈ smaller, ∀ q ∈ smaller, p.1 = q.1 := by
  have hmem : ∀ l : ℚ, (∃ x ∈ handed smaller, x.2 = l) ↔ ∃ p ∈ smaller, p.1 = l := by
    intro l
    have hloads : (handed smaller).map Prod.snd = (smaller.map Prod.fst).reverse := by
      rw [handed, map_snd_dirfrags, List.map_reverse]
    rw [← List.mem_map, ← List.mem_map, hloads, List.mem_reverse]
  constructor
  · intro h p hp q hq
    obtain ⟨x, hx, hxp⟩ := (hmem p.1).mpr ⟨p, hp, rfl⟩
    obtain ⟨y, hy, hyq⟩ := (hmem q.1).mpr ⟨q, hq, rfl⟩
    rw [← hxp, ← hyq]
    exact h x hx y hy
  · intro h x hx y hy
    obtain ⟨p, hp, hpx⟩ := (hmem x.2).mp ⟨x, hx, rfl⟩
    obtain ⟨q, hq, hqy⟩ := (hmem y.2).mp ⟨y, hy, rfl⟩
    rw [← hpx, ← hqy]
    exact h p hp q hq

/-- `big_first` and `half` always do what their names say. -/
theorem named_cases (hdesc : dfs.Pairwise fun x y => y.2 ≤ x.2) (s : Strategy) :
    s.Named target dfs ↔ s = .bigFirst ∨ s = .half ∨ Level dfs := by
  have hasc : dfs.reverse.Pairwise fun x y => x.2 ≤ y.2 := List.pairwise_reverse.mpr hdesc
  cases s with
  | smallFirst =>
    simp only [Strategy.Named, reduceCtorEq, false_or]
    exact scans_iff (b := true) rfl hdesc le_refl fun _ _ => le_antisymm
  | smallFirstPlus1 =>
    simp only [Strategy.Named, reduceCtorEq, false_or]
    exact scans_iff (b := true) rfl hdesc le_refl fun _ _ => le_antisymm
  | bigFirst =>
    simp only [Strategy.Named, true_or, iff_true]
    exact ⟨true, rfl, List.pairwise_map.mpr hdesc⟩
  | bigFirstPlus1 =>
    simp only [Strategy.Named, reduceCtorEq, false_or]
    exact scans_iff (b := false) rfl hasc le_refl fun _ _ h h' => le_antisymm h' h
  | half =>
    simp only [Strategy.Named, true_or, or_true, iff_true]
    refine ⟨?_, dfs.drop ((dfs.length + 1) / 2), ?_, fun _ _ _ _ => trivial⟩
    · show (dfs.take ((dfs.length + 1) / 2)).length = _
      rw [List.length_take]
      omega
    · show (dfs.take ((dfs.length + 1) / 2) ++ _).Perm dfs
      rw [List.take_append_drop]
  | bigHalf =>
    simp only [Strategy.Named, reduceCtorEq, false_or]
    exact selects_iff (List.reverse_perm dfs) hasc le_refl fun _ _ h h' => le_antisymm h' h
  | smallHalf =>
    simp only [Strategy.Named, reduceCtorEq, false_or]
    exact selects_iff (.refl dfs) hdesc le_refl fun _ _ => le_antisymm

/-- The hook gives the loads in descending order, so all strategies do what their names say only when the loads are the
same. -/
theorem named_iff {γ : Type} {smaller : List (ℚ × γ)} (hsorted : (smaller.map Prod.fst).Pairwise (· ≤ ·)) :
    (∀ s : Strategy, s.Named target (handed smaller)) ↔ ∀ p ∈ smaller, ∀ q ∈ smaller, p.1 = q.1 := by
  rw [← level_handed]
  constructor
  · intro h
    rcases (named_cases (handed_descending hsorted) .smallFirst).mp (h .smallFirst) with hs | hs | hlevel
    · cases hs
    · cases hs
    · exact hlevel
  · exact fun hlevel s => (named_cases (handed_descending hsorted) s).mpr (.inr (.inr hlevel))

theorem named_iff_same : Strategy.bigHalf.select 3 (handed [(2, 'a'), (2, 'b')]) = [(2, 2)] ∧
    Strategy.smallFirst.Named 3 (handed [(2, 'a'), (2, 'b')]) ∧ Strategy.bigHalf.Named 3 (handed [(2, 'a'), (2, 'b')]) := by
  have hnamed : ∀ s : Strategy, s.Named 3 (handed [(2, 'a'), (2, 'b')]) :=
    (named_iff (by decide +kernel)).mpr (by decide +kernel)
  exact ⟨by decide +kernel, hnamed .smallFirst, hnamed .bigHalf⟩

/-- Of two dirfrags `big_half` selects the smaller one. -/
theorem not_named : Strategy.bigHalf.select 3 (handed [(1, 'a'), (2, 'b')]) = [(2, 1)] ∧
    ¬∀ s : Strategy, s.Named 3 (handed [(1, 'a'), (2, 'b')]) := by
  refine ⟨by decide +kernel, fun h => ?_⟩
  obtain ⟨b, hb, hpair⟩ := h .smallFirst
  obtain rfl : true = b := Option.some.inj hb
  exact absurd hpair (by decide +kernel)

end CephMds.BinPacker
