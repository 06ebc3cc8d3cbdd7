import CephMds.Model.BinPacker

/-!
# The positions that the bin packer returns

`send_until_target` selects different dirfrags, and adds one more if it has skipped
any (`sendUntilTarget_over`); otherwise what it adds is the sentinel
(`sendUntilTarget_fits`). The hook reads the positions of what is sent unless the
sentinel is among them or their text does not fit into its buffer (`pack_agrees_iff`).
-/

namespace CephMds.BinPacker

open Checked Text

/-! ## The first least -/

section Least

variable {α β : Type} {d : α → ℚ} {sel : α → β} {bound : ℚ} {b : β} {xs pre post : List α} {s : α}

/-- The first of the elements whose distance is the least, and below the bound. -/
def Chosen (d : α → ℚ) (bound : ℚ) (xs : List α) (s : α) : Prop :=
  ∃ pre post, xs = pre ++ s :: post ∧ d s < bound ∧ (∀ r ∈ pre, d s < d r) ∧ ∀ r ∈ post, d s ≤ d r

/-- One element is tried. -/
def better (d : α → ℚ) (sel : α → β) (best : ℚ × β) (s : α) : ℚ × β := if d s < best.1 then (d s, sel s) else best

theorem foldl_better_keep (h : ∀ r ∈ post, bound ≤ d r) : post.foldl (better d sel) (bound, b) = (bound, b) := by
  induction post with
  | nil => rfl
  | cons r post ih =>
    rw [List.foldl_cons, better, if_neg (not_lt.mpr (h r List.mem_cons_self))]
    exact ih fun r hr => h r (List.mem_cons_of_mem _ hr)

theorem foldl_better_lt {x : ℚ} (best : ℚ × β) (hb : x < best.1) (h : ∀ r ∈ pre, x < d r) :
    x < (pre.foldl (better d sel) best).1 := by
  induction pre generalizing best with
  | nil => exact hb
  | cons r pre ih =>
    refine ih _ ?_ fun r hr => h r (List.mem_cons_of_mem _ hr)
    rw [better]
    split
    · exact h r List.mem_cons_self
    · exact hb

theorem Chosen.foldl (h : Chosen d bound xs s) : xs.foldl (better d sel) (bound, b) = (d s, sel s) := by
  obtain ⟨pre, post, rfl, hs, hpre, hpost⟩ := h
  have hlt : d s < (pre.foldl (better d sel) (bound, b)).1 := foldl_better_lt (bound, b) hs hpre
  rw [List.foldl_append, List.foldl_cons, better, if_pos hlt]
  exact foldl_better_keep hpost

theorem foldl_better_cases (d : α → ℚ) (sel : α → β) (bound : ℚ) (b : β) (xs : List α) :
    xs.foldl (better d sel) (bound, b) = (bound, b) ∧ (∀ r ∈ xs, bound ≤ d r) ∨ ∃ s, Chosen d bound xs s := by
  induction xs using List.reverseRecOn with
  | nil => exact .inl ⟨rfl, fun r hr => absurd hr List.not_mem_nil⟩
  | append_singleton xs x ih =>
    rcases ih with ⟨hfold, hall⟩ | ⟨s, pre, post, rfl, hs, hpre, hpost⟩
    · by_cases hx : d x < bound
      · exact .inr ⟨x, xs, [], rfl, hx, fun r hr => hx.trans_le (hall r hr), fun r hr => absurd hr List.not_mem_nil⟩
      · left
        rw [List.foldl_append, hfold]
        refine ⟨if_neg hx, fun r hr => ?_⟩
        rcases List.mem_append.mp hr with hr | hr
        · exact hall r hr
        · rw [List.mem_singleton.mp hr]
          exact not_lt.mp hx
    · right
      by_cases hx : d x < d s
      · refine ⟨x, pre ++ s :: post, [], rfl, hx.trans hs, fun r hr => ?_, fun r hr => absurd hr List.not_mem_nil⟩
        rcases List.mem_append.mp hr with hr | hr
        · exact hx.trans (hpre r hr)
        · rcases List.mem_cons.mp hr with rfl | hr
          · exact hx
          · exact hx.trans_le (hpost r hr)
      · refine ⟨s, pre, post ++ [x], by simp, hs, hpre, fun r hr => ?_⟩
        rcases List.mem_append.mp hr with hr | hr
        · exact hpost r hr
        · rw [List.mem_singleton.mp hr]
          exact not_lt.mp hx

theorem Chosen.congr {d' : α → ℚ} (h : Chosen d bound xs s) (hd : ∀ r, d r = d' r) : Chosen d' bound xs s := by
  have : d = d' := funext hd
  exact this ▸ h

end Least

/-! ## Selections -/

variable {target : ℚ} {dfs xs : List Dirfrag} {loads : List ℚ} {strategies : List Strategy}

theorem load_append (xs ys : List Dirfrag) : load (xs ++ ys) = load xs + load ys := by
  rw [load, List.map_append, List.sum_append]
  rfl

theorem load_singleton (df : Dirfrag) : load [df] = df.2 := by
  rw [load, List.map_singleton, List.sum_singleton]

/-- What `send_until_target` has found in `xs`. -/
structure Found (target : ℚ) (xs : List Dirfrag) (s : Sending) : Prop where
  sum : s.sum = load s.sendDfs
  le : s.sendDfs = [] ∨ s.sum ≤ target
  sublist : s.sendDfs.Sublist xs
  next : s.sendDfs = xs ∧ s.nextmin = sentinel ∨ target < load xs ∧ s.nextmin ∈ xs ∧ s.nextmin ∉ s.sendDfs

theorem Found.visit {s : Sending} {df : Dirfrag} (h : Found target xs s) (hdf : 0 ≤ df.2 ∧ df.2 < 2147483648)
    (hnew : df ∉ xs) : Found target (xs ++ [df]) (s.visit target df) := by
  have hload : load (xs ++ [df]) = load xs + df.2 := by rw [load_append, load_singleton]
  rw [Sending.visit]
  split
  · rename_i hfits
    refine ⟨?_, .inr hfits, h.sublist.append (List.Sublist.refl _), ?_⟩
    · rw [load_append, load_singleton, ← h.sum]
    · rcases h.next with ⟨hall, hnext⟩ | ⟨hover, hmem, hnot⟩
      · exact .inl ⟨congrArg (· ++ [df]) hall, hnext⟩
      · refine .inr ⟨?_, List.mem_append_left _ hmem, fun hin => ?_⟩
        · rw [hload]
          linarith
        · rcases List.mem_append.mp hin with hin | hin
          · exact hnot hin
          · exact hnew (List.mem_singleton.mp hin ▸ hmem)
  · rename_i hfits
    have hnot : df ∉ s.sendDfs := fun hin => hnew (h.sublist.subset hin)
    refine ⟨h.sum, h.le, h.sublist.trans (List.sublist_append_left _ _), .inr ?_⟩
    rcases h.next with ⟨hall, hnext⟩ | ⟨hover, hmem, hnot'⟩
    · have hlt : df.2 < s.nextmin.2 := by
        rw [hnext]
        exact hdf.2
      rw [if_pos hlt]
      refine ⟨?_, List.mem_append_right _ (List.mem_singleton_self df), hnot⟩
      rw [hload, ← hall, ← h.sum]
      exact not_le.mp hfits
    · refine ⟨?_, ?_⟩
      · rw [hload]
        linarith
      · show (if df.2 < s.nextmin.2 then df else s.nextmin) ∈ _ ∧
          (if df.2 < s.nextmin.2 then df else s.nextmin) ∉ s.sendDfs
        split
        · exact ⟨List.mem_append_right _ (List.mem_singleton_self df), hnot⟩
        · exact ⟨List.mem_append_left _ hmem, hnot'⟩

theorem found_foldl (hload : ∀ df ∈ xs, 0 ≤ df.2 ∧ df.2 < 2147483648) (hnd : xs.Nodup) :
    Found target xs (xs.foldl (Sending.visit target) ⟨0, [], sentinel⟩) := by
  induction xs using List.reverseRecOn with
  | nil => exact ⟨rfl, .inl rfl, List.Sublist.refl _, .inl ⟨rfl, rfl⟩⟩
  | append_singleton xs df ih =>
    obtain ⟨hnd, -, hdisj⟩ := List.nodup_append'.mp hnd
    rw [List.foldl_append]
    refine (ih (fun df hdf => hload df (List.mem_append_left _ hdf)) hnd).visit
      (hload df (List.mem_append_right _ (List.mem_singleton_self df))) fun hin => ?_
    exact hdisj hin (List.mem_singleton_self df)

/-- Everything fits: nothing is skipped. -/
theorem sendUntilTarget_fits (smallToLarge : Bool) (hload : ∀ df ∈ dfs, 0 ≤ df.2 ∧ df.2 < 2147483648)
    (hnd : dfs.Nodup) (hfits : load dfs ≤ target) :
    sendUntilTarget smallToLarge target dfs = (if smallToLarge then dfs else dfs.reverse, sentinel) := by
  set xs := if smallToLarge then dfs else dfs.reverse with hxs
  have hperm : xs.Perm dfs := by
    rw [hxs]
    split
    · exact List.Perm.refl _
    · exact List.reverse_perm _
  have hsum : load xs = load dfs := (hperm.map Prod.snd).sum_eq
  have hfound : Found target xs (xs.foldl (Sending.visit target) ⟨0, [], sentinel⟩) :=
    found_foldl (fun df hdf => hload df (hperm.subset hdf)) (hperm.nodup_iff.mpr hnd)
  rcases hfound.next with ⟨hall, hnext⟩ | ⟨hover, -⟩
  · exact Prod.ext hall hnext
  · rw [hsum] at hover
    exact absurd hfits (not_le.mpr hover)

/-- Not everything fits: what has been skipped is another one. -/
theorem sendUntilTarget_over (smallToLarge : Bool) (hload : ∀ df ∈ dfs, 0 ≤ df.2 ∧ df.2 < 2147483648)
    (hnd : dfs.Nodup) (hne : dfs ≠ []) (hover : target < load dfs) :
    (plus1 (sendUntilTarget smallToLarge target dfs)).Nodup ∧
    ∀ df ∈ plus1 (sendUntilTarget smallToLarge target dfs), df ∈ dfs := by
  set xs := if smallToLarge then dfs else dfs.reverse with hxs
  have hperm : xs.Perm dfs := by
    rw [hxs]
    split
    · exact List.Perm.refl _
    · exact List.reverse_perm _
  have hsum : load xs = load dfs := (hperm.map Prod.snd).sum_eq
  have hfound : Found target xs (xs.foldl (Sending.visit target) ⟨0, [], sentinel⟩) :=
    found_foldl (fun df hdf => hload df (hperm.subset hdf)) (hperm.nodup_iff.mpr hnd)
  have hnext : (sendUntilTarget smallToLarge target dfs).2 ∈ xs ∧
      (sendUntilTarget smallToLarge target dfs).2 ∉ (sendUntilTarget smallToLarge target dfs).1 := by
    rcases hfound.next with ⟨hall, -⟩ | ⟨-, hmem, hnot⟩
    · rcases hfound.le with hnil | hle
      · rw [hall] at hnil
        have hdfs : dfs = [] := List.Perm.eq_nil (hnil ▸ hperm.symm)
        exact absurd hdfs hne
      · rw [hfound.sum, hall, hsum] at hle
        exact absurd hle (not_le.mpr hover)
    · exact ⟨hmem, hnot⟩
  have hnodup : (sendUntilTarget smallToLarge target dfs).1.Nodup := (hperm.nodup_iff.mpr hnd).sublist hfound.sublist
  constructor
  · exact List.nodup_append'.mpr ⟨hnodup, List.nodup_singleton _, fun df hdf hdf' =>
      hnext.2 (List.mem_singleton.mp hdf' ▸ hdf)⟩
  · intro df hdf
    rcases List.mem_append.mp hdf with hdf | hdf
    · exact hperm.subset (hfound.sublist.subset hdf)
    · rw [List.mem_singleton.mp hdf]
      exact hperm.subset hnext.1

theorem sendUntilTarget_sublist (hload : ∀ df ∈ dfs, 0 ≤ df.2 ∧ df.2 < 2147483648) (hnd : dfs.Nodup) :
    (sendUntilTarget true target dfs).1.Sublist dfs := (found_foldl hload hnd).sublist

/-- The strategies that add one. -/
def Strategy.plusOne : Strategy → Bool
  | smallFirstPlus1 | bigFirstPlus1 => true
  | _ => false

/-- Different dirfrags, and no others. -/
theorem select_distinct (s : Strategy) (hload : ∀ df ∈ dfs, 0 ≤ df.2 ∧ df.2 < 2147483648) (hnd : dfs.Nodup)
    (hne : dfs ≠ []) (h : s.plusOne = false ∨ target < load dfs) :
    (s.select target dfs).Nodup ∧ ∀ df ∈ s.select target dfs, df ∈ dfs := by
  have hsub : ∀ ys : List Dirfrag, ys.Sublist dfs → ys.Nodup ∧ ∀ df ∈ ys, df ∈ dfs :=
    fun ys hys => ⟨hnd.sublist hys, fun df hdf => hys.subset hdf⟩
  cases s with
  | smallFirst => exact hsub _ (sendUntilTarget_sublist hload hnd)
  | smallFirstPlus1 => exact sendUntilTarget_over true hload hnd hne (h.resolve_left Bool.noConfusion)
  | bigFirst => exact hsub _ (sendUntilTarget_sublist hload hnd)
  | bigFirstPlus1 => exact sendUntilTarget_over false hload hnd hne (h.resolve_left Bool.noConfusion)
  | half => exact hsub _ (List.take_sublist _ _)
  | bigHalf =>
    have hrev : dfs.reverse.Nodup := List.nodup_reverse.mpr hnd
    exact ⟨hrev.sublist (List.take_sublist _ _), fun df hdf => List.mem_reverse.mp (List.mem_of_mem_take hdf)⟩
  | smallHalf => exact hsub _ (List.take_sublist _ _)

/-! ## Distances -/

/-- How far the selection is from the target, when everything fits. -/
def gap (target : ℚ) (loads : List ℚ) : Strategy → ℚ
  | .smallFirst | .bigFirst => target - loads.sum
  | .smallFirstPlus1 | .bigFirstPlus1 => |2147483648 - (target - loads.sum)|
  | .half => target - (loads.take ((loads.length + 1) / 2)).sum
  | .bigHalf => target - (loads.reverse.take (loads.length / 2)).sum
  | .smallHalf => target - (loads.take (loads.length / 2)).sum

theorem dirfrags_get (loads : List ℚ) (i : ℕ) : (dirfrags loads)[i]? = loads[i]?.map fun l => ((i : ℤ) + 1, l) := by
  rw [dirfrags, List.getElem?_mapIdx]

theorem map_snd_dirfrags (loads : List ℚ) : (dirfrags loads).map Prod.snd = loads := by
  refine List.ext_getElem? fun i => ?_
  rw [List.getElem?_map, dirfrags_get, Option.map_map]
  exact Option.map_id'

theorem map_fst_dirfrags (loads : List ℚ) :
    (dirfrags loads).map Prod.fst = (List.range loads.length).map fun i : ℕ => (i : ℤ) + 1 := by
  refine List.ext_getElem? fun i => ?_
  rw [List.getElem?_map, dirfrags_get, Option.map_map, List.getElem?_map]
  rcases lt_or_ge i loads.length with hlt | hge
  · rw [List.getElem?_eq_getElem hlt, List.getElem?_range hlt]
    rfl
  · rw [List.getElem?_eq_none hge, List.getElem?_eq_none (by simpa using hge)]
    rfl

theorem nodup_dirfrags (loads : List ℚ) : (dirfrags loads).Nodup := by
  refine List.Nodup.of_map Prod.fst ?_
  rw [map_fst_dirfrags]
  exact List.nodup_range.map fun i j h => by simpa using h

theorem load_dirfrags (loads : List ℚ) : load (dirfrags loads) = loads.sum := congrArg List.sum (map_snd_dirfrags loads)

theorem length_dirfrags (loads : List ℚ) : (dirfrags loads).length = loads.length := List.length_mapIdx

/-- The loads of dirfrags are between 0 and the sentinel's. -/
theorem mem_dirfrags {df : Dirfrag} (hload : ∀ l ∈ loads, 0 ≤ l ∧ l < 2147483648) (h : df ∈ dirfrags loads) :
    0 ≤ df.2 ∧ df.2 < 2147483648 := by
  refine hload _ ?_
  rw [← map_snd_dirfrags loads]
  exact List.mem_map_of_mem h

theorem load_take (loads : List ℚ) (n : ℕ) : load ((dirfrags loads).take n) = (loads.take n).sum := by
  rw [load, List.map_take, map_snd_dirfrags]

theorem load_reverse_take (loads : List ℚ) (n : ℕ) :
    load ((dirfrags loads).reverse.take n) = (loads.reverse.take n).sum := by
  rw [load, List.map_take, List.map_reverse, map_snd_dirfrags]

/-- A part of the loads is no more than all of them. -/
theorem sum_part {part : List ℚ} (hload : ∀ l ∈ loads, 0 ≤ l ∧ l < 2147483648) (hpart : part.Sublist loads) :
    part.sum ≤ loads.sum := hpart.sum_le_sum fun l hl => (hload l hl).1

/-- A selection with the sentinel. -/
theorem select_sentinel {s : Strategy} (hload : ∀ df ∈ dfs, 0 ≤ df.2 ∧ df.2 < 2147483648) (hnd : dfs.Nodup)
    (hfits : load dfs ≤ target) (hs : s.plusOne = true) :
    ∃ xs : List Dirfrag, xs.Perm dfs ∧ s.select target dfs = xs ++ [sentinel] := by
  cases s with
  | smallFirstPlus1 =>
    refine ⟨dfs, List.Perm.refl _, ?_⟩
    show plus1 (sendUntilTarget true target dfs) = _
    rw [sendUntilTarget_fits true hload hnd hfits]
    rfl
  | bigFirstPlus1 =>
    refine ⟨dfs.reverse, List.reverse_perm _, ?_⟩
    show plus1 (sendUntilTarget false target dfs) = _
    rw [sendUntilTarget_fits false hload hnd hfits]
    rfl
  | _ => cases hs

theorem gap_eq (hload : ∀ l ∈ loads, 0 ≤ l ∧ l < 2147483648) (hfits : loads.sum ≤ target) (s : Strategy) :
    |load (s.select target (dirfrags loads)) - target| = gap target loads s := by
  have hdfs : ∀ df ∈ dirfrags loads, 0 ≤ df.2 ∧ df.2 < 2147483648 := fun df => mem_dirfrags hload
  have hload' : load (dirfrags loads) ≤ target := by
    rw [load_dirfrags]
    exact hfits
  have hle : ∀ part : List ℚ, part.sum ≤ loads.sum → |part.sum - target| = target - part.sum := by
    intro part hpart
    rw [abs_sub_comm, abs_of_nonneg (by linarith)]
  have hall : load (sendUntilTarget true target (dirfrags loads)).1 = loads.sum := by
    rw [sendUntilTarget_fits true hdfs (nodup_dirfrags loads) hload']
    exact load_dirfrags loads
  have hplus : s.plusOne = true → |load (s.select target (dirfrags loads)) - target| =
      |2147483648 - (target - loads.sum)| := by
    intro hs
    obtain ⟨xs, hperm, hsel⟩ := select_sentinel hdfs (nodup_dirfrags loads) hload' hs
    have hsum : load xs = loads.sum := ((hperm.map Prod.snd).sum_eq).trans (load_dirfrags loads)
    rw [hsel, load_append, load_singleton, hsum]
    show |loads.sum + 2147483648 - target| = _
    congr 1
    ring
  cases s with
  | smallFirst | bigFirst =>
    show |load (sendUntilTarget true target (dirfrags loads)).1 - target| = _
    rw [hall]
    exact hle loads le_rfl
  | smallFirstPlus1 | bigFirstPlus1 => exact hplus rfl
  | half =>
    show |load ((dirfrags loads).take (((dirfrags loads).length + 1) / 2)) - target| = _
    rw [length_dirfrags, load_take]
    exact hle _ (sum_part hload (List.take_sublist _ _))
  | bigHalf =>
    show |load ((dirfrags loads).reverse.take ((dirfrags loads).length / 2)) - target| = _
    rw [length_dirfrags, load_reverse_take]
    refine hle _ ?_
    rw [← List.sum_reverse loads]
    exact (List.take_sublist _ _).sum_le_sum fun l hl => (hload l (List.mem_reverse.mp hl)).1
  | smallHalf =>
    show |load ((dirfrags loads).take ((dirfrags loads).length / 2)) - target| = _
    rw [length_dirfrags, load_take]
    exact hle _ (sum_part hload (List.take_sublist _ _))

/-! ## What is sent -/

/-- Everything fits, and a strategy that adds one more is the first of the nearest ones. -/
def Escapes (strategies : List Strategy) (target : ℚ) (loads : List ℚ) : Prop :=
  loads.sum ≤ target ∧ ∃ s : Strategy, s.plusOne = true ∧ Chosen (gap target loads) 2147483648 strategies s

theorem packed_eq (strategies : List Strategy) (target : ℚ) (loads : List ℚ) : packed strategies target loads =
    (strategies.foldl (better (fun s => |load (s.select target (dirfrags loads)) - target|)
      fun s => s.select target (dirfrags loads)) (2147483648, [])).2 := rfl

theorem packed_distinct (hload : ∀ l ∈ loads, 0 ≤ l ∧ l < 2147483648) (hne : loads ≠ [])
    (h : ¬ Escapes strategies target loads) :
    (packed strategies target loads).Nodup ∧ ∀ df ∈ packed strategies target loads, df ∈ dirfrags loads := by
  have hdfs : dirfrags loads ≠ [] := fun hnil => hne (List.mapIdx_eq_nil_iff.mp hnil)
  rw [packed_eq]
  rcases foldl_better_cases (fun s => |load (Strategy.select target (dirfrags loads) s) - target|)
    (fun s => s.select target (dirfrags loads)) 2147483648 [] strategies with ⟨hfold, -⟩ | ⟨s, hs⟩
  · rw [hfold]
    exact ⟨List.nodup_nil, fun df hdf => absurd hdf List.not_mem_nil⟩
  · rw [hs.foldl]
    refine select_distinct s (fun df => mem_dirfrags hload) (nodup_dirfrags loads) hdfs ?_
    by_contra hc
    rw [not_or, Bool.not_eq_false, not_lt, load_dirfrags] at hc
    exact h ⟨hc.2, s, hc.1, hs.congr (gap_eq hload hc.2)⟩

theorem packed_sentinel (hload : ∀ l ∈ loads, 0 ≤ l ∧ l < 2147483648) (h : Escapes strategies target loads) :
    sentinel ∈ packed strategies target loads := by
  obtain ⟨hfits, s, hplus, hs⟩ := h
  have hs' := hs.congr fun r => (gap_eq hload hfits r).symm
  obtain ⟨xs, -, hsel⟩ := select_sentinel (fun df => mem_dirfrags hload) (nodup_dirfrags loads)
    ((load_dirfrags loads).le.trans hfits) hplus
  rw [packed_eq, hs'.foldl, hsel]
  exact List.mem_append_right _ (List.mem_singleton_self _)

/-- The dirfrags are numbered from 1. -/
theorem mem_dirfrags_iff {df : Dirfrag} : df ∈ dirfrags loads ↔ ∃ i : ℕ, loads[i]? = some df.2 ∧ df.1 = (i : ℤ) + 1 := by
  constructor
  · intro h
    obtain ⟨i, hi⟩ := List.mem_iff_getElem?.mp h
    rw [dirfrags_get, Option.map_eq_some_iff] at hi
    obtain ⟨l, hl, rfl⟩ := hi
    exact ⟨i, hl, rfl⟩
  · rintro ⟨i, hl, hi⟩
    refine List.mem_iff_getElem?.mpr ⟨i, ?_⟩
    rw [dirfrags_get, hl, Option.map_some, ← hi]

/-! ## The hook -/

variable {γ : Type} {metaLoad : γ → ℚ} {smaller : List (ℚ × γ)}

/-- The loop over the tokens exports what they name. -/
theorem foldlM_exportToken {pairs : List (ℚ × γ)} (hmeta : ∀ p ∈ pairs, p.1 = metaLoad p.2) {sel : List Dirfrag}
    (hsel : ∀ df ∈ sel, df ∈ dirfrags (pairs.map Prod.fst)) (e : Exporting γ) :
    ∃ fs : List γ, fs.map some = sel.map (fun df => (pairs.map Prod.snd)[df.1.toNat - 1]?) ∧
      (sel.map fun df => ofInt df.1).foldlM (exportToken metaLoad (pairs.map Prod.snd)) e =
        .ok ⟨e.exports ++ fs, e.amount + load sel⟩ := by
  induction sel generalizing e with
  | nil =>
    refine ⟨[], rfl, ?_⟩
    show Except.ok e = _
    rw [List.append_nil, load, List.map_nil, List.sum_nil, add_zero]
  | cons df sel ih =>
    obtain ⟨i, hi, hdf⟩ := mem_dirfrags_iff.mp (hsel df List.mem_cons_self)
    rw [List.getElem?_map, Option.map_eq_some_iff] at hi
    obtain ⟨p, hp, hload⟩ := hi
    have hfrag : (pairs.map Prod.snd)[df.1.toNat - 1]? = some p.2 := by
      rw [hdf, show ((i : ℤ) + 1).toNat - 1 = i by omega, List.getElem?_map, hp, Option.map_some]
    obtain ⟨fs, hfs, hrun⟩ := ih (fun df hdf => hsel df (List.mem_cons_of_mem _ hdf))
      ⟨e.exports ++ [p.2], e.amount + metaLoad p.2⟩
    refine ⟨p.2 :: fs, ?_, ?_⟩
    · rw [List.map_cons, List.map_cons, hfrag, hfs]
    · have htoken : exportToken metaLoad (pairs.map Prod.snd) e (ofInt df.1) =
          .ok ⟨e.exports ++ [p.2], e.amount + metaLoad p.2⟩ := by
        have hindex : (df.1 - 1).toNat = df.1.toNat - 1 := by omega
        rw [exportToken, toInt_ofInt, decide_eq_true (show 0 ≤ df.1 - 1 by omega), assert_true_bind, hindex, hfrag,
          deref_some_bind]
        rfl
      rw [List.map_cons, List.foldlM_cons, htoken]
      refine hrun.trans ?_
      have hmem : p ∈ pairs := List.mem_of_getElem? hp
      have hsum : load (df :: sel) = metaLoad p.2 + load sel := by
        rw [load, List.map_cons, List.sum_cons, ← hload, hmeta p hmem]
        rfl
      rw [List.append_assoc, List.singleton_append, hsum, add_assoc]

/-- What `pack` returns is `-1`, or a list of different positions, and the hook exports the dirfrags at these positions
and adds the load that `pack` has computed. -/
def Agrees (metaLoad : γ → ℚ) (strategies : List Strategy) (smaller : List (ℚ × γ)) (target : ℚ) : Prop :=
  ∃ positions : List ℕ, positions.Nodup ∧ (∀ i ∈ positions, 1 ≤ i ∧ i ≤ smaller.length) ∧
    pack strategies target (smaller.reverse.map Prod.fst) =
      (if positions = [] then ['-', '1'] else spaced (positions.map ofNat)) ∧
    ∀ e : Exporting γ, ∃ fs : List γ, fs.map some = positions.map (fun i => (smaller.reverse.map Prod.snd)[i - 1]?) ∧
      fragmentSelectorLuahook metaLoad strategies smaller target e =
        .ok ⟨e.exports ++ fs, e.amount + load (packed strategies target (smaller.reverse.map Prod.fst))⟩

theorem spaced_eq_nil {ts : List (List Char)} : spaced ts = [] ↔ ts = [] := by
  cases ts with
  | nil => exact ⟨fun _ => rfl, fun _ => rfl⟩
  | cons t ts => exact ⟨fun h => (List.cons_ne_nil _ _ h).elim, fun h => (List.cons_ne_nil _ _ h).elim⟩

/-- The text of a selection is not `-1`, which has no blank before it. -/
theorem spaced_ne_minus {ts : List (List Char)} : spaced ts ≠ ['-', '1'] := by
  cases ts with
  | nil => exact (List.cons_ne_nil _ _).symm
  | cons t ts =>
    intro h
    exact absurd (List.cons.inj h).1 (by decide)

theorem agrees_of_packed (hne : smaller ≠ []) (hmeta : ∀ p ∈ smaller, p.1 = metaLoad p.2)
    (hnd : (packed strategies target (smaller.reverse.map Prod.fst)).Nodup)
    (hmem : ∀ df ∈ packed strategies target (smaller.reverse.map Prod.fst),
      df ∈ dirfrags (smaller.reverse.map Prod.fst))
    (hfits : (pack strategies target (smaller.reverse.map Prod.fst)).length < lineMax) :
    Agrees metaLoad strategies smaller target := by
  set loads := smaller.reverse.map Prod.fst with hloads
  have hlength : loads.length = smaller.length := by rw [hloads, List.length_map, List.length_reverse]
  have hpos : ∀ df ∈ packed strategies target loads, ∃ i < smaller.length, df.1 = (i : ℤ) + 1 := by
    intro df hdf
    obtain ⟨i, hi, hdf⟩ := mem_dirfrags_iff.mp (hmem df hdf)
    obtain ⟨hlt, -⟩ := List.getElem?_eq_some_iff.mp hi
    exact ⟨i, hlength ▸ hlt, hdf⟩
  have htext : (packed strategies target loads).map (fun df => ofInt df.1) =
      ((packed strategies target loads).map fun df => df.1.toNat).map ofNat := by
    rw [List.map_map]
    refine List.map_congr_left fun df hdf => ?_
    obtain ⟨i, -, hi⟩ := hpos df hdf
    rw [Function.comp_apply, hi]
    rfl
  refine ⟨(packed strategies target loads).map fun df => df.1.toNat, ?_, ?_, ?_, fun e => ?_⟩
  · refine hnd.map_on fun df hdf df' hdf' heq => ?_
    obtain ⟨i, hi, hi'⟩ := mem_dirfrags_iff.mp (hmem df hdf)
    obtain ⟨j, hj, hj'⟩ := mem_dirfrags_iff.mp (hmem df' hdf')
    have hij : i = j := by omega
    rw [hij, hj, Option.some.injEq] at hi
    exact Prod.ext (hi'.trans (hij ▸ hj'.symm)) hi.symm
  · intro i hi
    obtain ⟨df, hdf, rfl⟩ := List.mem_map.mp hi
    obtain ⟨j, hj, hj'⟩ := hpos df hdf
    omega
  · rw [pack, ← htext]
    refine if_congr ?_ rfl rfl
    rw [spaced_eq_nil, List.map_eq_nil_iff, List.map_eq_nil_iff]
  · have hpairs : ∀ p ∈ smaller.reverse, p.1 = metaLoad p.2 := fun p hp => hmeta p (List.mem_reverse.mp hp)
    obtain ⟨fs, hfs, hrun⟩ := foldlM_exportToken hpairs hmem e
    refine ⟨fs, ?_, ?_⟩
    · rw [hfs, List.map_map]
      rfl
    · rw [fragmentSelectorLuahook, if_neg (fun h => hne (List.length_eq_zero_iff.mp h)), ← hloads]
      dsimp only
      rw [decide_eq_true hfits, assert_true_bind, pack]
      by_cases hnil : packed strategies target loads = []
      · rw [hnil] at hrun hfs ⊢
        exact hrun
      · have hspaced : spaced ((packed strategies target loads).map fun v => ofInt v.1) ≠ [] := by
          rw [ne_eq, spaced_eq_nil, List.map_eq_nil_iff]
          exact hnil
        simp only [if_neg hspaced, if_neg spaced_ne_minus]
        rw [tokens_spaced fun t ht => ?_]
        · exact hrun
        · obtain ⟨df, -, rfl⟩ := List.mem_map.mp ht
          exact isToken_ofInt df.1

theorem length_of_agrees (hne : smaller ≠ []) (h : Agrees metaLoad strategies smaller target) :
    (pack strategies target (smaller.reverse.map Prod.fst)).length < lineMax := by
  obtain ⟨positions, -, -, -, hrun⟩ := h
  obtain ⟨fs, -, hok⟩ := hrun ⟨[], 0⟩
  rw [fragmentSelectorLuahook, if_neg (fun h => hne (List.length_eq_zero_iff.mp h))] at hok
  obtain ⟨u, hu, -⟩ := bind_ok.mp hok
  exact of_decide_eq_true (assert_ok.mp hu)

/-- The two sides agree unless everything fits and the sentinel is sent, or the text is too long for `ret`. -/
theorem pack_agrees_iff (hne : smaller ≠ []) (hload : ∀ p ∈ smaller, 0 ≤ p.1 ∧ p.1 < 2147483648)
    (hmeta : ∀ p ∈ smaller, p.1 = metaLoad p.2) :
    Agrees metaLoad strategies smaller target ↔ ¬ Escapes strategies target (smaller.reverse.map Prod.fst) ∧
      (pack strategies target (smaller.reverse.map Prod.fst)).length < lineMax := by
  have hloads : ∀ l ∈ smaller.reverse.map Prod.fst, 0 ≤ l ∧ l < 2147483648 := by
    intro l hl
    obtain ⟨p, hp, rfl⟩ := List.mem_map.mp hl
    exact hload p (List.mem_reverse.mp hp)
  constructor
  · intro hagrees
    refine ⟨fun hesc => ?_, length_of_agrees hne hagrees⟩
    obtain ⟨positions, -, -, htext, -⟩ := hagrees
    have hmem := packed_sentinel hloads hesc
    set sel := packed strategies target (smaller.reverse.map Prod.fst) with hsel
    have hspaced : spaced (sel.map fun v => ofInt v.1) ≠ [] := by
      rw [ne_eq, spaced_eq_nil, List.map_eq_nil_iff]
      exact List.ne_nil_of_mem hmem
    rw [pack, ← hsel] at htext
    simp only [if_neg hspaced] at htext
    split at htext
    · exact spaced_ne_minus htext
    · -- The token `-1` would have to be one of the positions.
      have htokens := congrArg tokens htext
      rw [tokens_spaced, tokens_spaced] at htokens
      · have hin : ofInt (-1) ∈ positions.map ofNat := by
          rw [← htokens]
          exact List.mem_map.mpr ⟨sentinel, hmem, rfl⟩
        obtain ⟨i, -, hi⟩ := List.mem_map.mp hin
        have hneg : ((i : ℕ) : ℤ) = -1 := ofInt_injective hi
        omega
      · intro t ht
        obtain ⟨i, -, rfl⟩ := List.mem_map.mp ht
        exact isToken_ofNat i
      · intro t ht
        obtain ⟨df, -, rfl⟩ := List.mem_map.mp ht
        exact isToken_ofInt df.1
  · rintro ⟨hesc, hfits⟩
    have hne' : smaller.reverse.map Prod.fst ≠ [] := by
      simpa using hne
    obtain ⟨hnd, hmem⟩ := packed_distinct hloads hne' hesc
    exact agrees_of_packed hne hmeta hnd hmem hfits

/-- Three dirfrags, of which not all fit. -/
theorem pack_agrees_three : Agrees (fun l : ℚ => l) [.half, .bigFirst, .bigFirstPlus1, .smallFirstPlus1]
    [(1, 1), (2, 2), (4, 4)] 3 := by
  refine (pack_agrees_iff (List.cons_ne_nil _ _) ?_ ?_).mpr ⟨fun h => ?_, ?_⟩
  · decide +kernel
  · decide +kernel
  · exact absurd h.1 (by decide +kernel)
  · decide +kernel

/-- One dirfrag that fits, and only a strategy that adds one more: `pack` returns `1 -1`, and the hook goes before the
beginning of `frags`. -/
theorem not_pack_agrees : pack [.smallFirstPlus1] 5 [1] = [' ', '1', ' ', '-', '1'] ∧
    ¬ Agrees (fun l : ℚ => l) [.smallFirstPlus1] [(1, 1)] 5 := by
  refine ⟨by decide +kernel, ?_⟩
  rintro ⟨positions, -, -, -, hrun⟩
  obtain ⟨fs, -, hok⟩ := hrun ⟨[], 0⟩
  have hfault : (fragmentSelectorLuahook (fun l : ℚ => l) [.smallFirstPlus1] [(1, 1)] 5 ⟨[], 0⟩).isOk = false := by
    decide +kernel
  rw [hok] at hfault
  cases hfault

end CephMds.BinPacker
