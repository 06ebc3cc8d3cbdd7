import CephMds.Framework.Pouring
import CephMds.Model.PrepRebalance

/-!
# The matching of exporters and importers

`Safe` is what every match keeps: no rank exports more than it has above the
target, or imports more than it has below, and the targets of this rank are
what it exports (`prepRebalance_safe`).

`roomLeft` and `excessLeft` say in closed form what the import sources leave of
each rank (`importsMatched_left`), and the walk is a pouring of the one into the
other. It leaves an exporter and an importer unmatched where it comes to a rank
that has too little while others behind it are needed (`prepRebalance_complete_iff`).
-/

namespace CephMds.Rebalance

open Plan Pouring

variable {n beat : ℕ} {load : ℤ → ℚ} {importMap : ℤ → List ℤ} {whoami ex im i : ℤ} {p : Plan} {x maxex maxim : ℚ}
  {exs ims : List ℤ}

theorem negligible_pos : 0 < negligible := by norm_num [negligible]

/-! ## The cluster -/

theorem nodup_cluster : (cluster n).Nodup := List.nodup_range.map Nat.cast_injective

theorem mem_loadMap : i ∈ loadMap n load ↔ i ∈ cluster n := List.mem_insertionSort _

theorem nodup_loadMap : (loadMap n load).Nodup := (List.perm_insertionSort _ _).nodup_iff.mpr nodup_cluster

theorem mem_exporters : i ∈ exporters n load ↔ i ∈ cluster n ∧ targetLoad n load ≤ load i := by
  simp [exporters, mem_loadMap]

theorem mem_importers : i ∈ importers n load ↔ i ∈ cluster n ∧ load i < targetLoad n load := by
  simp [importers, mem_loadMap]

theorem mem_walkExporters : i ∈ walkExporters n load beat ↔ i ∈ exporters n load := by
  unfold walkExporters
  split
  · exact List.mem_reverse
  · exact Iff.rfl

theorem nodup_walkExporters : (walkExporters n load beat).Nodup := by
  unfold walkExporters
  split
  · exact List.nodup_reverse.mpr (nodup_loadMap.filter _)
  · exact nodup_loadMap.filter _

theorem nodup_importers : (importers n load).Nodup := nodup_loadMap.filter _

/-- Adding to one entry adds to the sum. -/
theorem sum_update {f : ℤ → ℚ} (hi : i ∈ cluster n) :
    ((cluster n).map (Function.update f i (f i + x))).sum = ((cluster n).map f).sum + x := by
  rw [← List.sum_toFinset _ nodup_cluster, ← List.sum_toFinset _ nodup_cluster,
    Finset.sum_update_of_mem (List.mem_toFinset.mpr hi), ← Finset.sum_erase_add _ _ (List.mem_toFinset.mpr hi),
    Finset.sdiff_singleton_eq_erase]
  ring

/-! ## A match -/

theorem tryMatch_eq (hex : 0 < maxex) (him : 0 < maxim) : p.tryMatch whoami ex maxex im maxim =
    (p.transfer whoami ex im (min maxex maxim), maxex - min maxex maxim, maxim - min maxex maxim) := by
  rw [tryMatch, if_neg (not_or.mpr ⟨not_le.mpr hex, not_le.mpr him⟩), if_neg (not_le.mpr (lt_min hex him))]

theorem exported_transfer :
    (p.transfer whoami ex im x).exported = Function.update p.exported ex (p.exported ex + x) := rfl

theorem imported_transfer :
    (p.transfer whoami ex im x).imported = Function.update p.imported im (p.imported im + x) := rfl

theorem getMaxex_transfer : (p.transfer whoami ex im x).getMaxex ex = p.getMaxex ex - x := by
  simp only [getMaxex, transfer, Function.update_self]
  ring

theorem getMaxim_transfer : (p.transfer whoami ex im x).getMaxim im = p.getMaxim im - x := by
  simp only [getMaxim, transfer, Function.update_self]
  ring

theorem getMaxex_transfer_of_ne (h : i ≠ ex) : (p.transfer whoami ex im x).getMaxex i = p.getMaxex i := by
  simp only [getMaxex, transfer, Function.update_of_ne h]

theorem getMaxim_transfer_of_ne (h : i ≠ im) : (p.transfer whoami ex im x).getMaxim i = p.getMaxim i := by
  simp only [getMaxim, transfer, Function.update_of_ne h]

/-! ## Safety -/

/-- No rank exports what it does not have above the target, or imports what it
has no room for, and the two sides agree. -/
structure Safe (n : ℕ) (load : ℤ → ℚ) (whoami : ℤ) (p : Plan) : Prop where
  metaLoad : p.metaLoad = load
  target : p.targetLoad = targetLoad n load
  exported (e : ℤ) : 0 ≤ p.exported e ∧ p.exported e ≤ max 0 (load e - targetLoad n load)
  imported (i : ℤ) : 0 ≤ p.imported i ∧ p.imported i ≤ max 0 (targetLoad n load - load i)
  balance : ((cluster n).map p.exported).sum = ((cluster n).map p.imported).sum
  targets {i : ℤ} {v : ℚ} : p.myTargets i = some v → i ∈ cluster n ∧ i ≠ whoami ∧ 0 ≤ v
  sum : ((cluster n).map fun i => (p.myTargets i).getD 0).sum = p.exported whoami

theorem Safe.lt_of_maxex (h : Safe n load whoami p) (hx : 0 < x) (hex : x ≤ p.getMaxex ex) :
    targetLoad n load < load ex ∧ p.exported ex + x ≤ load ex - targetLoad n load := by
  have := (h.exported ex).1
  simp only [getMaxex, h.metaLoad, h.target] at hex
  constructor
  · linarith
  · linarith

theorem Safe.lt_of_maxim (h : Safe n load whoami p) (hx : 0 < x) (him : x ≤ p.getMaxim im) :
    load im < targetLoad n load ∧ p.imported im + x ≤ targetLoad n load - load im := by
  have := (h.imported im).1
  simp only [getMaxim, h.metaLoad, h.target] at him
  constructor
  · linarith
  · linarith

/-- A match of what both have left. -/
theorem Safe.transfer (h : Safe n load whoami p) (he : ex ∈ cluster n) (hi : im ∈ cluster n) (hx : 0 < x)
    (hex : x ≤ p.getMaxex ex) (him : x ≤ p.getMaxim im) : Safe n load whoami (p.transfer whoami ex im x) := by
  obtain ⟨hload, hexp⟩ := h.lt_of_maxex hx hex
  obtain ⟨hroom, himp⟩ := h.lt_of_maxim hx him
  have hne : im ≠ ex := by
    rintro rfl
    exact absurd hload hroom.not_gt
  refine ⟨h.metaLoad, h.target, fun e => ?_, fun i => ?_, ?_, fun {i v} hv => ?_, ?_⟩
  · by_cases hee : e = ex
    · rw [hee, exported_transfer, Function.update_self]
      exact ⟨add_nonneg (h.exported ex).1 hx.le, hexp.trans (le_max_right _ _)⟩
    · rw [exported_transfer, Function.update_of_ne hee]
      exact h.exported e
  · by_cases hii : i = im
    · rw [hii, imported_transfer, Function.update_self]
      exact ⟨add_nonneg (h.imported im).1 hx.le, himp.trans (le_max_right _ _)⟩
    · rw [imported_transfer, Function.update_of_ne hii]
      exact h.imported i
  · rw [exported_transfer, imported_transfer, sum_update he, sum_update hi, h.balance]
  · simp only [Plan.transfer] at hv
    split at hv
    · rename_i hw
      by_cases hii : i = im
      · rw [hii, Function.update_self] at hv
        cases hv
        rw [hii, ← hw]
        refine ⟨hi, hne, add_nonneg ?_ hx.le⟩
        cases hm : p.myTargets im with
        | none => exact le_rfl
        | some v => exact (h.targets hm).2.2
      · rw [Function.update_of_ne hii] at hv
        exact h.targets hv
    · exact h.targets hv
  · simp only [Plan.transfer]
    by_cases hw : ex = whoami
    · have hup : (fun i => ((if ex = whoami then
          Function.update p.myTargets im (some ((p.myTargets im).getD 0 + x)) else p.myTargets) i).getD 0) =
            Function.update (fun i => (p.myTargets i).getD 0) im ((p.myTargets im).getD 0 + x) := by
        funext i
        rw [if_pos hw]
        by_cases hii : i = im
        · simp [hii]
        · simp [hii]
      rw [hup, sum_update hi, h.sum, ← hw, Function.update_self]
    · rw [if_neg hw, Function.update_of_ne (Ne.symm hw)]
      exact h.sum

theorem Safe.matchSources (he : ex ∈ cluster n) (hims : ∀ i ∈ ims, i ∈ cluster n) (h : Safe n load whoami p)
    (hm : maxex = p.getMaxex ex) (hpos : negligible < maxex) : Safe n load whoami (matchSources whoami ex maxex ims p) := by
  induction ims generalizing p maxex with
  | nil => exact h
  | cons im ims ih =>
    have hims' := fun i hi => hims i (List.mem_cons_of_mem _ hi)
    unfold Plan.matchSources
    split
    · exact ih hims' h hm hpos
    · rename_i him
      have hex₀ := negligible_pos.trans hpos
      have him₀ := negligible_pos.trans (not_le.mp him)
      have hs := h.transfer he (hims im List.mem_cons_self) (lt_min hex₀ him₀) (hm ▸ min_le_left _ _) (min_le_right _ _)
      simp only [tryMatch_eq hex₀ him₀]
      split
      · exact hs
      · rename_i hleft
        exact ih hims' hs (by rw [getMaxex_transfer, hm]) (not_le.mp hleft)

theorem Safe.matchImports (him : ∀ e, ∀ i ∈ importMap e, i ∈ cluster n) (hexs : ∀ e ∈ exs, e ∈ cluster n)
    (h : Safe n load whoami p) : Safe n load whoami (p.matchImports whoami importMap exs) := by
  unfold Plan.matchImports
  induction exs generalizing p with
  | nil => exact h
  | cons ex exs ih =>
    rw [List.foldl_cons]
    apply ih fun e he => hexs e (List.mem_cons_of_mem _ he)
    split
    · exact h
    · rename_i hleft
      exact h.matchSources (hexs ex List.mem_cons_self) (him ex) rfl (not_le.mp hleft)

theorem mem_advance {α : Type} {a b : α} {rest : List α} (h : b ∈ advance x a rest) : b ∈ a :: rest := by
  unfold advance at h
  split at h
  · exact List.mem_cons_of_mem _ h
  · exact h

theorem Safe.matchWalk (hexs : ∀ e ∈ exs, e ∈ cluster n) (hims : ∀ i ∈ ims, i ∈ cluster n) (h : Safe n load whoami p) :
    Safe n load whoami (p.matchWalk whoami exs ims) := by
  induction exs, ims, p using Plan.matchWalk.induct whoami with
  | case1 ex exs im ims p hbreak =>
    rw [Plan.matchWalk, dif_pos hbreak]
    exact h
  | case2 ex exs im ims p hbreak r ih =>
    rw [Plan.matchWalk, dif_neg hbreak]
    obtain ⟨hex, him⟩ := not_or.mp hbreak
    have hex := negligible_pos.trans_le (not_lt.mp hex)
    have him := negligible_pos.trans_le (not_lt.mp him)
    refine ih (fun e he => hexs e (mem_advance he)) (fun i hi => hims i (mem_advance hi)) ?_
    rw [show r = _ from tryMatch_eq hex him]
    exact h.transfer (hexs ex List.mem_cons_self) (hims im List.mem_cons_self) (lt_min hex him) (min_le_left _ _)
      (min_le_right _ _)
  | case3 exs ims p hno =>
    rw [Plan.matchWalk]
    · exact h
    · exact hno

theorem safe_reset : Safe n load whoami (.reset n load) := by
  refine ⟨rfl, rfl, fun e => ⟨le_rfl, le_max_left _ _⟩, fun i => ⟨le_rfl, le_max_left _ _⟩, rfl, fun hv => ?_, ?_⟩
  · cases hv
  · simp [Plan.reset]

theorem safe_prepRebalance (him : ∀ e, ∀ i ∈ importMap e, i ∈ cluster n) :
    Safe n load whoami (prepRebalance whoami n load importMap beat) := by
  unfold prepRebalance
  apply Safe.matchWalk
  · exact fun e he => (mem_exporters.mp (mem_walkExporters.mp he)).1
  · exact fun i hi => (mem_importers.mp hi).1
  · unfold importsMatched
    exact safe_reset.matchImports him fun e he => (mem_exporters.mp (List.mem_reverse.mp he)).1

/-- The exports and imports that are planned, where ranks import from ranks of the cluster. -/
theorem prepRebalance_safe (him : ∀ e, ∀ i ∈ importMap e, i ∈ cluster n)
    (hp : prepRebalance whoami n load importMap beat = p) :
    (∀ e, p.exported e ≤ max 0 (load e - targetLoad n load)) ∧
      (∀ i, p.imported i ≤ max 0 (targetLoad n load - load i)) ∧
      ((cluster n).map p.exported).sum = ((cluster n).map p.imported).sum ∧
      (∀ i, ¬(0 < p.exported i ∧ 0 < p.imported i)) ∧
      (∀ i v, p.myTargets i = some v → i ∈ cluster n ∧ i ≠ whoami ∧ 0 ≤ v) ∧
      ((cluster n).map fun i => (p.myTargets i).getD 0).sum = p.exported whoami ∧
      (∀ e, targetLoad n load ≤ load e → targetLoad n load ≤ load e - p.exported e) ∧
      ∀ i, load i ≤ targetLoad n load → load i + p.imported i ≤ targetLoad n load := by
  have h : Safe n load whoami p := hp ▸ safe_prepRebalance him
  refine ⟨fun e => (h.exported e).2, fun i => (h.imported i).2, h.balance, fun i hi => ?_, fun i v => h.targets, h.sum,
    fun e he => ?_, fun i hi => ?_⟩
  · have h₁ := lt_max_iff.mp (hi.1.trans_le (h.exported i).2)
    have h₂ := lt_max_iff.mp (hi.2.trans_le (h.imported i).2)
    have h₁ := h₁.resolve_left (lt_irrefl _)
    have h₂ := h₂.resolve_left (lt_irrefl _)
    linarith
  · have := (h.exported e).2
    rw [max_eq_right (sub_nonneg.mpr he)] at this
    linarith
  · have := (h.imported i).2
    rw [max_eq_right (sub_nonneg.mpr hi)] at this
    linarith

/-- Two ranks above the target and two below, the second of which the first has imported from. -/
def uneven (i : ℤ) : ℚ := if i = 0 then 7 else if i = 1 then 5 else 0

def fromTwo (i : ℤ) : List ℤ := if i = 0 then [2] else []

theorem prepRebalance_safe_uneven : (prepRebalance 0 4 uneven fromTwo 1).exported 0 = 3 ∧
    ((cluster 4).map (prepRebalance 0 4 uneven fromTwo 1).exported).sum =
      ((cluster 4).map (prepRebalance 0 4 uneven fromTwo 1).imported).sum := by
  have him : ∀ e, ∀ i ∈ fromTwo e, i ∈ cluster 4 := by
    intro e i hi
    unfold fromTwo at hi
    split at hi
    · rw [List.mem_singleton.mp hi]
      decide
    · cases hi
  have hrun : prepRebalance 0 4 uneven fromTwo 1 = prepRebalance 0 4 uneven fromTwo 1 := rfl
  exact ⟨by decide +kernel, (prepRebalance_safe him hrun).2.2.1⟩

/-! ## Completeness -/

/-! ### The import sources -/

section Sources

variable (n : ℕ) (load : ℤ → ℚ) (importMap : ℤ → List ℤ)

def excess (e : ℤ) : ℚ := load e - targetLoad n load

/-- What is left of the room of a rank when the exporters `es` have been matched
with the ranks they import from, the last one first. -/
def roomLeft : List ℤ → ℤ → ℚ
  | [], i => targetLoad n load - load i
  | e :: es, i => roomLeft es i - taken negligible (roomLeft es) (excess n load e) (importMap e) i

/-- What is left of the excess of each of them. -/
def excessLeft : List ℤ → List ℚ
  | [] => []
  | e :: es =>
    (excess n load e -
      ∑ i ∈ (importMap e).toFinset, taken negligible (roomLeft n load importMap es) (excess n load e) (importMap e) i) ::
      excessLeft es

/-- What the exporters have left when the walk begins, in its order. -/
def walkExcess (beat : ℕ) : List ℚ :=
  if beat % 2 = 1 then (excessLeft n load importMap (exporters n load)).reverse
  else excessLeft n load importMap (exporters n load)

end Sources

/-- What one room takes, and then the others. -/
theorem sum_taken_cons {f g : ℤ → ℚ} (hf : f im = x) (hg : g im = 0) (hfg : ∀ i ≠ im, f i = g i) :
    ∑ i ∈ (im :: ims).toFinset, f i = x + ∑ i ∈ ims.toFinset, g i := by
  rw [List.toFinset_cons, ← Finset.add_sum_erase _ _ (Finset.mem_insert_self im _), hf,
    Finset.erase_insert_eq_erase, ← Finset.sum_erase _ hg]
  congr 1
  exact Finset.sum_congr rfl fun i hi => hfg i (Finset.ne_of_mem_erase hi)

/-- An exporter takes from its sources in their order. -/
theorem matchSources_left (hex : maxex = p.getMaxex ex) (hpos : negligible < maxex) :
    (∀ i, (matchSources whoami ex maxex ims p).getMaxim i =
      p.getMaxim i - taken negligible p.getMaxim maxex ims i) ∧
    (matchSources whoami ex maxex ims p).getMaxex ex =
      maxex - ∑ i ∈ ims.toFinset, taken negligible p.getMaxim maxex ims i ∧
    ∀ e ≠ ex, (matchSources whoami ex maxex ims p).getMaxex e = p.getMaxex e := by
  induction ims generalizing p maxex with
  | nil => simp [matchSources, taken, hex]
  | cons im ims ih =>
    have hx₀ := negligible_pos.trans hpos
    unfold Plan.matchSources
    split
    · -- the source is passed over
      rename_i him
      obtain ⟨h₁, h₂, h₃⟩ := ih hex hpos
      refine ⟨fun i => by rw [h₁, taken_cons_of_le him], ?_, h₃⟩
      rw [h₂, sum_taken_cons (g := taken negligible p.getMaxim maxex ims) (taken_of_le him) (taken_of_le him)
        fun i _ => taken_cons_of_le him, zero_add]
    · rename_i him
      have him := not_le.mp him
      have hself : taken negligible p.getMaxim maxex (im :: ims) im = min maxex (p.getMaxim im) :=
        taken_cons_self him hpos
      simp only [tryMatch_eq hx₀ (negligible_pos.trans him)]
      split
      · -- the exporter has nothing left
        rename_i hleft
        have hdone : maxex - p.getMaxim im ≤ negligible := (sub_le_sub_left (min_le_right _ _) _).trans hleft
        have hzero : ∀ i ≠ im, taken negligible p.getMaxim maxex (im :: ims) i = 0 :=
          fun i hi => taken_cons_of_done negligible_pos.le him hdone hi
        refine ⟨fun i => ?_, ?_, fun e he => getMaxex_transfer_of_ne he⟩
        · by_cases hi : i = im
          · rw [hi, hself, getMaxim_transfer]
          · rw [hzero i hi, sub_zero, getMaxim_transfer_of_ne hi]
        · rw [getMaxex_transfer, ← hex, sum_taken_cons (g := fun _ => 0) hself rfl hzero, Finset.sum_const_zero, add_zero]
      · -- the source is used up
        rename_i hleft
        have hmin : min maxex (p.getMaxim im) = p.getMaxim im := by
          refine min_eq_right (le_of_not_ge fun hle => hleft ?_)
          rw [min_eq_left hle, sub_self]
          exact negligible_pos.le
        rw [hmin] at hleft hself ⊢
        obtain ⟨h₁, h₂, h₃⟩ := ih (p := p.transfer whoami ex im (p.getMaxim im)) (by rw [getMaxex_transfer, hex])
          (not_le.mp hleft)
        have hroom : (p.transfer whoami ex im (p.getMaxim im)).getMaxim = Function.update p.getMaxim im 0 := by
          funext i
          by_cases hi : i = im
          · rw [hi, getMaxim_transfer, sub_self, Function.update_self]
          · rw [getMaxim_transfer_of_ne hi, Function.update_of_ne hi]
        rw [hroom] at h₁ h₂
        have hother : ∀ i ≠ im, taken negligible p.getMaxim maxex (im :: ims) i =
            taken negligible (Function.update p.getMaxim im 0) (maxex - p.getMaxim im) ims i :=
          fun i hi => taken_cons_of_ne negligible_pos.le him hi
        have hzero : taken negligible (Function.update p.getMaxim im 0) (maxex - p.getMaxim im) ims im = 0 :=
          taken_of_le (by rw [Function.update_self]; exact negligible_pos.le)
        refine ⟨fun i => ?_, ?_, fun e he => (h₃ e he).trans (getMaxex_transfer_of_ne he)⟩
        · rw [h₁]
          by_cases hi : i = im
          · rw [hi, hself, hzero, Function.update_self, sub_self, sub_self]
          · rw [hother i hi, Function.update_of_ne hi]
        · rw [h₂, sum_taken_cons hself hzero hother, sub_sub]

/-- An exporter that has too little is passed over. -/
theorem taken_of_done {room : ℤ → ℚ} (h : x ≤ negligible) : taken negligible room x ims i = 0 := by
  refine if_neg fun hc => absurd hc.2.2 (not_lt.mpr (le_trans ?_ h))
  exact sub_le_self _ (Finset.sum_nonneg fun k _ => usable_nonneg negligible_pos.le k)

/-- What the import sources leave of each rank. -/
theorem matchImports_left (n : ℕ) (load : ℤ → ℚ) (whoami : ℤ) (importMap : ℤ → List ℤ) (hexs : exs.Nodup) :
    (∀ i, ((Plan.reset n load).matchImports whoami importMap exs.reverse).getMaxim i = roomLeft n load importMap exs i) ∧
    exs.map ((Plan.reset n load).matchImports whoami importMap exs.reverse).getMaxex = excessLeft n load importMap exs ∧
    ∀ e ∉ exs, ((Plan.reset n load).matchImports whoami importMap exs.reverse).getMaxex e = excess n load e := by
  induction exs with
  | nil => exact ⟨fun i => by simp [matchImports, reset, getMaxim, roomLeft], rfl,
      fun e _ => by simp [matchImports, reset, getMaxex, excess]⟩
  | cons ex exs ih =>
    obtain ⟨hex, hexs⟩ := List.nodup_cons.mp hexs
    obtain ⟨h₁, h₂, h₃⟩ := ih hexs
    obtain ⟨q, hq⟩ : ∃ q, q = (Plan.reset n load).matchImports whoami importMap exs.reverse := ⟨_, rfl⟩
    have hstep : (Plan.reset n load).matchImports whoami importMap (ex :: exs).reverse =
        if q.getMaxex ex ≤ negligible then q else matchSources whoami ex (q.getMaxex ex) (importMap ex) q := by
      rw [hq]
      simp [matchImports, List.foldl_append]
    rw [← hq] at h₁ h₂ h₃
    have hroom : q.getMaxim = roomLeft n load importMap exs := funext h₁
    have hself : q.getMaxex ex = excess n load ex := h₃ ex hex
    -- the two cases say the same of the rank that exports
    obtain ⟨r₁, r₂, r₃⟩ : (∀ i, ((Plan.reset n load).matchImports whoami importMap (ex :: exs).reverse).getMaxim i =
          q.getMaxim i - taken negligible q.getMaxim (q.getMaxex ex) (importMap ex) i) ∧
        ((Plan.reset n load).matchImports whoami importMap (ex :: exs).reverse).getMaxex ex =
          q.getMaxex ex - ∑ i ∈ (importMap ex).toFinset, taken negligible q.getMaxim (q.getMaxex ex) (importMap ex) i ∧
        ∀ e ≠ ex, ((Plan.reset n load).matchImports whoami importMap (ex :: exs).reverse).getMaxex e = q.getMaxex e := by
      rw [hstep]
      split
      · rename_i hle
        refine ⟨fun i => by rw [taken_of_done hle, sub_zero], ?_, fun e _ => rfl⟩
        rw [Finset.sum_eq_zero fun i _ => taken_of_done hle, sub_zero]
      · rename_i hgt
        exact matchSources_left rfl (not_le.mp hgt)
    rw [hroom, hself] at r₁ r₂
    refine ⟨fun i => r₁ i, ?_, fun e he => ?_⟩
    · rw [List.map_cons, r₂, excessLeft, ← h₂]
      congr 1
      refine List.map_congr_left fun e he => r₃ e ?_
      rintro rfl
      exact hex he
    · rw [r₃ e fun hc => he (hc ▸ List.mem_cons_self)]
      exact h₃ e fun hm => he (List.mem_cons_of_mem _ hm)

theorem importsMatched_left (n : ℕ) (load : ℤ → ℚ) (whoami : ℤ) (importMap : ℤ → List ℤ) (beat : ℕ) :
    (walkExporters n load beat).map (importsMatched whoami n load importMap).getMaxex = walkExcess n load importMap beat ∧
    (importers n load).map (importsMatched whoami n load importMap).getMaxim =
      (importers n load).map (roomLeft n load importMap (exporters n load)) := by
  have hnodup : (exporters n load).Nodup := nodup_loadMap.filter _
  obtain ⟨h₁, h₂, -⟩ := matchImports_left n load whoami importMap hnodup
  refine ⟨?_, List.map_congr_left fun i _ => h₁ i⟩
  unfold walkExporters walkExcess importsMatched
  split
  · rw [List.map_reverse, h₂]
  · exact h₂

/-! ### The walk -/

/-- A match passes on what is left of the two. -/
theorem matchable_advance {y : ℚ} (xs ys : List ℚ) (hx : negligible ≤ x) (hy : negligible ≤ y) :
    Matchable negligible (advance (x - min x y) (x - min x y) xs) (advance (y - min x y) (y - min x y) ys) ↔
      Matchable negligible (x :: xs) (y :: ys) := by
  have hε := negligible_pos.le
  unfold advance
  rcases le_total x y with hle | hle
  · rw [min_eq_left hle, sub_self, if_pos hε]
    split
    · rename_i hclose
      rw [matchable_step_close hx hy ((sub_nonpos.mpr hle).trans hε) hclose]
    · rename_i hgt
      rw [matchable_step_gt hε hx hy (not_le.mp hgt)]
  · rw [min_eq_right hle, sub_self, if_pos hε]
    split
    · rename_i hclose
      rw [matchable_step_close hx hy hclose ((sub_nonpos.mpr hle).trans hε)]
    · rename_i hgt
      rw [matchable_step_lt hε hx hy (not_le.mp hgt)]

/-- An exporter and an importer are left. -/
def PairLeft (p : Plan) (exs ims : List ℤ) : Prop :=
  ∃ e ∈ exs, ∃ i ∈ ims, negligible < p.getMaxex e ∧ negligible < p.getMaxim i

theorem pairLeft_iff : PairLeft p exs ims ↔
    (∃ x ∈ exs.map p.getMaxex, negligible < x) ∧ ∃ y ∈ ims.map p.getMaxim, negligible < y := by
  simp only [PairLeft, List.mem_map, exists_exists_and_eq_and]
  constructor
  · rintro ⟨e, he, i, hi, hx, hy⟩
    exact ⟨⟨e, he, hx⟩, ⟨i, hi, hy⟩⟩
  · rintro ⟨⟨e, he, hx⟩, ⟨i, hi, hy⟩⟩
    exact ⟨e, he, i, hi, hx, hy⟩

theorem map_advance {α β : Type} {f : α → β} {a : α} {rest : List α} :
    (advance x a rest).map f = advance x (f a) (rest.map f) := by
  unfold advance
  split
  · rfl
  · exact List.map_cons

theorem nodup_advance {α : Type} {a : α} {rest : List α} (h : (a :: rest).Nodup) : (advance x a rest).Nodup := by
  unfold advance
  split
  · exact (List.nodup_cons.mp h).2
  · exact h

/-- What a rank has left is all that is asked of it, so one that is passed need not be asked. -/
theorem exists_advance {f : ℤ → ℚ} {a : ℤ} {rest : List ℤ} (h : x ≤ negligible → f a ≤ negligible) :
    (∃ v ∈ (a :: rest).map f, negligible < v) ↔ ∃ v ∈ (advance x a rest).map f, negligible < v := by
  unfold advance
  split
  · rename_i hx
    simp only [List.map_cons, List.mem_cons, exists_eq_or_imp, or_iff_right (not_lt.mpr (h hx))]
  · exact Iff.rfl

/-- The walk changes no rank that it does not come to. -/
theorem matchWalk_frame : (∀ e ∉ exs, (p.matchWalk whoami exs ims).getMaxex e = p.getMaxex e) ∧
    ∀ i ∉ ims, (p.matchWalk whoami exs ims).getMaxim i = p.getMaxim i := by
  induction exs, ims, p using Plan.matchWalk.induct whoami with
  | case1 ex exs im ims p hbreak =>
    rw [Plan.matchWalk, dif_pos hbreak]
    exact ⟨fun _ _ => rfl, fun _ _ => rfl⟩
  | case2 ex exs im ims p hbreak r ih =>
    rw [Plan.matchWalk, dif_neg hbreak]
    obtain ⟨hex, him⟩ := not_or.mp hbreak
    have hr : r = _ := tryMatch_eq (negligible_pos.trans_le (not_lt.mp hex)) (negligible_pos.trans_le (not_lt.mp him))
    refine ⟨fun e he => ?_, fun i hi => ?_⟩
    · rw [ih.1 e fun hm => he (mem_advance hm), hr, getMaxex_transfer_of_ne]
      rintro rfl
      exact he List.mem_cons_self
    · rw [ih.2 i fun hm => hi (mem_advance hm), hr, getMaxim_transfer_of_ne]
      rintro rfl
      exact hi List.mem_cons_self
  | case3 exs ims p hno =>
    rw [Plan.matchWalk]
    · exact ⟨fun _ _ => rfl, fun _ _ => rfl⟩
    · exact hno

/-- The walk leaves a pair where something that is needed is hidden. -/
theorem matchWalk_pairLeft (hexs : exs.Nodup) (hims : ims.Nodup) :
    PairLeft (p.matchWalk whoami exs ims) exs ims ↔
      ¬Matchable negligible (exs.map p.getMaxex) (ims.map p.getMaxim) := by
  induction exs, ims, p using Plan.matchWalk.induct whoami with
  | case1 ex exs im ims p hbreak =>
    rw [Plan.matchWalk, dif_pos hbreak, pairLeft_iff, List.map_cons, List.map_cons, matchable_of_lt hbreak, not_not]
  | case2 ex exs im ims p hbreak r ih =>
    obtain ⟨hex, him⟩ := not_or.mp hbreak
    have hr : r = _ := tryMatch_eq (negligible_pos.trans_le (not_lt.mp hex)) (negligible_pos.trans_le (not_lt.mp him))
    have hexs' := (List.nodup_cons.mp hexs).1
    have hims' := (List.nodup_cons.mp hims).1
    have ih := ih (nodup_advance hexs) (nodup_advance hims)
    -- the residues of the ranks to come are the same after the match
    have hx : ∀ m, (exs.map (p.transfer whoami ex im m).getMaxex) = exs.map p.getMaxex := by
      refine fun m => List.map_congr_left fun e he => getMaxex_transfer_of_ne ?_
      rintro rfl
      exact hexs' he
    have hy : ∀ m, (ims.map (p.transfer whoami ex im m).getMaxim) = ims.map p.getMaxim := by
      refine fun m => List.map_congr_left fun i hi => getMaxim_transfer_of_ne ?_
      rintro rfl
      exact hims' hi
    obtain ⟨m, hm⟩ : ∃ m, m = min (p.getMaxex ex) (p.getMaxim im) := ⟨_, rfl⟩
    have hwalk : p.matchWalk whoami (ex :: exs) (im :: ims) = (p.transfer whoami ex im m).matchWalk whoami
        (advance (p.getMaxex ex - m) ex exs) (advance (p.getMaxim im - m) im ims) := by
      rw [Plan.matchWalk, dif_neg hbreak, hm]
      simp only [show p.tryMatch whoami ex _ im _ = _ from hr]
    rw [hr, ← hm] at ih
    simp only [map_advance, getMaxex_transfer, getMaxim_transfer, hx, hy] at ih
    have hpass := matchable_advance (exs.map p.getMaxex) (ims.map p.getMaxim) (not_lt.mp hex) (not_lt.mp him)
    rw [← hm] at hpass
    rw [hwalk, List.map_cons, List.map_cons, ← hpass, ← ih, pairLeft_iff, pairLeft_iff]
    refine and_congr (exists_advance fun hleft => ?_) (exists_advance fun hleft => ?_)
    · by_cases hadv : ex ∈ advance (p.getMaxex ex - m) ex exs
      · unfold advance at hadv
        rw [if_pos hleft] at hadv
        exact absurd hadv hexs'
      · rw [matchWalk_frame.1 ex hadv, getMaxex_transfer]
        exact hleft
    · by_cases hadv : im ∈ advance (p.getMaxim im - m) im ims
      · unfold advance at hadv
        rw [if_pos hleft] at hadv
        exact absurd hadv hims'
      · rw [matchWalk_frame.2 im hadv, getMaxim_transfer]
        exact hleft
  | case3 exs ims p hno =>
    rw [Plan.matchWalk]
    · cases exs with
      | nil => exact iff_of_false (by simp [PairLeft]) (not_not.mpr (matchable_nil (.inl rfl)))
      | cons ex exs =>
        cases ims with
        | nil => exact iff_of_false (by simp [PairLeft]) (not_not.mpr (matchable_nil (.inr rfl)))
        | cons im ims => exact (hno ex exs im ims rfl rfl).elim
    · exact hno

/-- A pair is left if and only if something that is needed is hidden behind a
rank that has the target load, or that the import sources have used up. -/
theorem prepRebalance_complete_iff (whoami : ℤ) (n : ℕ) (load : ℤ → ℚ) (importMap : ℤ → List ℤ) (beat : ℕ) :
    ¬PairLeft (prepRebalance whoami n load importMap beat) (exporters n load) (importers n load) ↔
      Matchable negligible (walkExcess n load importMap beat)
        ((importers n load).map (roomLeft n load importMap (exporters n load))) := by
  have hperm : ∀ q, PairLeft q (exporters n load) (importers n load) ↔
      PairLeft q (walkExporters n load beat) (importers n load) := by
    intro q
    unfold PairLeft
    simp only [mem_walkExporters]
  obtain ⟨h₁, h₂⟩ := importsMatched_left n load whoami importMap beat
  rw [hperm, prepRebalance, matchWalk_pairLeft nodup_walkExporters nodup_importers, h₁, h₂, not_not]

/-- Rank 1 has just the target. -/
def tied (i : ℤ) : ℚ := if i = 0 then 4 else if i = 1 then 2 else 0

/-- In an even beat the walk breaks off at rank 1, before it comes to rank 0. In
an odd beat it does where the import sources have filled the first importer. -/
theorem not_prepRebalance_complete :
    PairLeft (prepRebalance 0 3 tied (fun _ => []) 0) (exporters 3 tied) (importers 3 tied) ∧
      PairLeft (prepRebalance 0 4 uneven fromTwo 1) (exporters 4 uneven) (importers 4 uneven) := by
  unfold PairLeft
  decide +kernel

end CephMds.Rebalance
