import CephMds.Framework.Text
import CephMds.Model.LuaBalancer

/-!
# The two sides of the balancer

The tables that `parse_args` builds from `arg` (`parseArgs_arg`), by induction on the
metrics it has gone through (`Grouped`), and the targets that are read back from the
text (`readTargets_luaReturn`), by induction on the targets.
-/

namespace CephMds.LuaBalancer

variable {metrics : List Value} {mdss : List Entry} {m n whoami : ℕ} {mdsLoad : ℕ → MdsLoad} {targets : List ℚ}
  {fmt : ℚ → List Char} {atof : List Char → ℚ}

/-! ## Parsing -/

/-- What has been built from the first `m` metrics. -/
structure Grouped (metrics : List Value) (m : ℕ) (mdss : List Entry) : Prop where
  length : mdss.length = (m + 5) / 6
  field : ∀ (i j : ℕ) (e : Entry) (key : Metric), mdss[i]? = some e → METRICS[j]? = some key → 6 * i + j < m →
    e.field key = metrics[6 * i + j]?

theorem metrics_lt {j : ℕ} {key : Metric} (h : METRICS[j]? = some key) : j < 6 :=
  (List.getElem?_eq_some_iff.mp h).1

theorem metrics_inj {j j' : ℕ} {key : Metric} (h : METRICS[j]? = some key) (h' : METRICS[j']? = some key) : j = j' := by
  have hnd : METRICS.Nodup := by decide
  exact (List.getElem?_inj (metrics_lt h) hnd).mp (h.trans h'.symm)

/-- The entry that the next metric belongs to, with what has been built before it. -/
theorem Grouped.open (h : Grouped metrics m mdss) :
    ∃ mdss' : List Entry, (if m % METRICS.length = 0 then mdss ++ [⟨0, fun _ => none⟩] else mdss) = mdss' ∧
      mdss'.length = m / 6 + 1 ∧
      ∀ (i j : ℕ) (e : Entry) (key : Metric), mdss'[i]? = some e → METRICS[j]? = some key → 6 * i + j < m →
        e.field key = metrics[6 * i + j]? := by
  have hlength := h.length
  by_cases hm : m % 6 = 0
  · refine ⟨_, if_pos hm, ?_, fun i j e key he hkey hlt => ?_⟩
    · rw [List.length_append, List.length_singleton]
      omega
    · rw [List.getElem?_append_left (by omega)] at he
      exact h.field i j e key he hkey hlt
  · exact ⟨mdss, if_neg hm, by omega, h.field⟩

theorem Grouped.next (h : Grouped metrics m mdss) : Grouped metrics (m + 1) (parseMetric metrics mdss m) := by
  obtain ⟨mdss', hopen, hlength, hfield⟩ := h.open
  have hlt : m % METRICS.length < 6 := Nat.mod_lt m (by decide)
  obtain ⟨key, hkey⟩ : ∃ key, METRICS[m % METRICS.length]? = some key := ⟨_, List.getElem?_eq_getElem hlt⟩
  rw [parseMetric, hopen, hkey]
  refine ⟨?_, fun i j e key' he hkey' hij => ?_⟩
  · rw [List.length_modify]
    omega
  · have hj := metrics_lt hkey'
    rw [List.getElem?_modify] at he
    have hm6 : m % METRICS.length = m % 6 := rfl
    split at he
    · -- The last entry: the metric itself, or one before it.
      rename_i hi
      obtain ⟨e', he', rfl⟩ := Option.map_eq_some_iff.mp he
      show Function.update e'.field key metrics[m]? key' = _
      by_cases hkk : key' = key
      · subst hkk
        have hjm := metrics_inj hkey' hkey
        rw [Function.update_self]
        congr 1
        omega
      · rw [Function.update_of_ne hkk]
        refine hfield i j e' key' he' hkey' ?_
        have hjm : j ≠ m % METRICS.length := by
          intro hjm
          rw [hjm, hkey] at hkey'
          exact hkk (Option.some.inj hkey').symm
        omega
    · rename_i hi
      obtain ⟨e', he', rfl⟩ := Option.map_eq_some_iff.mp he
      obtain ⟨hlt', -⟩ := List.getElem?_eq_some_iff.mp he'
      exact hfield i j _ key' he' hkey' (by omega)

theorem grouped_range (metrics : List Value) (m : ℕ) :
    Grouped metrics m ((List.range m).foldl (parseMetric metrics) []) := by
  induction m with
  | zero =>
    refine ⟨rfl, fun i j e key he _ hij => ?_⟩
    omega
  | succ m ih =>
    rw [List.range_succ, List.foldl_append]
    exact ih.next

/-- The sextuples of the ranks, one after the other. -/
theorem pushed_get (mdsLoad : ℕ → MdsLoad) (n : ℕ) :
    ((List.range n).flatMap fun i => (mdsLoad i).pushed).length = 6 * n ∧
    ∀ i < n, ∀ j < 6, ((List.range n).flatMap fun i => (mdsLoad i).pushed)[6 * i + j]? = (mdsLoad i).pushed[j]? := by
  induction n with
  | zero => exact ⟨rfl, fun i hi => absurd hi (Nat.not_lt_zero i)⟩
  | succ n ih =>
    obtain ⟨hlength, hget⟩ := ih
    rw [List.range_succ, List.flatMap_append, List.flatMap_singleton]
    refine ⟨?_, fun i hi j hj => ?_⟩
    · rw [List.length_append, hlength]
      rfl
    · rcases Nat.lt_succ_iff_lt_or_eq.mp hi with hlt | rfl
      · rw [List.getElem?_append_left (by omega)]
        exact hget i hlt j hj
      · rw [List.getElem?_append_right (by omega), hlength]
        congr 1
        omega

/-- What a rank's table has to hold. -/
def MdsLoad.value (load : MdsLoad) : Metric → Value
  | .auth => .num load.auth
  | .all => .num load.all
  | .req => .num load.reqRate
  | .q => .num load.queueLen
  | .cpu => .num load.cpuLoadAvg
  | .mem => .num (-1)

theorem pushed_value (load : MdsLoad) (key : Metric) :
    ∃ j < 6, METRICS[j]? = some key ∧ load.pushed[j]? = some (load.value key) := by
  cases key with
  | auth => exact ⟨0, by decide, rfl, rfl⟩
  | all => exact ⟨1, by decide, rfl, rfl⟩
  | req => exact ⟨2, by decide, rfl, rfl⟩
  | q => exact ⟨3, by decide, rfl, rfl⟩
  | cpu => exact ⟨4, by decide, rfl, rfl⟩
  | mem => exact ⟨5, by decide, rfl, rfl⟩

theorem parseArgs_arg (logFile : List Char) (whoami : ℕ) (authmetaload nfiles totalMetaLoad : ℚ) (n : ℕ)
    (mdsLoad : ℕ → MdsLoad) :
    ∃ p, parseArgs (arg logFile whoami authmetaload nfiles totalMetaLoad n mdsLoad) = some p ∧
      p.whoami = some (.num ((whoami : ℚ) + 1)) ∧ p.authmetaload = some (.num authmetaload) ∧
      p.nfiles = some (.num nfiles) ∧ p.allmetaload = some (.num totalMetaLoad) ∧ p.mdss.length = n ∧
      ∀ i < n, ∃ e, p.mdss[i]? = some e ∧ ∀ key, e.field key = some ((mdsLoad i).value key) := by
  obtain ⟨hlength, hget⟩ := pushed_get mdsLoad n
  set metrics := (List.range n).flatMap fun i => (mdsLoad i).pushed with hmetrics
  have harg : (arg logFile whoami authmetaload nfiles totalMetaLoad n mdsLoad).length = 6 * n + 5 := by
    rw [arg, List.length_append, hlength]
    show 5 + 6 * n = _
    omega
  have hmod : ¬ ((arg logFile whoami authmetaload nfiles totalMetaLoad n mdsLoad).length - 5) % METRICS.length ≠ 0 := by
    rw [harg]
    show ¬ (6 * n + 5 - 5) % 6 ≠ 0
    omega
  have hgrouped := grouped_range metrics metrics.length
  have hcount : ((List.range metrics.length).foldl (parseMetric metrics) []).length = n := by
    rw [hgrouped.length, hlength]
    omega
  refine ⟨_, if_neg hmod, rfl, rfl, rfl, rfl, hcount, fun i hi => ?_⟩
  have hlt : i < ((List.range metrics.length).foldl (parseMetric metrics) []).length := by
    rw [hcount]
    exact hi
  refine ⟨_, List.getElem?_eq_getElem hlt, fun key => ?_⟩
  obtain ⟨j, hj, hkey, hvalue⟩ := pushed_value (mdsLoad i) key
  rw [hgrouped.field i j _ key (List.getElem?_eq_getElem hlt) hkey (by omega), hget i hi j hj, hvalue]

/-! ## Reading the targets -/

/-- A number is written without separators, and read with one after it. -/
def Reads (fmt : ℚ → List Char) (atof : List Char → ℚ) (t : ℚ) : Prop :=
  (∀ c ∈ fmt t, c ≠ ' ' ∧ c ≠ '\n') ∧ atof (fmt t ++ [' ']) = t

/-- The characters up to the separator are collected. -/
theorem foldl_next_token {s : List Char} (hs : ∀ c ∈ s, c ≠ ' ' ∧ c ≠ '\n') (r : Reading) :
    (s ++ [' ']).foldl (Reading.next atof) r =
      ⟨[], r.m + 1, Function.update r.myTargets r.m (some (atof (r.val ++ (s ++ [' ']))))⟩ := by
  induction s generalizing r with
  | nil => rfl
  | cons c s ih =>
    obtain ⟨hblank, hline⟩ := hs c List.mem_cons_self
    have hnext : Reading.next atof r c = { r with val := r.val ++ [c] } :=
      if_neg fun h => h.elim hblank hline
    rw [List.cons_append, List.foldl_cons, hnext, ih fun c hc => hs c (List.mem_cons_of_mem _ hc)]
    simp only [List.append_assoc, List.singleton_append]

theorem foldl_next_targets {ts : List ℚ} (h : ∀ t ∈ ts, Reads fmt atof t) (m : ℕ) (f : ℕ → Option ℚ) (k : ℕ) :
    ((ts.flatMap fun t => fmt t ++ [' ']).foldl (Reading.next atof) ⟨[], m, f⟩).myTargets k =
      if m ≤ k ∧ k < m + ts.length then ts[k - m]? else f k := by
  induction ts generalizing m f with
  | nil =>
    rw [if_neg fun h => by simp at h; omega]
    rfl
  | cons t ts ih =>
    obtain ⟨hsep, hread⟩ := h t List.mem_cons_self
    rw [List.flatMap_cons, List.foldl_append, foldl_next_token hsep]
    simp only [List.nil_append, hread]
    rw [ih fun t ht => h t (List.mem_cons_of_mem _ ht)]
    rcases Nat.lt_trichotomy k m with hlt | rfl | hgt
    · rw [if_neg (by omega), if_neg (by omega), Function.update_of_ne (by omega)]
    · rw [if_neg (by omega), if_pos ⟨le_rfl, by simp⟩, Function.update_self, Nat.sub_self]
      rfl
    · rw [Function.update_of_ne (by omega), List.length_cons, show k - m = k - (m + 1) + 1 by omega,
        List.getElem?_cons_succ]
      exact if_congr (by omega) rfl rfl

theorem readTargets_luaReturn {w : ℚ} (h : ∀ t ∈ zeroTargets w targets, Reads fmt atof t) (i : ℕ) :
    readTargets atof (luaReturn fmt w targets) i = (zeroTargets w targets)[i]? := by
  rw [readTargets, luaReturn, foldl_next_targets h]
  split
  · rw [Nat.sub_zero]
  · rw [List.getElem?_eq_none (by omega)]

/-- The entry of the rank itself. -/
theorem index_whoami {α : Type} (t : List α) (whoami : ℕ) : index t ((whoami : ℚ) + 1) = t[whoami]? := by
  have hcast : (whoami : ℚ) + 1 = ((whoami + 1 : ℕ) : ℚ) := by push_cast; ring
  rw [index, hcast, Rat.den_natCast, Rat.num_natCast, if_pos ⟨rfl, by omega⟩, Int.toNat_natCast]
  rfl

/-- The loads that `custom_balancer` pushes arrive at their ranks, and so do the targets that the policy returns: all 0
where it has tried to send to itself. -/
theorem custom_balancer_agrees (logFile : List Char) (authmetaload nfiles totalMetaLoad : ℚ) (mdsLoad : ℕ → MdsLoad)
    (hwho : whoami < n) (htargets : targets.length = n)
    (hnum : ∀ t, t = 0 ∨ t ∈ targets → Reads fmt atof t) :
    (∃ p, parseArgs (arg logFile whoami authmetaload nfiles totalMetaLoad n mdsLoad) = some p ∧
      p.whoami = some (.num ((whoami : ℚ) + 1)) ∧ p.authmetaload = some (.num authmetaload) ∧
      p.nfiles = some (.num nfiles) ∧ p.allmetaload = some (.num totalMetaLoad) ∧ p.mdss.length = n ∧
      ∀ i < n, ∃ e, p.mdss[i]? = some e ∧ ∀ key, e.field key = some ((mdsLoad i).value key)) ∧
    (targets[whoami]? = some 0 →
      ∀ i < n, readTargets atof (luaReturn fmt ((whoami : ℚ) + 1) targets) i = targets[i]?) ∧
    (targets[whoami]? ≠ some 0 →
      ∀ i < n, readTargets atof (luaReturn fmt ((whoami : ℚ) + 1) targets) i = some 0) ∧
    readTargets atof (luaReturn fmt ((whoami : ℚ) + 1) targets) whoami = some 0 := by
  have hzero : zeroTargets ((whoami : ℚ) + 1) targets =
      if targets[whoami]? ≠ some 0 then targets.map fun _ => 0 else targets := by
    rw [zeroTargets, index_whoami]
  have hread : ∀ i, readTargets atof (luaReturn fmt ((whoami : ℚ) + 1) targets) i =
      (zeroTargets ((whoami : ℚ) + 1) targets)[i]? := by
    refine readTargets_luaReturn fun t ht => hnum t ?_
    rw [hzero] at ht
    split at ht
    · obtain ⟨_, -, rfl⟩ := List.mem_map.mp ht
      exact .inl rfl
    · exact .inr ht
  have hsend : targets[whoami]? ≠ some 0 →
      ∀ i < n, readTargets atof (luaReturn fmt ((whoami : ℚ) + 1) targets) i = some 0 := by
    intro hself i hi
    rw [hread, hzero, if_pos hself, List.getElem?_map, List.getElem?_eq_getElem (htargets.symm ▸ hi), Option.map_some]
  have hkeep : targets[whoami]? = some 0 →
      ∀ i < n, readTargets atof (luaReturn fmt ((whoami : ℚ) + 1) targets) i = targets[i]? := by
    intro hself i _
    rw [hread, hzero, if_neg (not_not.mpr hself)]
  refine ⟨parseArgs_arg logFile whoami authmetaload nfiles totalMetaLoad n mdsLoad, hkeep, hsend, ?_⟩
  by_cases hself : targets[whoami]? = some 0
  · exact (hkeep hself whoami hwho).trans hself
  · exact hsend hself whoami hwho

/-- Three ranks; rank 1 sends 7 to rank 0 and 20 to rank 2. -/
theorem custom_balancer_three : readTargets (fun s => (Text.toInt s : ℚ))
    (luaReturn (fun t => Text.ofInt t.num) (((1 : ℕ) : ℚ) + 1) [7, 0, 20]) 2 = some 20 := by
  have hnum : ∀ t : ℚ, t = 0 ∨ t ∈ [7, 0, 20] →
      Reads (fun t => Text.ofInt t.num) (fun s => (Text.toInt s : ℚ)) t := by
    intro t ht
    have ht : t = 0 ∨ t = 7 ∨ t = 0 ∨ t = 20 := by simpa using ht
    have hdigit : ∀ (n : ℕ), ∀ c ∈ Text.ofNat n, c ≠ ' ' ∧ c ≠ '\n' := fun n c hc =>
      ⟨fun h => absurd (h ▸ Text.isDigit_ofNat hc) (by decide), fun h => absurd (h ▸ Text.isDigit_ofNat hc) (by decide)⟩
    rcases ht with rfl | rfl | rfl | rfl
    · exact ⟨hdigit 0, by decide⟩
    · exact ⟨hdigit 7, by decide⟩
    · exact ⟨hdigit 0, by decide⟩
    · exact ⟨hdigit 20, by decide⟩
  exact (custom_balancer_agrees [] 0 0 0 (fun _ => ⟨0, 0, 0, 0, 0⟩) (by decide) rfl hnum).2.1 rfl 2 (by decide)

end CephMds.LuaBalancer
