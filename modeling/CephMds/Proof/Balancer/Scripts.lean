import CephMds.Model.Scripts
import CephMds.Proof.Balancer.FindExports
import CephMds.Proof.Balancer.Targets

/-!
# A script that fails

Where the script fails the buffer decides: a rank becomes a target for each
separator in it (`myTargets_eq_nil_iff`), and a dirfrag is exported for each
token (`exportTokens_still_iff`). Without targets, `try_rebalance` still returns
the imports that have been idle (`sortImports_exported_iff`).
-/

namespace CephMds.Scripts

open Checked Rebalance Rebalancing Text

variable {α : Type} [DecidableEq α] {T : DirFrags α} {cfg : Config} {atof : List Char → ℚ}

/-! ## Targets -/

/-- What ends a number in the buffer. -/
def IsSeparator (c : Char) : Prop := c = ' ' ∨ c = '\n'

theorem next_m_of_separator {c : Char} (hc : IsSeparator c) (r : LuaBalancer.Reading) :
    (LuaBalancer.Reading.next atof r c).m = r.m + 1 := by
  rw [LuaBalancer.Reading.next]
  exact congrArg LuaBalancer.Reading.m (if_pos hc)

theorem next_m_of_not {c : Char} (hc : ¬IsSeparator c) (r : LuaBalancer.Reading) :
    (LuaBalancer.Reading.next atof r c).m = r.m := by
  have hif : LuaBalancer.Reading.next atof r c = { r with val := r.val ++ [c] } := if_neg hc
  rw [hif]

theorem foldl_next_m (ret : List Char) (r : LuaBalancer.Reading) :
    r.m ≤ (ret.foldl (LuaBalancer.Reading.next atof) r).m ∧
      ((∃ c ∈ ret, IsSeparator c) → r.m < (ret.foldl (LuaBalancer.Reading.next atof) r).m) := by
  induction ret generalizing r with
  | nil => simp
  | cons c ret ih =>
    rw [List.foldl_cons]
    obtain ⟨hle, hlt⟩ := ih (LuaBalancer.Reading.next atof r c)
    by_cases hc : IsSeparator c
    · have hm : (LuaBalancer.Reading.next atof r c).m = r.m + 1 := next_m_of_separator hc r
      exact ⟨by omega, fun _ => by omega⟩
    · have hm : (LuaBalancer.Reading.next atof r c).m = r.m := next_m_of_not hc r
      refine ⟨by omega, fun ⟨c', hc', hs⟩ => ?_⟩
      rcases List.mem_cons.mp hc' with rfl | hc'
      · exact absurd hs hc
      · have := hlt ⟨c', hc', hs⟩
        omega

/-- Without a separator nothing is read. -/
theorem foldl_next_of_not {ret : List Char} (h : ∀ c ∈ ret, ¬IsSeparator c) (r : LuaBalancer.Reading) :
    (ret.foldl (LuaBalancer.Reading.next atof) r).m = r.m := by
  induction ret generalizing r with
  | nil => rfl
  | cons c ret ih =>
    rw [List.foldl_cons, ih fun c' hc' => h c' (List.mem_cons_of_mem c hc')]
    exact next_m_of_not (h c List.mem_cons_self) r

/-- The first rank is a target as soon as there is a separator. -/
theorem foldl_next_zero (ret : List Char) {r : LuaBalancer.Reading} (h : 0 < r.m → r.myTargets 0 ≠ none) :
    0 < (ret.foldl (LuaBalancer.Reading.next atof) r).m →
      (ret.foldl (LuaBalancer.Reading.next atof) r).myTargets 0 ≠ none := by
  induction ret generalizing r with
  | nil => exact h
  | cons c ret ih =>
    rw [List.foldl_cons]
    refine ih fun hpos => ?_
    rw [LuaBalancer.Reading.next] at hpos ⊢
    by_cases hc : c = ' ' ∨ c = '\n'
    · simp only [if_pos hc]
      by_cases h0 : r.m = 0
      · rw [h0, Function.update_self]
        exact Option.some_ne_none _
      · rw [Function.update_of_ne (Ne.symm h0)]
        exact h (Nat.pos_of_ne_zero h0)
    · simp only [if_neg hc] at hpos ⊢
      exact h hpos

theorem myTargets_eq_nil_iff (atof : List Char → ℚ) (ret : List Char) :
    myTargets atof ret = [] ↔ ∀ c ∈ ret, ¬IsSeparator c := by
  constructor
  · intro h c hc hs
    have hpos : 0 < (ret.foldl (LuaBalancer.Reading.next atof) ⟨[], 0, fun _ => none⟩).m :=
      (foldl_next_m ret ⟨[], 0, fun _ => none⟩).2 ⟨c, hc, hs⟩
    have hzero := foldl_next_zero ret (fun hlt => absurd hlt (lt_irrefl 0)) hpos
    have hnone := List.filterMap_eq_nil_iff.mp h 0 (List.mem_range.mpr hpos)
    exact hzero (Option.map_eq_none_iff.mp hnone)
  · intro h
    rw [myTargets, foldl_next_of_not h]
    rfl

/-! ## Imports -/

/-- "Exporting idle import". -/
def IdleImport (T : DirFrags α) (cfg : Config) (whoami : ℤ) (im : α) : Prop :=
  T.inodeIsStray im = false ∧ 0 < cfg.idleThreshold ∧ T.pop im < cfg.idleThreshold ∧ T.inodeIsRoot im = false ∧
    T.inodeAuthority im ≠ whoami

omit [DecidableEq α] in
theorem sortImport_exported (whoami : ℤ) (s : Rebalancing α) (im : α) :
    (IdleImport T cfg whoami im → (sortImport T cfg whoami s im).exported ≠ []) ∧
      (¬IdleImport T cfg whoami im → (sortImport T cfg whoami s im).exported = s.exported) := by
  unfold sortImport IdleImport
  by_cases hstray : T.inodeIsStray im = true
  · rw [if_pos hstray, hstray]
    exact ⟨fun h => absurd h.1 (by decide), fun _ => rfl⟩
  · rw [if_neg hstray, Bool.not_eq_true] at *
    split
    · rename_i hidle
      exact ⟨fun _ => by simp, fun h => absurd ⟨hstray, hidle⟩ h⟩
    · rename_i hidle
      exact ⟨fun h => absurd h.2 hidle, fun _ => rfl⟩

omit [DecidableEq α] in
theorem sortImport_grows (whoami : ℤ) (s : Rebalancing α) (im : α) (h : s.exported ≠ []) :
    (sortImport T cfg whoami s im).exported ≠ [] := by
  by_cases hidle : IdleImport T cfg whoami im
  · exact (sortImport_exported whoami s im).1 hidle
  · rw [(sortImport_exported whoami s im).2 hidle]
    exact h

omit [DecidableEq α] in
theorem sortImports_exported_iff (whoami : ℤ) (roots : List α) :
    (sortImports T cfg whoami roots).exported = [] ↔ ∀ im ∈ roots, ¬IdleImport T cfg whoami im := by
  suffices H : ∀ s : Rebalancing α, (roots.foldl (sortImport T cfg whoami) s).exported = [] ↔
      s.exported = [] ∧ ∀ im ∈ roots, ¬IdleImport T cfg whoami im from (H ⟨[], [], []⟩).trans (and_iff_right rfl)
  induction roots with
  | nil => simp
  | cons im roots ih =>
    intro s
    rw [List.foldl_cons, ih, List.forall_mem_cons]
    constructor
    · rintro ⟨hnil, hrest⟩
      have hs : s.exported = [] := by_contra fun h => sortImport_grows whoami s im h hnil
      exact ⟨hs, fun h => (sortImport_exported whoami s im).1 h hnil, hrest⟩
    · rintro ⟨hs, him, hrest⟩
      exact ⟨((sortImport_exported whoami s im).2 him).trans hs, hrest⟩

/-! ## Tokens -/

theorem tokens_eq_nil_iff (s : List Char) : tokens s = [] ↔ ∀ c ∈ s, c = blank := by
  induction s with
  | nil => simp [tokens]
  | cons c s ih =>
    rw [List.forall_mem_cons]
    by_cases hc : c = blank
    · rw [hc, tokens_blank_cons, ih]
      exact (and_iff_right rfl).symm
    · refine iff_of_false ?_ fun h => hc h.1
      rw [tokens, List.splitOn_cons_eq_if_modifyHead, if_neg (by simpa using hc)]
      obtain ⟨t, ts, ht⟩ := List.exists_cons_of_ne_nil (List.splitOn_ne_nil blank s)
      rw [ht, List.modifyHead_cons, List.filter_cons_of_pos (by rfl)]
      exact List.cons_ne_nil _ _

omit [DecidableEq α] in
theorem exportToken_exports {frags : List α} {s s' : Selection α} {token : List Char}
    (h : exportToken T atof frags s token = .ok s') : s'.exports.length = s.exports.length + 1 := by
  simp only [exportToken, bind_ok, assert_ok, deref_ok, pure_ok] at h
  obtain ⟨-, -, frag, -, rfl⟩ := h
  exact List.length_append

omit [DecidableEq α] in
theorem exportTokens_exports {frags : List α} {ts : List (List Char)} {s s' : Selection α}
    (h : ts.foldlM (exportToken T atof frags) s = .ok s') : s'.exports.length = s.exports.length + ts.length := by
  induction ts generalizing s with
  | nil =>
    rw [List.foldlM_nil, pure_ok] at h
    rw [h]
    rfl
  | cons t ts ih =>
    rw [List.foldlM_cons, bind_ok] at h
    obtain ⟨s₁, h₁, h₂⟩ := h
    rw [ih h₂, exportToken_exports h₁, List.length_cons]
    omega

omit [DecidableEq α] in
theorem exportTokens_still_iff {frags : List α} {ts : List (List Char)} {s : Selection α} :
    ts.foldlM (exportToken T atof frags) s = .ok s ↔ ts = [] := by
  constructor
  · intro h
    have := exportTokens_exports h
    exact List.length_eq_zero_iff.mp (by omega)
  · rintro rfl
    rfl

/-! ## Both hooks -/

/-- With the text in the buffer. -/
theorem failing_script_iff :
    (∀ (c : Setting α) (atof : List Char → ℚ) (ret : List Char),
      ((customBalancer c atof none ret).myTargets = [] ∧ (customBalancer c atof none ret).exported = [] ↔
        (∀ x ∈ ret, x ≠ ' ' ∧ x ≠ '\n') ∧ ∀ im ∈ c.roots, ¬IdleImport c.dirFrags c.config c.whoami im)) ∧
    ∀ (T : DirFrags α) (atof : List Char → ℚ) (smaller : List α) (ret : List Char) (s : Selection α), smaller ≠ [] →
      (fragmentSelectorLuahook T atof smaller none ret s = .ok s ↔ ret = ['-', '1'] ∨ ∀ x ∈ ret, x = ' ') := by
  refine ⟨fun c atof ret => ?_, fun T atof smaller ret s hs => ?_⟩
  · have hsep : (∀ x ∈ ret, x ≠ ' ' ∧ x ≠ '\n') ↔ myTargets atof ret = [] := by
      rw [myTargets_eq_nil_iff]
      simp only [IsSeparator, not_or]
    rw [hsep]
    refine and_congr_right fun hnil => ?_
    have hnil : myTargets atof (received none ret) = [] := hnil
    rw [customBalancer]
    dsimp only
    rw [hnil, if_pos ((checkTargets_spec _ _ _ _).2.2.1.mpr (by simp))]
    exact sortImports_exported_iff c.whoami c.roots
  · rw [fragmentSelectorLuahook, if_neg hs]
    show (if ret = ['-', '1'] then pure s else (tokens ret).foldlM _ s) = _ ↔ _
    by_cases hret : ret = ['-', '1']
    · rw [if_pos hret]
      exact iff_of_true rfl (.inl hret)
    · rw [if_neg hret, exportTokens_still_iff, tokens_eq_nil_iff]
      exact (or_iff_right hret).symm

local instance scriptsNeZero : NeZero 3 := ⟨by decide⟩

/-- The buffer holds the targets of an earlier call, and what an earlier call of the hook chose. -/
theorem not_failing_script_harmless :
    (customBalancer ⟨twoDirs, defaults, ⟨5, 10⟩, {0, 1}, .empty, 0, [0]⟩ (fun s => (toInt s : ℚ)) none "0 20 ".toList).myTargets =
      [(0, 0), (1, 20)] ∧
    (customBalancer ⟨twoDirs, defaults, ⟨5, 10⟩, {0, 1}, .empty, 0, [0]⟩ (fun s => (toInt s : ℚ)) none "0 20 ".toList).exported =
      [(0, 1)] ∧
    ∃ s, fragmentSelectorLuahook twoDirs (fun s => (toInt s : ℚ)) [1, 2] none " 2".toList ⟨[], 0, []⟩ = .ok s ∧
      s.exports = [2] ∧ s.haveLoad = 7 ∧ s.alreadyExporting = [2] := by
  have htokens : tokens [' ', '2'] = [['2']] := (tokens_blank_cons ['2']).trans (tokens_single ⟨by decide, by decide⟩)
  have hindex : truncate ((toInt ['2'] : ℚ) - 1) = 1 := by decide +kernel
  refine ⟨by decide +kernel, by decide +kernel, twoDirs.take 2 ⟨[], 0, []⟩, ?_, rfl, by decide +kernel, rfl⟩
  show (tokens [' ', '2']).foldlM _ _ = _
  rw [htokens, List.foldlM_cons, exportToken, hindex]
  rfl

end CephMds.Scripts
