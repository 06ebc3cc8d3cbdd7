import CephMds.Framework.Template
import CephMds.Model.ConfigMeta

/-!
# Expanding the configuration

`expand_all_meta` returns whatever the options refer to, since a name is at
most once on the stack (`expandMeta_returns`). A text is a template
(`template`): where the references are acyclic the templates have one solution,
and each option goes from its raw text to that one (`After`), in whatever order
they are expanded (`expandMeta_final`). It stays there when expanded again iff
the replaced texts have not put together a reference (`settles_iff`).
-/

namespace CephMds.ConfigMeta

open Checked Template

theorem parseVar_length (s : Text) : (parseVar s).2.length ≤ s.length := by
  rw [parseVar.eq_def]
  split
  · rename_i s
    have hdrop : (s.dropWhile isValid).length ≤ s.length := List.length_dropWhile_le isValid s
    split
    · rename_i rest heq
      rw [heq, List.length_cons] at hdrop
      exact Nat.le_succ_of_le (Nat.le_of_succ_le hdrop)
    · exact Nat.le_succ _
  · exact List.length_dropWhile_le isValid _

namespace Config

variable {c : Config}

theorem mem_strings {x : Text} : x ∈ c.strings ↔ c.options.lookup x = some .str := by
  rw [strings, List.mem_map]
  constructor
  · rintro ⟨⟨y, t⟩, hmem, rfl⟩
    rw [List.mem_filter, decide_eq_true_eq] at hmem
    obtain ⟨hmem, rfl⟩ := hmem
    exact AList.mem_lookup_iff.mpr hmem
  · intro h
    exact ⟨⟨x, .str⟩, List.mem_filter.mpr ⟨AList.mem_lookup_iff.mp h, decide_eq_true rfl⟩, rfl⟩

theorem find_option {vals : Values} {var name : Text} (h : c.find vals var = some (.option name)) : name ∈ c.strings := by
  rw [find] at h
  split at h
  · cases h
  split at h
  · cases h
  split at h
  · rename_i heq
    cases h
    exact mem_strings.mpr heq
  · cases h
  · cases h

theorem find_congr {v w : Values} (h : v "host".toList = w "host".toList) (var : Text) :
    c.find v var = c.find w var := by
  rw [find, find, metavariables, metavariables, h]

/-! ## Termination -/

theorem scan_returns {expand : Text → Values → Checked Values}
    (hexp : ∀ x ∈ c.strings, ∀ v, ∃ v', expand x v = .ok v') {n : ℕ} {s : Text} (hlen : s.length ≤ n) (out : Text)
    (vals : Values) : ∃ r, c.scan expand n s out vals = .ok r := by
  induction n generalizing s out vals with
  | zero =>
    cases s with
    | nil => exact ⟨_, rfl⟩
    | cons ch s => exact absurd hlen (Nat.not_succ_le_zero _)
  | succ n ih =>
    cases s with
    | nil => exact ⟨_, rfl⟩
    | cons ch s =>
      have hs : s.length ≤ n := Nat.le_of_succ_le_succ hlen
      rw [scan]
      split
      · exact ih hs _ _
      split
      · exact ih ((parseVar_length s).trans hs) _ _
      · rename_i name hfind
        obtain ⟨v', hv'⟩ := hexp name (find_option hfind) vals
        rw [hv']
        exact ih ((parseVar_length s).trans hs) _ _
      · exact ih hs _ _

theorem expandMeta_returns {n : ℕ} {stack : List Text} (hnd : stack.Nodup) (hsub : stack ⊆ c.strings)
    (hn : c.strings.length < n + stack.length) (opt : Text) (hopt : opt ∈ c.strings) (vals : Values) :
    ∃ vals', c.expandMeta n stack opt vals = .ok vals' := by
  induction n generalizing stack opt vals with
  | zero =>
    have hle := (hnd.subperm hsub).length_le
    omega
  | succ n ih =>
    rw [expandMeta]
    split
    · exact ⟨vals, rfl⟩
    split
    · exact ⟨vals, rfl⟩
    rename_i hmem
    have hlen : c.strings.length < n + (opt :: stack).length := by
      rw [List.length_cons]
      omega
    obtain ⟨r, hr⟩ := scan_returns
      (ih (List.nodup_cons.mpr ⟨hmem, hnd⟩) (List.cons_subset.mpr ⟨hopt, hsub⟩) hlen) le_rfl [] vals
    rw [hr]
    exact ⟨_, rfl⟩

theorem expandAllMeta_returns (c : Config) (vals : Values) : ∃ vals', c.expandAllMeta vals = .ok vals' := by
  obtain ⟨vals', h, -⟩ := foldlM_returns (P := fun _ => True)
    (fun v opt hopt _ => by
      obtain ⟨v', hv'⟩ := expandMeta_returns List.nodup_nil (List.nil_subset _) (Nat.lt_succ_self _) opt hopt v
      exact ⟨v', hv', trivial⟩) trivial
  exact ⟨vals', h⟩

/-! ## Texts as templates -/

/-- A text with its references to string options, and with all others replaced. -/
def pieces (find : Text → Option Meaning) : ℕ → Text → List (Piece Text Char)
  | _, [] => []
  | 0, _ :: _ => []
  | n + 1, ch :: s =>
    if ch ≠ '$' then .lit ch :: pieces find n s
    else
      match find (parseVar s).1 with
      | some (.text t) => lits t ++ pieces find n (parseVar s).2
      | some (.option name) => .ref name :: pieces find n (parseVar s).2
      | none => .lit ch :: pieces find n s

def template (c : Config) (vals : Values) (text : Text) : List (Piece Text Char) := pieces (c.find vals) text.length text

/-- What each option is to become. -/
def templates (c : Config) (raw : Values) (opt : Text) : List (Piece Text Char) :=
  if opt ∈ c.strings then c.template raw (raw opt) else lits (raw opt)

/-- No dollar sign stands before a known name. -/
def Inert (c : Config) (vals : Values) (text : Text) : Prop :=
  ∀ s, '$' :: s <:+ text → c.find vals (parseVar s).1 = none

theorem Inert.of_no_dollar {vals : Values} {text : Text} (h : '$' ∉ text) : c.Inert vals text :=
  fun _ hs => absurd (hs.subset List.mem_cons_self) h

theorem Inert.pieces_eq {vals : Values} {text : Text} (h : c.Inert vals text) {n : ℕ} (hlen : text.length ≤ n) :
    pieces (c.find vals) n text = lits text := by
  induction text generalizing n with
  | nil =>
    cases n with
    | zero => rfl
    | succ n => rfl
  | cons ch s ih =>
    cases n with
    | zero => exact absurd hlen (Nat.not_succ_le_zero _)
    | succ n =>
      have hs : pieces (c.find vals) n s = lits s :=
        ih (fun t ht => h t (ht.trans (List.suffix_cons ch s))) (Nat.le_of_succ_le_succ hlen)
      rw [pieces]
      split
      · rw [hs]
        rfl
      · rename_i hch
        rw [ne_eq, not_not] at hch
        subst hch
        rw [h s List.suffix_rfl]
        exact congrArg (List.cons _) hs

theorem refs_strings {raw : Values} {n : ℕ} {s x : Text} (h : x ∈ refs (pieces (c.find raw) n s)) : x ∈ c.strings := by
  induction n generalizing s with
  | zero =>
    cases s with
    | nil => exact absurd h List.not_mem_nil
    | cons ch s => exact absurd h List.not_mem_nil
  | succ n ih =>
    cases s with
    | nil => exact absurd h List.not_mem_nil
    | cons ch s =>
      rw [pieces] at h
      split at h
      · exact ih h
      split at h
      · exact ih (mem_refs_lits_append.mp h)
      · rename_i name hfind
        obtain rfl | h := List.mem_cons.mp h
        · exact find_option hfind
        · exact ih h
      · exact ih h

theorem Inert.template_eq {vals : Values} {text : Text} (h : c.Inert vals text) : c.template vals text = lits text :=
  h.pieces_eq le_rfl

/-! ## One run -/

/-- The references between the string options are acyclic. -/
def Acyclic (c : Config) (raw : Values) : Prop :=
  ∃ rank : Text → ℕ, ∀ k, ∀ x ∈ refs (c.templates raw k), rank x < rank k

/-- Each option is still raw, or final. -/
def Between (raw final v : Values) : Prop := ∀ opt, v opt = raw opt ∨ v opt = final opt

/-- Options that were final stay so. -/
structure After (raw final v w : Values) : Prop where
  between : Between raw final w
  kept : ∀ opt, v opt = final opt → w opt = final opt

theorem After.refl {raw final v : Values} (h : Between raw final v) : After raw final v v := ⟨h, fun _ ho => ho⟩

theorem After.trans {raw final u v w : Values} (h : After raw final u v) (h' : After raw final v w) :
    After raw final u w := ⟨h'.between, fun opt ho => h'.kept opt (h.kept opt ho)⟩

theorem After.update {raw final v w : Values} (h : After raw final v w) (opt : Text) :
    After raw final v (Function.update w opt (final opt)) := by
  refine ⟨fun o => ?_, fun o ho => ?_⟩
  · rw [Function.update_apply]
    split
    · rename_i heq
      exact .inr (congrArg final heq.symm)
    · exact h.between o
  · rw [Function.update_apply]
    split
    · rename_i heq
      exact congrArg final heq.symm
    · exact h.kept o ho

section Acyclic

variable {raw final : Values} (hsol : Solves (c.templates raw) final) (hinert : ∀ opt ∈ c.strings, c.Inert raw (final opt))
  (hhost : final "host".toList = raw "host".toList)

include hhost in
theorem find_between {v : Values} (hv : Between raw final v) (var : Text) : c.find v var = c.find raw var := by
  refine find_congr ?_ var
  obtain h | h := hv "host".toList
  · exact h
  · exact h.trans hhost

include hhost in
/-- The loop fills in the template of its text, where the options referred to become final. -/
theorem scan_final {expand : Text → Values → Checked Values} {n : ℕ} {s : Text} (hlen : s.length ≤ n)
    (hexp : ∀ x ∈ refs (pieces (c.find raw) n s), ∀ v v', Between raw final v → expand x v = .ok v' →
      After raw final v v' ∧ v' x = final x) {out : Text} {v : Values} (hv : Between raw final v) {r : Text × Values}
    (h : c.scan expand n s out v = .ok r) :
    r.1 = out ++ fill final (pieces (c.find raw) n s) ∧ After raw final v r.2 := by
  induction n generalizing s out v with
  | zero =>
    cases s with
    | nil =>
      cases h
      exact ⟨(List.append_nil out).symm, .refl hv⟩
    | cons ch s => exact absurd hlen (Nat.not_succ_le_zero _)
  | succ n ih =>
    cases s with
    | nil =>
      cases h
      exact ⟨(List.append_nil out).symm, .refl hv⟩
    | cons ch s =>
      have hs : s.length ≤ n := Nat.le_of_succ_le_succ hlen
      have hrest : (parseVar s).2.length ≤ n := (parseVar_length s).trans hs
      rw [pieces] at hexp ⊢
      rw [scan] at h
      by_cases hch : ch ≠ '$'
      · rw [if_pos hch] at h hexp ⊢
        obtain ⟨hout, hafter⟩ := ih hs (fun x hx => hexp x hx) hv h
        exact ⟨by rw [hout, fill_lit, List.append_assoc, List.singleton_append], hafter⟩
      rw [if_neg hch] at h hexp ⊢
      rw [find_between hhost hv] at h
      cases hfind : c.find raw (parseVar s).1 with
      | none =>
        rw [hfind] at h hexp
        obtain ⟨hout, hafter⟩ := ih hs (fun x hx => hexp x hx) hv h
        exact ⟨by rw [hout, fill_lit, List.append_assoc, List.singleton_append], hafter⟩
      | some m =>
        rw [hfind] at h hexp
        cases m with
        | text t =>
          obtain ⟨hout, hafter⟩ := ih hrest (fun x hx => hexp x (mem_refs_lits_append.mpr hx)) hv h
          exact ⟨by rw [hout, fill_append, fill_lits, List.append_assoc], hafter⟩
        | option name =>
          obtain ⟨w, hw, h⟩ := bind_ok.mp h
          obtain ⟨hafter, hname⟩ := hexp name List.mem_cons_self v w hv hw
          obtain ⟨hout, hafter'⟩ :=
            ih hrest (fun x hx => hexp x (List.mem_cons_of_mem name hx)) hafter.between h
          exact ⟨by rw [hout, fill_ref, hname, List.append_assoc], hafter.trans hafter'⟩

include hsol hinert in
/-- The text of an option on its way is a template of its final text. -/
theorem fill_between {v : Values} (hv : Between raw final v) {opt : Text} (hopt : opt ∈ c.strings) :
    fill final (c.template raw (v opt)) = final opt ∧
      refs (c.template raw (v opt)) ⊆ refs (c.templates raw opt) := by
  obtain h | h := hv opt
  · rw [templates, if_pos hopt, h]
    have hfill := hsol opt
    rw [templates, if_pos hopt] at hfill
    exact ⟨hfill.symm, List.Subset.refl _⟩
  · rw [h, (hinert opt hopt).template_eq, fill_lits, refs_lits]
    exact ⟨rfl, List.nil_subset _⟩

include hsol hinert hhost in
/-- By induction on the fuel; the ranks on the stack are greater than that of the option. -/
theorem expandMeta_final {rank : Text → ℕ} (hrank : ∀ k, ∀ x ∈ refs (c.templates raw k), rank x < rank k) {n : ℕ}
    {stack : List Text} {opt : Text} (hopt : opt ∈ c.strings) (hstack : ∀ x ∈ stack, rank opt < rank x)
    {v v' : Values} (hv : Between raw final v) (h : c.expandMeta n stack opt v = .ok v') :
    After raw final v v' ∧ v' opt = final opt := by
  induction n generalizing stack opt v v' with
  | zero => cases h
  | succ n ih =>
    obtain ⟨hfill, hrefs⟩ := fill_between hsol hinert hv hopt
    rw [expandMeta] at h
    split at h
    · rename_i hdollar
      cases h
      rw [(Inert.of_no_dollar hdollar).template_eq, fill_lits] at hfill
      exact ⟨.refl hv, hfill⟩
    split at h
    · rename_i hmem
      exact absurd (hstack opt hmem) (lt_irrefl _)
    obtain ⟨r, hr, h⟩ := bind_ok.mp h
    cases h
    obtain ⟨hout, hafter⟩ := scan_final hhost le_rfl (fun x hx w w' hw h' => by
      have hlt : rank x < rank opt := hrank opt x (hrefs hx)
      refine ih (refs_strings hx) (fun y hy => ?_) hw h'
      obtain rfl | hy := List.mem_cons.mp hy
      · exact hlt
      · exact hlt.trans (hstack y hy)) hv hr
    rw [List.nil_append] at hout
    rw [hout, show fill final (pieces (c.find raw) (v opt).length (v opt)) = final opt from hfill]
    exact ⟨hafter.update opt, Function.update_self ..⟩

include hsol hinert hhost in
theorem expandAllMeta_final {rank : Text → ℕ} (hrank : ∀ k, ∀ x ∈ refs (c.templates raw k), rank x < rank k)
    {v : Values} (hv : Between raw final v) : c.expandAllMeta v = .ok final := by
  obtain ⟨v', h⟩ := expandAllMeta_returns c v
  obtain ⟨w, hw, hbetween, hdone⟩ := foldlM_done (l := c.strings)
    (f := fun vals opt => c.expandMeta (c.strings.length + 1) [] opt vals)
    (P := fun done w => Between raw final w ∧ ∀ opt ∈ done, w opt = final opt)
    (fun done opt rest w hl hP => by
      have hopt : opt ∈ c.strings := by
        rw [hl]
        exact List.mem_append_right _ List.mem_cons_self
      obtain ⟨w', hw'⟩ := expandMeta_returns List.nodup_nil (List.nil_subset _) (Nat.lt_succ_self _) opt hopt w
      obtain ⟨hafter, heq⟩ := expandMeta_final hsol hinert hhost hrank hopt
        (fun x hx => absurd hx List.not_mem_nil) hP.1 hw'
      refine ⟨w', hw', hafter.between, fun o ho => ?_⟩
      obtain ho | ho := List.mem_append.mp ho
      · exact hafter.kept o (hP.2 o ho)
      · exact List.mem_singleton.mp ho ▸ heq) ⟨hv, fun opt ho => absurd ho List.not_mem_nil⟩
  have heq : w = final := by
    funext opt
    by_cases hopt : opt ∈ c.strings
    · exact hdone opt hopt
    · obtain h | h := hbetween opt
      · have hsame := hsol opt
        rw [templates, if_neg hopt, fill_lits] at hsame
        exact h.trans hsame.symm
      · exact h
  exact heq ▸ hw

end Acyclic

/-! ## Any order, and again -/

/-- The same configuration, with the table in another order. -/
def Reorders (c c' : Config) : Prop := ∃ options, options.entries.Perm c.options.entries ∧ c' = { c with options }

theorem Reorders.find_eq {c' : Config} (h : c.Reorders c') (vals : Values) : c'.find vals = c.find vals := by
  obtain ⟨options, hperm, rfl⟩ := h
  funext var
  rw [find, find, AList.perm_lookup hperm]
  rfl

theorem Reorders.mem_strings_iff {c' : Config} (h : c.Reorders c') {x : Text} : x ∈ c'.strings ↔ x ∈ c.strings := by
  obtain ⟨options, hperm, rfl⟩ := h
  rw [mem_strings, mem_strings, AList.perm_lookup hperm]

theorem Reorders.templates_eq {c' : Config} (h : c.Reorders c') (raw : Values) : c'.templates raw = c.templates raw := by
  funext opt
  rw [templates, templates, template, template, h.find_eq, if_congr h.mem_strings_iff rfl rfl]

/-- The metavariables have no dollar sign. -/
def Plain (c : Config) (vals : Values) : Prop := ∀ e ∈ c.metavariables vals, '$' ∉ e.2

/-- What applying the configuration is to do: `final` is filled in and nothing is left to replace, whatever the order
of the table, and applying it again changes nothing. -/
structure Settles (c : Config) (raw final : Values) : Prop where
  filled : Solves (c.templates raw) final
  replaced : ∀ opt ∈ c.strings, c.Inert raw (final opt)
  first : ∀ c', c.Reorders c' → c'.expandAllMeta raw = .ok final
  again : ∀ c', c.Reorders c' → c'.expandAllMeta final = .ok final

theorem final_host {raw final : Values} (hplain : c.Plain raw) (hsol : Solves (c.templates raw) final) :
    final "host".toList = raw "host".toList := by
  have hhost := hplain ("host".toList, raw "host".toList) (by simp [metavariables])
  have hfill := hsol "host".toList
  rw [templates, (Inert.of_no_dollar hhost).template_eq, ite_self, fill_lits] at hfill
  exact hfill

theorem settles_of_inert {raw final : Values} (hplain : c.Plain raw) (hacyc : c.Acyclic raw)
    (hsol : Solves (c.templates raw) final) (hinert : ∀ opt ∈ c.strings, c.Inert raw (final opt)) :
    c.Settles raw final := by
  obtain ⟨rank, hrank⟩ := hacyc
  have hrun : ∀ c', c.Reorders c' → ∀ v, Between raw final v → c'.expandAllMeta v = .ok final := by
    intro c' hc' v hv
    have htem := hc'.templates_eq raw
    refine expandAllMeta_final (htem ▸ hsol) (fun opt hopt s hs => ?_) (final_host hplain hsol) (htem ▸ hrank) hv
    rw [hc'.find_eq]
    exact hinert opt (hc'.mem_strings_iff.mp hopt) s hs
  exact ⟨hsol, hinert, fun c' hc' => hrun c' hc' raw fun _ => .inl rfl, fun c' hc' => hrun c' hc' final fun _ => .inr rfl⟩

/-- Expansion ends for all values; with acyclic references it settles iff no text put together has a reference. -/
theorem settles_iff (c : Config) (raw : Values) :
    (∃ vals', c.expandAllMeta raw = .ok vals') ∧
      (c.Plain raw → c.Acyclic raw → ((∃ final, c.Settles raw final) ↔
        ∀ final, Solves (c.templates raw) final → ∀ opt ∈ c.strings, c.Inert raw (final opt))) := by
  refine ⟨expandAllMeta_returns c raw, fun hplain hacyc => ?_⟩
  have ⟨rank, hrank⟩ := hacyc
  constructor
  · rintro ⟨final, h⟩ final' hsol
    rw [hsol.unique hrank h.filled]
    exact h.replaced
  · intro hinert
    obtain ⟨final, hsol⟩ := exists_solves hrank
    exact ⟨final, settles_of_inert hplain hacyc hsol (hinert final hsol)⟩

end Config

/-- The options `a`, `b` and `host`. -/
def sample : Config where
  cluster := "ceph".toList
  type := "client".toList
  name := "client.admin".toList
  id := "admin".toList
  pid := "1".toList
  cctid := "0".toList
  options := ⟨[⟨"a".toList, .str⟩, ⟨"b".toList, .str⟩, ⟨"host".toList, .str⟩],
    (by decide +kernel : ["a".toList, "b".toList, "host".toList].Nodup)⟩

def sampleValues (a b : String) : Values := fun opt =>
  if opt = "a".toList then a.toList else if opt = "b".toList then b.toList else "node".toList

theorem plain_sample (a b : String) : sample.Plain (sampleValues a b) := by
  have hhost : sampleValues a b "host".toList = "node".toList := by
    rw [sampleValues, if_neg (by decide +kernel), if_neg (by decide +kernel)]
  intro e he
  rw [Config.metavariables, hhost] at he
  revert e
  decide +kernel

/-- Only `a` has references, and to the others. -/
theorem acyclic_sample {a b : String} (h : ∀ k ∈ sample.strings, ∀ x ∈ refs (sample.templates (sampleValues a b) k),
    k = "a".toList ∧ x ≠ "a".toList) : sample.Acyclic (sampleValues a b) := by
  refine ⟨fun k => if k = "a".toList then 1 else 0, fun k x hx => ?_⟩
  by_cases hk : k ∈ sample.strings
  · obtain ⟨hk, hx⟩ := h k hk x hx
    simp only [if_pos hk, if_neg hx, Nat.one_pos]
  · rw [Config.templates, if_neg hk, refs_lits] at hx
    exact absurd hx List.not_mem_nil

theorem strings_sample : sample.strings = ["a".toList, "b".toList, "host".toList] := by decide +kernel

theorem settles_sample : ∃ final, sample.Settles (sampleValues "$b-$cluster" "$$") final := by
  refine ((Config.settles_iff sample _).2 (plain_sample _ _) (acyclic_sample (by decide +kernel))).mpr ?_
  intro final hsol
  have hb : final "b".toList = "$$".toList := by
    rw [hsol "b".toList]
    have htem : sample.templates (sampleValues "$b-$cluster" "$$") "b".toList = lits "$$".toList := by decide +kernel
    rw [htem, fill_lits]
  have ha : final "a".toList = "$$-ceph".toList := by
    rw [hsol "a".toList]
    have htem : sample.templates (sampleValues "$b-$cluster" "$$") "a".toList =
        .ref "b".toList :: lits "-ceph".toList := by decide +kernel
    rw [htem, fill_ref, hb, fill_lits]
    decide +kernel
  have hhost : final "host".toList = "node".toList := Config.final_host (plain_sample _ _) hsol
  have hinert : ∀ t ∈ ["$$-ceph".toList, "$$".toList, "node".toList], ∀ u ∈ t.tails, u.head? = some '$' →
      sample.find (sampleValues "$b-$cluster" "$$") (parseVar u.tail).1 = none := by decide +kernel
  intro opt hopt s hs
  refine hinert _ ?_ _ ((List.mem_tails _ _).mpr hs) rfl
  rw [strings_sample] at hopt
  fin_cases hopt
  · exact ha ▸ List.mem_cons_self
  · exact hb ▸ List.mem_cons_of_mem _ List.mem_cons_self
  · exact hhost ▸ List.mem_cons_of_mem _ (List.mem_cons_of_mem _ List.mem_cons_self)

/-- The values of `a` after the configuration was applied once, and once more. -/
def applied (a b : String) : Checked (Text × Text) := do
  let first ← sample.expandAllMeta (sampleValues a b)
  let second ← sample.expandAllMeta first
  pure (first "a".toList, second "a".toList)

/-- A reference that is put together from a dollar sign and a name. -/
example : (applied "$$b" "cluster").toOption = some ("$cluster".toList, "ceph".toList) := by decide +kernel

/-- A value that refers to itself grows each time. -/
example : (applied "x$a" "").toOption = some ("xx$a".toList, "xxxx$a".toList) := by decide +kernel

end CephMds.ConfigMeta
