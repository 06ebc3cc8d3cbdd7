import Mathlib.Data.List.Induction
import Mathlib.Data.Prod.Lex
import Mathlib.Order.Bounds.Basic

/-!
# Folds that take the maximum

Where every step of a fold takes the maximum of a key, the key at the end is
the greatest of the first one and those of the elements
(`isGreatest_foldl`), so their order and repetitions do not matter. A greatest
pair of the lexicographic order has the greatest first part, and the greatest
second part of those with that first part.
-/

namespace CephMds.Maxima

variable {σ κ α β : Type*}

/-- The keys at the start of a fold and of its elements. -/
def keys (first : α) (key : κ → α) (l : List κ) : Set α := {x | x = first ∨ ∃ k ∈ l, x = key k}

theorem keys_append_singleton (first : α) (key : κ → α) (l : List κ) (k : κ) :
    keys first key (l ++ [k]) = insert (key k) (keys first key l) := by
  ext x
  simp only [keys, List.mem_append, List.mem_singleton, Set.mem_ofPred_eq, Set.mem_insert_iff]
  constructor
  · rintro (rfl | ⟨j, hj | rfl, rfl⟩)
    · exact .inr (.inl rfl)
    · exact .inr (.inr ⟨j, hj, rfl⟩)
    · exact .inl rfl
  · rintro (rfl | rfl | ⟨j, hj, rfl⟩)
    · exact .inr ⟨k, .inr rfl, rfl⟩
    · exact .inl rfl
    · exact .inr ⟨j, .inl hj, rfl⟩

theorem keys_congr {first : α} {key : κ → α} {l l' : List κ} (h : ∀ k, k ∈ l ↔ k ∈ l') :
    keys first key l = keys first key l' := by
  simp only [keys, h]

theorem keys_map {τ : Type*} (first : α) (key : κ → α) (f : τ → κ) (l : List τ) :
    keys first key (l.map f) = keys first (fun t => key (f t)) l := by
  simp only [keys, List.mem_map, exists_exists_and_eq_and]

variable [LinearOrder α] [LinearOrder β]

theorem isGreatest_foldl (step : σ → κ → σ) (value : σ → α) (key : κ → α) {l : List κ}
    (h : ∀ s, ∀ k ∈ l, value (step s k) = max (value s) (key k)) (s : σ) :
    IsGreatest (keys (value s) key l) (value (l.foldl step s)) := by
  induction l using List.reverseRecOn with
  | nil =>
    refine ⟨.inl rfl, fun x hx => ?_⟩
    obtain rfl | ⟨k, hk, -⟩ := hx
    · exact le_rfl
    · cases hk
  | append_singleton l k ih =>
    have hl := ih fun s j hj => h s j (List.mem_append_left _ hj)
    rw [keys_append_singleton, List.foldl_append, List.foldl_cons, List.foldl_nil,
      h _ k (List.mem_append_right _ List.mem_cons_self), max_comm]
    exact hl.insert (key k)

/-! ## Pairs -/

theorem max_toLex (a c : α) (b d : β) : max (toLex (a, b)) (toLex (c, d)) =
    if a < c then toLex (c, d) else if c = a then toLex (a, max b d) else toLex (a, b) := by
  rcases lt_trichotomy a c with h | rfl | h
  · rw [if_pos h, max_eq_right]
    exact (Prod.Lex.toLex_lt_toLex.mpr (.inl h)).le
  · rw [if_neg (lt_irrefl a), if_pos rfl]
    rcases le_total b d with h | h
    · have hle : toLex (a, b) ≤ toLex (a, d) := Prod.Lex.toLex_le_toLex.mpr (.inr ⟨rfl, h⟩)
      rw [max_eq_right h, max_eq_right hle]
    · have hle : toLex (a, d) ≤ toLex (a, b) := Prod.Lex.toLex_le_toLex.mpr (.inr ⟨rfl, h⟩)
      rw [max_eq_left h, max_eq_left hle]
  · rw [if_neg h.not_gt, if_neg h.ne, max_eq_left]
    exact (Prod.Lex.toLex_lt_toLex.mpr (.inl h)).le

variable {first : α ×ₗ β} {key : κ → α ×ₗ β} {l : List κ} {p : α ×ₗ β}

theorem isGreatest_fst (h : IsGreatest (keys first key l) p) :
    IsGreatest (keys (ofLex first).1 (fun k => (ofLex (key k)).1) l) (ofLex p).1 := by
  have hmono : ∀ x : α ×ₗ β, x ≤ p → (ofLex x).1 ≤ (ofLex p).1 := by
    intro x hx
    rcases (Prod.Lex.le_iff).mp hx with hlt | ⟨heq, -⟩
    · exact hlt.le
    · exact heq.le
  constructor
  · rcases h.1 with rfl | ⟨k, hk, rfl⟩
    · exact .inl rfl
    · exact .inr ⟨k, hk, rfl⟩
  · rintro x (rfl | ⟨k, hk, rfl⟩)
    · exact hmono _ (h.2 (.inl rfl))
    · exact hmono _ (h.2 (.inr ⟨k, hk, rfl⟩))

/-- The second parts of the keys with this first part. -/
def seconds (first : α ×ₗ β) (key : κ → α ×ₗ β) (l : List κ) (a : α) : Set β :=
  {b | toLex (a, b) ∈ keys first key l}

theorem isGreatest_snd (h : IsGreatest (keys first key l) p) :
    IsGreatest (seconds first key l (ofLex p).1) (ofLex p).2 := by
  refine ⟨h.1, fun b hb => ?_⟩
  rcases Prod.Lex.le_iff.mp (h.2 hb) with hlt | ⟨-, hle⟩
  · exact absurd hlt (lt_irrefl _)
  · exact hle

end CephMds.Maxima
