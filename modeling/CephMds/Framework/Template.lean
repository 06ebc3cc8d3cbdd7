import Mathlib

/-!
# Templates

A template is a text with references to other texts. Where every text is given
by a template, and a rank goes down along the references, there is one choice
of the texts such that each is its template with the references filled in
(`exists_solves`, `Solves.unique`).
-/

namespace CephMds

namespace Template

/-- A character of a template, or a reference. -/
inductive Piece (κ α : Type*)
  | lit (a : α)
  | ref (k : κ)
  deriving DecidableEq

variable {κ α : Type*}

/-- The text of a template. -/
def fill (text : κ → List α) (t : List (Piece κ α)) : List α :=
  t.flatMap fun
    | .lit a => [a]
    | .ref k => text k

def refs (t : List (Piece κ α)) : List κ :=
  t.filterMap fun
    | .lit _ => none
    | .ref k => some k

/-- A template without references. -/
def lits (s : List α) : List (Piece κ α) := s.map .lit

@[simp] theorem fill_nil (text : κ → List α) : fill text [] = [] := rfl

@[simp] theorem fill_lit (text : κ → List α) (a : α) (t : List (Piece κ α)) :
    fill text (.lit a :: t) = a :: fill text t := rfl

@[simp] theorem fill_ref (text : κ → List α) (k : κ) (t : List (Piece κ α)) :
    fill text (.ref k :: t) = text k ++ fill text t := rfl

@[simp] theorem fill_append (text : κ → List α) (s t : List (Piece κ α)) :
    fill text (s ++ t) = fill text s ++ fill text t := List.flatMap_append

@[simp] theorem fill_lits (text : κ → List α) (s : List α) : fill text (lits s) = s := by
  induction s with
  | nil => rfl
  | cons a s ih => exact congrArg (List.cons a) ih

@[simp] theorem refs_lit (a : α) (t : List (Piece κ α)) : refs (.lit a :: t) = refs t := rfl

@[simp] theorem refs_ref (k : κ) (t : List (Piece κ α)) : refs (.ref k :: t) = k :: refs t := rfl

@[simp] theorem refs_append (s t : List (Piece κ α)) : refs (s ++ t) = refs s ++ refs t := List.filterMap_append

@[simp] theorem refs_lits (s : List α) : refs (lits s : List (Piece κ α)) = [] := by
  induction s with
  | nil => rfl
  | cons a s ih => exact ih

theorem mem_refs_lits_append {s : List α} {t : List (Piece κ α)} {k : κ} : k ∈ refs (lits s ++ t) ↔ k ∈ refs t := by
  rw [refs_append, refs_lits, List.nil_append]

theorem mem_refs {t : List (Piece κ α)} {k : κ} : k ∈ refs t ↔ Piece.ref k ∈ t := by
  rw [refs, List.mem_filterMap]
  constructor
  · rintro ⟨_ | k', hp, h⟩
    · cases h
    · cases h
      exact hp
  · exact fun h => ⟨_, h, rfl⟩

theorem fill_congr {v w : κ → List α} {t : List (Piece κ α)} (h : ∀ k ∈ refs t, v k = w k) : fill v t = fill w t := by
  refine List.flatMap_congr fun p hp => ?_
  cases p with
  | lit a => rfl
  | ref k => exact h k (mem_refs.mpr hp)

/-- Each text is its template, filled in. -/
def Solves (template : κ → List (Piece κ α)) (text : κ → List α) : Prop := ∀ k, text k = fill text (template k)

variable {template : κ → List (Piece κ α)} {rank : κ → ℕ}

theorem Solves.unique (hrank : ∀ k, ∀ x ∈ refs (template k), rank x < rank k) {v w : κ → List α}
    (hv : Solves template v) (hw : Solves template w) : v = w := by
  funext k
  induction hn : rank k using Nat.strong_induction_on generalizing k with
  | _ n ih =>
    rw [hv k, hw k]
    exact fill_congr fun x hx => ih (rank x) (hn ▸ hrank k x hx) x rfl

/-- The texts, with references followed `n` deep. -/
def approx (template : κ → List (Piece κ α)) : ℕ → κ → List α
  | 0, _ => []
  | n + 1, k => fill (approx template n) (template k)

theorem approx_eq (hrank : ∀ k, ∀ x ∈ refs (template k), rank x < rank k) {k : κ} {m n : ℕ} (hm : rank k < m)
    (hn : rank k < n) : approx template m k = approx template n k := by
  induction m generalizing k n with
  | zero => exact absurd hm (Nat.not_lt_zero _)
  | succ m ih =>
    cases n with
    | zero => exact absurd hn (Nat.not_lt_zero _)
    | succ n =>
      refine fill_congr fun x hx => ih ?_ ?_
      · exact (hrank k x hx).trans_le (Nat.lt_succ_iff.mp hm)
      · exact (hrank k x hx).trans_le (Nat.lt_succ_iff.mp hn)

theorem exists_solves (hrank : ∀ k, ∀ x ∈ refs (template k), rank x < rank k) : ∃ text, Solves template text := by
  refine ⟨fun k => approx template (rank k + 1) k, fun k => fill_congr fun x hx => ?_⟩
  exact approx_eq hrank (hrank k x hx) (Nat.lt_succ_self _)

end Template

end CephMds
