import Mathlib.Data.Finset.Basic
import Mathlib.Data.Finset.SDiff
import Mathlib.Tactic.Common

/-!
# Elements that move between places

Elements are kept at places (`P a` is what is at the place `a`), and move from
one place to another. `Apart` says of an arrangement that no element is at two
places, `Moves` of two that they differ by one move. A move keeps the places
apart (`Moves.apart`) and loses no element (`Moves.kept`); `Conserves` is
what any number of moves come to, and `Conserves.existsUnique` that each
element is at exactly one place.
-/

namespace CephMds

variable {κ α : Type*} {P Q R : κ → Finset α} {a b : κ} {X : Finset α}

/-- No element is at two places. -/
def Apart (P : κ → Finset α) : Prop := ∀ i a b, i ∈ P a → i ∈ P b → a = b

theorem Apart.disjoint (h : Apart P) (hab : a ≠ b) : Disjoint (P a) (P b) := by
  rw [Finset.disjoint_left]
  intro i ha hb
  exact hab (h i a b ha hb)

theorem Apart.disjoint_of_subset (h : Apart P) (hX : X ⊆ P a) (hab : a ≠ b) : Disjoint (P b) X :=
  (h.disjoint hab.symm).mono_right hX

/-- The places are apart in `Q`, and have the elements that those of `P` have. -/
structure Conserves (P Q : κ → Finset α) : Prop where
  apart : Apart Q
  kept : ∀ i, (∃ c, i ∈ Q c) ↔ ∃ c, i ∈ P c

theorem Conserves.refl (h : Apart P) : Conserves P P := ⟨h, fun _ => Iff.rfl⟩

theorem Conserves.trans (h : Conserves P Q) (h' : Conserves Q R) : Conserves P R :=
  ⟨h'.apart, fun i => (h'.kept i).trans (h.kept i)⟩

theorem Apart.mono (h : Apart P) (hQ : ∀ a, Q a ⊆ P a) : Apart Q :=
  fun i a b ha hb => h i a b (hQ a ha) (hQ b hb)

/-- Each element is at exactly one place. -/
theorem Conserves.existsUnique (h : Conserves P Q) {i : α} (hi : ∃ c, i ∈ P c) : ∃! c, i ∈ Q c := by
  obtain ⟨c, hc⟩ := (h.kept i).mpr hi
  exact ⟨c, hc, fun d hd => h.apart i d c hd hc⟩

section Moves

variable [DecidableEq α]

/-- The elements of `X` go from `a` to `b`. -/
structure Moves (a b : κ) (X : Finset α) (P Q : κ → Finset α) : Prop where
  ne : a ≠ b
  subset : X ⊆ P a
  source : Q a = P a \ X
  target : Q b = P b ∪ X
  other : ∀ c, c ≠ a → c ≠ b → Q c = P c

/-- The elements that have moved are at the target, and all others where they were. -/
theorem Moves.mem_iff (hm : Moves a b X P Q) (h : Apart P) {i : α} {c : κ} :
    i ∈ Q c ↔ i ∈ X ∧ c = b ∨ i ∉ X ∧ i ∈ P c := by
  by_cases hca : c = a
  · subst hca
    rw [hm.source, Finset.mem_sdiff]
    have := hm.ne
    tauto
  by_cases hcb : c = b
  · subst hcb
    rw [hm.target, Finset.mem_union]
    tauto
  · rw [hm.other c hca hcb]
    have hne : i ∈ X → i ∉ P c := fun hX hc => hca (h i c a hc (hm.subset hX))
    tauto

theorem Moves.apart (hm : Moves a b X P Q) (h : Apart P) : Apart Q := by
  intro i c d hc hd
  rw [hm.mem_iff h] at hc hd
  rcases hc with ⟨hX, rfl⟩ | ⟨hX, hc⟩
  · exact (hd.resolve_right fun hd => hd.1 hX).2.symm
  · exact h i c d hc (hd.resolve_left fun hd => hX hd.1).2

theorem Moves.kept (hm : Moves a b X P Q) (h : Apart P) {i : α} : (∃ c, i ∈ Q c) ↔ ∃ c, i ∈ P c := by
  simp only [hm.mem_iff h]
  constructor
  · rintro ⟨c, ⟨hX, -⟩ | ⟨-, hc⟩⟩
    · exact ⟨a, hm.subset hX⟩
    · exact ⟨c, hc⟩
  · rintro ⟨c, hc⟩
    by_cases hX : i ∈ X
    · exact ⟨b, .inl ⟨hX, rfl⟩⟩
    · exact ⟨c, .inr ⟨hX, hc⟩⟩

theorem Moves.conserves (hm : Moves a b X P Q) (h : Apart P) : Conserves P Q := ⟨hm.apart h, fun _ => hm.kept h⟩

end Moves

end CephMds
