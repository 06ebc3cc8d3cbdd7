import Mathlib.Data.List.Infix
import Mathlib.Logic.Relation

/-!
# Paths in a binary tree

A node is the list of the turns that lead to it, the last one first, so that a
node is below another one if that is a suffix of it. `ascend` goes up from a node
as long as the siblings pass a test; where the test is whether all leaves below a
node are good, it ends at the largest node with no other leaves than good ones
and those below the first one (`ascend_good`, `ascend_largest`).
-/

namespace CephMds

abbrev BinaryPath := List Bool

namespace BinaryPath

def sibling : BinaryPath → BinaryPath
  | [] => []
  | b :: p => (!b) :: p

def parent (n : BinaryPath) : BinaryPath := n.tail

/-- To the parent, if the sibling passes the test. -/
def ascendStep (ok : BinaryPath → Bool) : BinaryPath → Option BinaryPath
  | [] => none
  | b :: p => if ok (sibling (b :: p)) then some (parent (b :: p)) else none

/-- As far as it goes. -/
def ascend (ok : BinaryPath → Bool) : BinaryPath → BinaryPath
  | [] => []
  | b :: p => if ok (sibling (b :: p)) then ascend ok (parent (b :: p)) else b :: p

variable {ok : BinaryPath → Bool} {f g n p : BinaryPath} {b : Bool}

/-- What is below a node is the node itself, or below one of its children. -/
theorem suffix_cases (b : Bool) : p <:+ g ↔ g = p ∨ b :: p <:+ g ∨ (!b) :: p <:+ g := by
  constructor
  · rintro ⟨t, rfl⟩
    rcases List.eq_nil_or_concat t with rfl | ⟨t, c, rfl⟩
    · exact .inl rfl
    · right
      have hbelow : c :: p <:+ t.concat c ++ p := ⟨t, by simp⟩
      by_cases hc : c = b
      · exact .inl (hc ▸ hbelow)
      · have hother : c = !b := by
          cases b <;> cases c <;> first | rfl | exact absurd rfl hc
        exact .inr (hother ▸ hbelow)
  · rintro (rfl | h | h)
    · exact List.suffix_rfl
    · exact (List.suffix_cons b p).trans h
    · exact (List.suffix_cons (!b) p).trans h

theorem ascend_suffix (ok : BinaryPath → Bool) (n : BinaryPath) : ascend ok n <:+ n := by
  induction n with
  | nil => exact List.suffix_rfl
  | cons b p ih =>
    rw [ascend]
    split
    · exact ih.trans (List.suffix_cons b p)
    · exact List.suffix_rfl

/-- The steps from a node end, and they end where `ascend` says. -/
theorem ascend_steps (ok : BinaryPath → Bool) (n : BinaryPath) :
    Relation.ReflTransGen (fun a c => ascendStep ok a = some c) n (ascend ok n) ∧ ascendStep ok (ascend ok n) = none := by
  induction n with
  | nil => exact ⟨.refl, rfl⟩
  | cons b p ih =>
    rw [ascend]
    split
    · rename_i hpass
      exact ⟨.head (if_pos hpass) ih.1, ih.2⟩
    · rename_i hfail
      exact ⟨.refl, if_neg hfail⟩

theorem ascend_eq_self : ascend ok (b :: p) = b :: p ↔ ok (sibling (b :: p)) = false := by
  rw [ascend]
  constructor
  · intro h
    by_contra hok
    rw [if_pos (eq_true_of_ne_false hok)] at h
    have hlen := (ascend_suffix ok p).length_le
    have : (ascend ok p).length = p.length + 1 := congrArg List.length h
    omega
  · intro h
    rw [if_neg (by simp [h])]

section Leaves

variable {leaf good : BinaryPath → Prop}

/-- No leaf is below another one. -/
def PrefixFree (leaf : BinaryPath → Prop) : Prop := ∀ f g, leaf f → leaf g → f <:+ g → f = g

/-- A node above a leaf is not a leaf. -/
theorem PrefixFree.not_parent (h : PrefixFree leaf) (hf : leaf f) (hb : b :: p <:+ f) : ¬leaf p := by
  intro hp
  have heq := h p f hp hf ((List.suffix_cons b p).trans hb)
  have := hb.length_le
  rw [← heq, List.length_cons] at this
  omega

variable (hok : ∀ n, ok n = true ↔ ∀ g, leaf g → n <:+ g → good g)
include hok

/-- Below the node that is reached there are no other leaves than good ones and those below the first node. -/
theorem ascend_good (hfree : PrefixFree leaf) (hf : leaf f) (hn : n <:+ f) (hg : leaf g) (h : ascend ok n <:+ g) :
    n <:+ g ∨ good g := by
  induction n with
  | nil => exact .inl (List.nil_suffix)
  | cons b p ih =>
    rw [ascend] at h
    split at h
    · rename_i hpass
      rcases ih ((List.suffix_cons b p).trans hn) h with hp | hgood
      · rcases (suffix_cases b).mp hp with rfl | hb | hsib
        · exact absurd hg (hfree.not_parent hf hn)
        · exact .inl hb
        · exact .inr ((hok _).mp hpass g hg hsib)
      · exact .inr hgood
    · exact .inl h

/-- It is above every other node on the way of which this is true. -/
theorem ascend_largest (hp : p <:+ n) (h : ∀ g, leaf g → p <:+ g → n <:+ g ∨ good g) : ascend ok n <:+ p := by
  induction n with
  | nil => exact List.nil_suffix
  | cons b q ih =>
    rcases List.suffix_cons_iff.mp hp with rfl | hpq
    · exact ascend_suffix ok (b :: q)
    rw [ascend]
    split
    · exact ih hpq fun g hg hpg => (h g hg hpg).imp_left (List.suffix_cons b q).trans
    · rename_i hfail
      -- A leaf below the sibling is not good, and it is below `p`.
      rw [hok] at hfail
      simp only [not_forall, exists_prop] at hfail
      obtain ⟨g, hg, hsib, hbad⟩ := hfail
      have hpg : p <:+ g := hpq.trans ((List.suffix_cons (!b) q).trans hsib)
      have hself : b :: q <:+ g := (h g hg hpg).resolve_right hbad
      have heq : b :: q = (!b) :: q :=
        (List.suffix_of_suffix_length_le hself hsib (le_of_eq rfl)).eq_of_length rfl
      cases b <;> cases (List.cons.inj heq).1

end Leaves

end BinaryPath

end CephMds
