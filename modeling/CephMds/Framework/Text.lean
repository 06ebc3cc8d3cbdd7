import Mathlib

/-!
# Numbers as text

Texts are lists of characters. `tokens` are the pieces between blanks, and
`spaced` writes some with a blank before each (`tokens_spaced`). `ofInt` and
`toInt` are the decimal notation of an integer and its value (`toInt_ofInt`).
-/

namespace CephMds.Text

def blank : Char := ' '

/-- `strtok` with blanks, called until it returns nothing. -/
def tokens (s : List Char) : List (List Char) := (s.splitOn blank).filter fun t => !t.isEmpty

def spaced (ts : List (List Char)) : List Char := ts.flatMap (List.cons blank)

/-- What `strtok` finds again: a piece that is not empty and has no blank. -/
def IsToken (t : List Char) : Prop := t ≠ [] ∧ blank ∉ t

theorem IsToken.isEmpty {t : List Char} (ht : IsToken t) : (!t.isEmpty) = true := by
  simp [ht.1]

theorem tokens_blank_cons (s : List Char) : tokens (blank :: s) = tokens s := by
  rw [tokens, List.splitOn_cons_eq_if_modifyHead, if_pos (beq_self_eq_true blank), List.filter_cons_of_neg (by simp)]
  rfl

theorem tokens_append {t : List Char} (ht : IsToken t) (s : List Char) : tokens (t ++ blank :: s) = t :: tokens s := by
  rw [tokens, List.splitOn_append_cons_self_of_not_mem ht.2]
  exact List.filter_cons_of_pos ht.isEmpty

theorem tokens_single {t : List Char} (ht : IsToken t) : tokens t = [t] := by
  rw [tokens, List.splitOn_eq_singleton ht.2]
  exact List.filter_cons_of_pos ht.isEmpty

theorem tokens_spaced {ts : List (List Char)} (h : ∀ t ∈ ts, IsToken t) : tokens (spaced ts) = ts := by
  induction ts with
  | nil => rfl
  | cons t ts ih =>
    have ht := h t List.mem_cons_self
    have ih := ih fun t ht => h t (List.mem_cons_of_mem _ ht)
    show tokens (blank :: t ++ spaced ts) = _
    rw [List.cons_append, tokens_blank_cons]
    cases ts with
    | nil =>
      rw [spaced, List.flatMap_nil, List.append_nil]
      exact tokens_single ht
    | cons t' ts =>
      show tokens (t ++ blank :: (t' ++ spaced ts)) = _
      rw [tokens_append ht, ← tokens_blank_cons]
      exact congrArg (List.cons t) ih

/-! ## Integers -/

def ofNat (n : ℕ) : List Char := Nat.toDigits 10 n

def ofInt : ℤ → List Char
  | .ofNat n => ofNat n
  | .negSucc n => '-' :: ofNat (n + 1)

/-- The value of the digits at the beginning, after a sign. -/
def toInt : List Char → ℤ
  | '-' :: s => -(Nat.ofDigitChars 10 (s.takeWhile Char.isDigit) 0 : ℤ)
  | s => Nat.ofDigitChars 10 (s.takeWhile Char.isDigit) 0

theorem isDigit_ofNat {n : ℕ} {c : Char} (h : c ∈ ofNat n) : c.isDigit = true :=
  Nat.isDigit_of_mem_toDigits (by decide) (by decide) h

theorem takeWhile_ofNat (n : ℕ) : (ofNat n).takeWhile Char.isDigit = ofNat n :=
  List.takeWhile_eq_self_iff.mpr fun _ hc => isDigit_ofNat hc

theorem not_mem_ofNat {n : ℕ} {c : Char} (hc : c.isDigit = false) : c ∉ ofNat n := by
  intro h
  rw [isDigit_ofNat h] at hc
  cases hc

theorem isToken_ofNat (n : ℕ) : IsToken (ofNat n) := ⟨Nat.toDigits_ne_nil, not_mem_ofNat rfl⟩

theorem toInt_ofNat (n : ℕ) : toInt (ofNat n) = n := by
  have hminus : '-' ∉ ofNat n := not_mem_ofNat rfl
  rw [toInt.eq_2, takeWhile_ofNat]
  · exact congrArg Nat.cast Nat.ofDigitChars_ten_toDigits
  · intro s hs
    rw [hs] at hminus
    exact hminus List.mem_cons_self

theorem toInt_ofInt (i : ℤ) : toInt (ofInt i) = i := by
  cases i with
  | ofNat n => exact toInt_ofNat n
  | negSucc n =>
    show -((Nat.ofDigitChars 10 ((ofNat (n + 1)).takeWhile Char.isDigit) 0 : ℕ) : ℤ) = _
    rw [takeWhile_ofNat, Int.negSucc_eq]
    exact congrArg (fun m : ℕ => -(m : ℤ)) Nat.ofDigitChars_ten_toDigits

theorem isToken_ofInt (i : ℤ) : IsToken (ofInt i) := by
  cases i with
  | ofNat n => exact isToken_ofNat n
  | negSucc n =>
    refine ⟨List.cons_ne_nil _ _, fun h => ?_⟩
    rcases List.mem_cons.mp h with h | h
    · exact absurd h (by decide)
    · exact not_mem_ofNat rfl h

theorem ofInt_injective : Function.Injective ofInt := Function.LeftInverse.injective toInt_ofInt

end CephMds.Text
