import Mathlib.Data.Finset.Sort
import Mathlib.Tactic.Common

/-!
# Checked computations

A computation of the server can end in a failed assertion, in the use of a
null pointer, or not at all (a loop is run with a bound on its iterations,
and running out of it is a fault of its own). `Checked` is the result of
such a computation. `bind_ok` takes a sequence of them apart, and
`foldlM_invariant` carries an invariant through a loop over a list. A loop
over a set goes through it in ascending order (`ascending`).
-/

namespace CephMds

/-- How a computation fails to return. -/
inductive Fault
  | assert
  | null
  | fuel
  deriving DecidableEq, Repr

/-- The result of a computation with assertions. -/
abbrev Checked (σ : Type*) := Except Fault σ

namespace Checked

universe u v

variable {σ τ : Type u}

/-- `assert(b)`. -/
def assert (b : Bool) : Checked Unit := if b then .ok () else .error .assert

/-- The target of a pointer that is about to be used. -/
def deref : Option σ → Checked σ
  | some x => .ok x
  | none => .error .null

@[simp] theorem assert_ok {b : Bool} {u : Unit} : assert b = .ok u ↔ b = true := by
  cases b <;> simp [assert]

@[simp] theorem deref_ok {o : Option σ} {x : σ} : deref o = .ok x ↔ o = some x := by
  cases o <;> simp [deref]

@[simp] theorem pure_ok {x y : σ} : (pure x : Checked σ) = .ok y ↔ x = y := by
  simp [pure, Except.pure]

/-- A sequence returns iff its first part does and the rest returns from there. -/
@[simp] theorem bind_ok {x : Checked σ} {f : σ → Checked τ} {b : τ} :
    x >>= f = .ok b ↔ ∃ a, x = .ok a ∧ f a = .ok b := by
  cases x <;> simp [bind, Except.bind]

theorem deref_some_bind {x : σ} {f : σ → Checked τ} : deref (some x) >>= f = f x := rfl

theorem assert_true_bind {ρ : Type} {f : Unit → Checked ρ} : assert true >>= f = f () := rfl

@[simp] theorem toOption_eq_some {x : Checked σ} {y : σ} : x.toOption = some y ↔ x = .ok y := by
  cases x <;> simp [Except.toOption]

theorem ite_ok {p : Prop} [Decidable p] {x y : Checked σ} {a : σ} :
    (if p then x else y) = .ok a ↔ p ∧ x = .ok a ∨ ¬ p ∧ y = .ok a := by
  split <;> simp [*]

/-- The result, where the computation is known to return. -/
def get (x : Checked σ) (d : σ) : σ :=
  match x with
  | .ok y => y
  | .error _ => d

/-- How the computation fails, if it does. -/
def fault {τ : Type v} : Checked τ → Option Fault
  | .ok _ => none
  | .error f => some f

theorem fault_eq_some {τ : Type v} {x : Checked τ} {f : Fault} : x.fault = some f ↔ x = .error f := by
  cases x <;> simp [fault]

theorem eq_get {x : Checked σ} {d : σ} (h : x.isOk = true) : x = .ok (x.get d) := by
  cases x with
  | ok y => rfl
  | error e => cases h

/-- A loop without faults is a pure one. -/
theorem foldlM_pure {β : Type v} {f : σ → β → Checked σ} {g : σ → β → σ} {l : List β}
    (h : ∀ s, ∀ x ∈ l, f s x = .ok (g s x)) (s : σ) : l.foldlM f s = .ok (l.foldl g s) := by
  induction l generalizing s with
  | nil => rfl
  | cons x l ih =>
    rw [List.foldlM_cons, h s x List.mem_cons_self]
    exact ih (fun s y hy => h s y (List.mem_cons_of_mem x hy)) (g s x)

/-- A property that every iteration keeps holds after the loop. -/
theorem foldlM_invariant {β : Type v} {f : σ → β → Checked σ} {P : σ → Prop} {l : List β}
    (hf : ∀ s x s', x ∈ l → P s → f s x = .ok s' → P s') {s s' : σ} (hs : P s)
    (h : l.foldlM f s = .ok s') : P s' := by
  induction l generalizing s with
  | nil =>
    rw [List.foldlM_nil, pure_ok] at h
    exact h ▸ hs
  | cons x l ih =>
    rw [List.foldlM_cons, bind_ok] at h
    obtain ⟨s₁, h₁, h₂⟩ := h
    exact ih (fun s y s' hy => hf s y s' (List.mem_cons_of_mem _ hy))
      (hf s x s₁ List.mem_cons_self hs h₁) h₂

/-- A loop whose every iteration returns and keeps a property returns. -/
theorem foldlM_returns {β : Type v} {f : σ → β → Checked σ} {P : σ → Prop} {l : List β}
    (hf : ∀ s x, x ∈ l → P s → ∃ s', f s x = .ok s' ∧ P s') {s : σ} (hs : P s) :
    ∃ s', l.foldlM f s = .ok s' ∧ P s' := by
  induction l generalizing s with
  | nil => exact ⟨s, rfl, hs⟩
  | cons x l ih =>
    obtain ⟨s₁, h₁, hs₁⟩ := hf s x List.mem_cons_self hs
    obtain ⟨s', h', hs'⟩ := ih (fun s y hy => hf s y (List.mem_cons_of_mem _ hy)) hs₁
    refine ⟨s', ?_, hs'⟩
    rw [List.foldlM_cons, bind_ok]
    exact ⟨s₁, h₁, h'⟩

/-- A loop whose every iteration returns, with an invariant on what is done. -/
theorem foldlM_done {β : Type v} {f : σ → β → Checked σ} {P : List β → σ → Prop} {l : List β}
    (hf : ∀ done x rest s, l = done ++ x :: rest → P done s → ∃ s', f s x = .ok s' ∧ P (done ++ [x]) s') {s : σ}
    (hs : P [] s) : ∃ s', l.foldlM f s = .ok s' ∧ P l s' := by
  suffices H : ∀ rest done s, l = done ++ rest → P done s → ∃ s', rest.foldlM f s = .ok s' ∧ P l s' from
    H l [] s rfl hs
  intro rest
  induction rest with
  | nil =>
    intro done s hl hs
    rw [List.append_nil] at hl
    exact ⟨s, rfl, hl ▸ hs⟩
  | cons x rest ih =>
    intro done s hl hs
    obtain ⟨s₁, h₁, hs₁⟩ := hf done x rest s hl hs
    obtain ⟨s', h', hs'⟩ := ih (done ++ [x]) s₁ (by rw [hl, List.append_assoc]; rfl) hs₁
    refine ⟨s', ?_, hs'⟩
    rw [List.foldlM_cons, bind_ok]
    exact ⟨s₁, h₁, h'⟩

/-- The computation returns with `P`, or fails an assertion; it does not fail in another way. -/
def Ends {τ : Type v} (x : Checked τ) (P : τ → Prop) : Prop :=
  match x with
  | .ok y => P y
  | .error f => f = .assert

theorem Ends.of_ok {τ : Type v} {x : Checked τ} {P : τ → Prop} {y : τ} (h : Ends x P) (hx : x = .ok y) : P y := by
  rw [hx] at h
  exact h

theorem Ends.mono {τ : Type v} {x : Checked τ} {P Q : τ → Prop} (h : Ends x P) (hPQ : ∀ y, P y → Q y) : Ends x Q := by
  cases x with
  | ok y => exact hPQ y h
  | error f => exact h

theorem ends_of_returns {τ : Type v} {x : Checked τ} {P : τ → Prop} (h : ∃ y, x = .ok y ∧ P y) : Ends x P := by
  obtain ⟨y, rfl, hy⟩ := h
  exact hy

theorem Ends.bind {x : Checked σ} {f : σ → Checked τ} {P : σ → Prop} {Q : τ → Prop} (h : Ends x P)
    (hf : ∀ y, P y → Ends (f y) Q) : Ends (x >>= f) Q := by
  cases x with
  | ok y => exact hf y h
  | error e => exact h

theorem ends_assert {ρ : Type} {b : Bool} {f : Unit → Checked ρ} {Q : ρ → Prop} (h : b = true → Ends (f ()) Q) :
    Ends (assert b >>= f) Q := by
  cases b with
  | true => exact h rfl
  | false => exact rfl

/-- A loop whose every iteration keeps a property. -/
theorem ends_foldlM {β : Type v} {f : σ → β → Checked σ} {P : σ → Prop} {l : List β}
    (hf : ∀ s, ∀ x ∈ l, P s → Ends (f s x) P) {s : σ} (hs : P s) : Ends (l.foldlM f s) P := by
  induction l generalizing s with
  | nil => exact hs
  | cons x l ih =>
    rw [List.foldlM_cons]
    exact (hf s x List.mem_cons_self hs).bind fun t ht => ih (fun s y hy => hf s y (List.mem_cons_of_mem x hy)) ht

end Checked

section Ascending

variable {α : Type*} [LinearOrder α]

/-- The elements of a set in the order in which an iterator visits them. -/
def ascending (s : Finset α) : List α :=
  Quot.liftOn s.val (List.insertionSort (· ≤ ·)) fun l l' h =>
    ((List.perm_insertionSort _ l).trans (h.trans (List.perm_insertionSort _ l').symm)).eq_of_pairwise'
      (List.pairwise_insertionSort _ l) (List.pairwise_insertionSort _ l')

@[simp] theorem mem_ascending {s : Finset α} {x : α} : x ∈ ascending s ↔ x ∈ s := by
  obtain ⟨⟨l⟩, h⟩ := s
  exact List.mem_insertionSort _

theorem pairwise_ascending (s : Finset α) : (ascending s).Pairwise (· ≤ ·) := by
  obtain ⟨⟨l⟩, h⟩ := s
  exact List.pairwise_insertionSort _ l

theorem nodup_ascending (s : Finset α) : (ascending s).Nodup := by
  obtain ⟨⟨l⟩, h⟩ := s
  exact (List.perm_insertionSort _ l).nodup_iff.mpr h

/-- `lower_bound`: the least element from `a` on. -/
theorem find_ascending_eq_some {s : Finset α} {a p : α} (h : (ascending s).find? (a ≤ ·) = some p) :
    p ∈ s ∧ a ≤ p ∧ ∀ x ∈ s, a ≤ x → p ≤ x := by
  refine ⟨mem_ascending.mp (List.mem_of_find?_eq_some h), by simpa using List.find?_some h, fun x hx hax => ?_⟩
  obtain ⟨-, as, bs, he, hno⟩ := List.find?_eq_some_iff_append.mp h
  have hmem := mem_ascending.mpr hx
  have hsort := pairwise_ascending s
  rw [he] at hmem hsort
  rcases List.mem_append.mp hmem with hmem | hmem
  · have := hno x hmem
    simp only [Bool.not_eq_true', decide_eq_false_iff_not] at this
    exact absurd hax this
  · rcases List.mem_cons.mp hmem with rfl | hmem
    · exact le_rfl
    · exact (List.pairwise_cons.mp (List.pairwise_append.mp hsort).2.1).1 x hmem

theorem find_ascending_eq_none {s : Finset α} {a : α} (h : (ascending s).find? (a ≤ ·) = none) : ∀ x ∈ s, x < a := by
  intro x hx
  have := List.find?_eq_none.mp h x (mem_ascending.mpr hx)
  rw [decide_eq_true_eq] at this
  exact not_le.mp this

end Ascending

end CephMds
