import Mathlib.Tactic.Common

/-!
# Runs of a step function

A system is a function `step` from a state and an action to the next state,
undefined where the action is not possible. `run` performs a list of actions.
`run_invariant` is the induction over a run, and `run_invariant_of` the same
for runs whose steps all meet a condition on the state before the step
(`Meets`); `run_returns_of` says of such runs that they do not get stuck.
-/

namespace CephMds

variable {σ κ : Type*} {step : σ → κ → Option σ}

/-- Performs the actions in order. -/
def run (step : σ → κ → Option σ) : σ → List κ → Option σ
  | s, [] => some s
  | s, a :: as => (step s a).bind fun s' => run step s' as

/-- Every step of the run from `s` is taken in a state that meets `ok`. -/
def Meets (step : σ → κ → Option σ) (ok : σ → κ → Prop) : σ → List κ → Prop
  | _, [] => True
  | s, a :: as => ok s a ∧ ∀ s', step s a = some s' → Meets step ok s' as

theorem run_cons {s s' : σ} {a : κ} {as : List κ} :
    run step s (a :: as) = some s' ↔ ∃ t, step s a = some t ∧ run step t as = some s' := by
  simp [run, Option.bind_eq_some_iff]

section Decidable

variable {ok : σ → κ → Prop} {s s' : σ} {a : κ} {as : List κ}

theorem meets_cons_of_some (h : step s a = some s') :
    Meets step ok s (a :: as) ↔ ok s a ∧ Meets step ok s' as := by
  simp [Meets, h]

theorem meets_cons_of_none (h : step s a = none) : Meets step ok s (a :: as) ↔ ok s a := by
  simp [Meets, h]

instance decidableMeets [∀ s a, Decidable (ok s a)] : ∀ s as, Decidable (Meets step ok s as)
  | _, [] => .isTrue trivial
  | s, a :: as =>
    match h : step s a with
    | none => decidable_of_iff _ (meets_cons_of_none h).symm
    | some s' =>
      have := decidableMeets s' as
      decidable_of_iff _ (meets_cons_of_some h).symm

end Decidable

theorem meets_of_forall {ok : κ → Prop} {as : List κ} (h : ∀ a ∈ as, ok a) (s : σ) :
    Meets step (fun _ a => ok a) s as := by
  induction as generalizing s with
  | nil => trivial
  | cons a as ih =>
    exact ⟨h a List.mem_cons_self, fun s' _ => ih (fun b hb => h b (List.mem_cons_of_mem a hb)) s'⟩

theorem run_append {s s' : σ} {as bs : List κ} :
    run step s (as ++ bs) = some s' ↔ ∃ t, run step s as = some t ∧ run step t bs = some s' := by
  induction as generalizing s with
  | nil => simp [run]
  | cons a as ih =>
    simp only [List.cons_append, run_cons, ih]
    constructor
    · rintro ⟨t, ht, u, hu, hs⟩
      exact ⟨u, ⟨t, ht, hu⟩, hs⟩
    · rintro ⟨u, ⟨t, ht, hu⟩, hs⟩
      exact ⟨t, ht, u, hu, hs⟩

/-- The part of a run that follows another. -/
theorem Meets.right {ok : σ → κ → Prop} {s t : σ} {as bs : List κ} (h : Meets step ok s (as ++ bs))
    (hr : run step s as = some t) : Meets step ok t bs := by
  induction as generalizing s with
  | nil =>
    cases hr
    exact h
  | cons a as ih =>
    obtain ⟨u, hu, hr⟩ := run_cons.mp hr
    exact ih (h.2 u hu) hr

theorem Meets.left {ok : σ → κ → Prop} {s : σ} {as bs : List κ} (h : Meets step ok s (as ++ bs)) :
    Meets step ok s as := by
  induction as generalizing s with
  | nil => trivial
  | cons a as ih => exact ⟨h.1, fun t ht => ih (h.2 t ht)⟩

/-- What every step that meets `ok` keeps holds at the end of every run
whose steps all meet it. -/
theorem run_invariant_of {P : σ → Prop} {ok : σ → κ → Prop}
    (hstep : ∀ s a s', P s → ok s a → step s a = some s' → P s') {s s' : σ} {as : List κ}
    (hs : P s) (hok : Meets step ok s as) (h : run step s as = some s') : P s' := by
  induction as generalizing s with
  | nil =>
    cases h
    exact hs
  | cons a as ih =>
    obtain ⟨t, ht, hr⟩ := run_cons.mp h
    exact ih (hstep s a t hs hok.1 ht) (hok.2 t ht) hr

/-- What every step keeps holds at the end of every run. -/
theorem run_invariant {P : σ → Prop} (hstep : ∀ s a s', P s → step s a = some s' → P s')
    {s s' : σ} {as : List κ} (hs : P s) (h : run step s as = some s') : P s' := by
  induction as generalizing s with
  | nil =>
    cases h
    exact hs
  | cons a as ih =>
    obtain ⟨t, ht, hr⟩ := run_cons.mp h
    exact ih (hstep s a t hs ht) hr

/-- Where every step that meets `ok` returns and keeps `P`, so does every run whose steps all meet it. -/
theorem run_returns_of {P : σ → Prop} {ok : σ → κ → Prop}
    (hstep : ∀ s a, P s → ok s a → ∃ s', step s a = some s' ∧ P s') {s : σ} {as : List κ} (hs : P s)
    (hok : Meets step ok s as) : ∃ s', run step s as = some s' ∧ P s' := by
  induction as generalizing s with
  | nil => exact ⟨s, rfl, hs⟩
  | cons a as ih =>
    obtain ⟨t, ht, hp⟩ := hstep s a hs hok.1
    obtain ⟨s', hr, hp'⟩ := ih hp (hok.2 t ht)
    exact ⟨s', run_cons.mpr ⟨t, ht, hr⟩, hp'⟩

end CephMds
