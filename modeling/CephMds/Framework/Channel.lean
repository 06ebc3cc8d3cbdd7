import Mathlib.Tactic.Common

/-!
# Channels between the parties of a system

One queue of messages, oldest first, from each party to each other: messages
of one sender to one receiver arrive in the order in which they were sent,
and those of different senders in any order.
-/

namespace CephMds

/-- The messages on their way from a sender to a receiver. -/
def Channels (ρ μ : Type*) := ρ → ρ → List μ

namespace Channels

variable {ρ μ : Type*} [DecidableEq ρ] {net : Channels ρ μ} {a b s r : ρ} {m m' : μ} {ms : List μ}

/-- Nothing is on its way. -/
def empty (ρ μ : Type*) : Channels ρ μ := fun _ _ => []

/-- Leaves `ms` on the way from `s` to `r`. -/
def put (net : Channels ρ μ) (s r : ρ) (ms : List μ) : Channels ρ μ := fun a b =>
  if a = s ∧ b = r then ms else net a b

/-- `s` sends `m` to all others. -/
def broadcast (net : Channels ρ μ) (s : ρ) (m : μ) : Channels ρ μ := fun a b =>
  if a = s ∧ b ≠ s then net a b ++ [m] else net a b

theorem mem_put (h : m' ∈ net.put s r ms a b) : m' ∈ net a b ∨ a = s ∧ b = r ∧ m' ∈ ms := by
  rw [put] at h
  split at h
  · rename_i hab
    exact .inr ⟨hab.1, hab.2, h⟩
  · exact .inl h

theorem mem_broadcast (h : m' ∈ net.broadcast s m a b) : m' ∈ net a b ∨ a = s ∧ b ≠ s ∧ m' = m := by
  rw [broadcast] at h
  split at h
  · rename_i hab
    rcases List.mem_append.mp h with h | h
    · exact .inl h
    · exact .inr ⟨hab.1, hab.2, List.mem_singleton.mp h⟩
  · exact .inl h

end Channels

end CephMds
