import CephMds.Model.Balancer

/-!
# Which loads a decision rests on

Every load that a rank keeps has been sent by its rank, for the epoch of the
rank that keeps it, as long as no heartbeat of another epoch is handled
(`Current`): `handle_heartbeat` does not compare the beat of a heartbeat with
its own, so that a late one of an earlier epoch is counted too
(`not_decisions_current`). The results are over all runs of the exchange.
-/

namespace CephMds

variable {n : ℕ} {Λ M : Type}

/-! ## One rank -/

namespace Balancer

variable {b : Balancer n Λ M} {whoami who w : Fin n} {now : Measured Λ M} {m : MHeartbeat Λ M} {l : Λ}

@[simp] theorem insertLoad_mdsLoad :
    (b.insertLoad who m).mdsLoad = Function.update b.mdsLoad who (some m.load) := rfl
@[simp] theorem insertLoad_beatEpoch : (b.insertLoad who m).beatEpoch = b.beatEpoch := rfl

/-- The size test succeeds where every rank has a load. -/
theorem balances_iff : b.balances = true ↔ ∀ w, (b.mdsLoad w).isSome := by
  have h : ∀ c : ℕ, c = n ↔ c = (Finset.univ : Finset (Fin n)).card := by simp
  rw [balances, beq_iff_eq, mdsLoadSize, h, Finset.card_filter_eq_iff]
  simp

variable [NeZero n]

@[simp] theorem sendHeartbeat_mdsLoad : (b.sendHeartbeat whoami now).1.mdsLoad =
    Function.update (fun _ => none) whoami (some now.load) := rfl
@[simp] theorem sendHeartbeat_beat :
    (b.sendHeartbeat whoami now).2.beat = (b.sendHeartbeat whoami now).1.beatEpoch := rfl
@[simp] theorem sendHeartbeat_load : (b.sendHeartbeat whoami now).2.load = now.load := rfl

theorem sendHeartbeat_beatEpoch (h : whoami ≠ 0) :
    (b.sendHeartbeat whoami now).1.beatEpoch = b.beatEpoch := if_neg h

theorem handleHeartbeat_zero : b.handleHeartbeat whoami now 0 m =
    ((({ b with beatEpoch := m.beat }.sendHeartbeat whoami now).1.insertLoad 0 m),
      some ({ b with beatEpoch := m.beat }.sendHeartbeat whoami now).2) := by
  rw [handleHeartbeat, newEpoch, if_pos rfl]

theorem handleHeartbeat_of_ne (h : who ≠ 0) :
    b.handleHeartbeat whoami now who m = (b.insertLoad who m, none) := by
  rw [handleHeartbeat, newEpoch, if_neg h]

end Balancer

/-! ## The cluster -/

namespace Exchange

variable {s s' : Exchange n Λ M} {who whoami r w : Fin n} {b : Balancer n Λ M} {e : ℕ} {l : Λ}
  {now : Measured Λ M} {m hb : MHeartbeat Λ M}

/-- `w` has sent the load `l` for epoch `e`. -/
def Sent (s : Exchange n Λ M) (w : Fin n) (e : ℕ) (l : Λ) : Prop :=
  ∃ hb, (w, hb) ∈ s.sent ∧ hb.beat = e ∧ hb.load = l

/-- What is on its way has been sent, what a rank keeps has been sent for its
epoch, and what was decided rests on one epoch. -/
structure Traced (s : Exchange n Λ M) : Prop where
  flying {a b : Fin n} {m : MHeartbeat Λ M} : m ∈ s.net a b → a ≠ b ∧ (a, m) ∈ s.sent
  kept {r w : Fin n} {l : Λ} : (s.ranks r).mdsLoad w = some l → s.Sent w (s.ranks r).beatEpoch l
  decided {d : Decision n Λ} : d ∈ s.decisions → ∀ w, ∃ l, d.mdsLoad w = some l ∧ s.Sent w d.beatEpoch l

theorem Sent.mono (h : s.Sent w e l) (hs : ∀ p ∈ s.sent, p ∈ s'.sent) : s'.Sent w e l := by
  obtain ⟨hb, h, he, hl⟩ := h
  exact ⟨hb, hs _ h, he, hl⟩

theorem traced_initial : Traced (initial : Exchange n Λ M) := by
  refine ⟨fun h => ?_, fun h => ?_, fun h => ?_⟩ <;> cases h

section Current

variable [NeZero n]

/-- A step handles no heartbeat of another epoch than that of the receiver.
Those of rank 0 start an epoch. -/
def Current (s : Exchange n Λ M) : Action n Λ M → Prop
  | .tick _ => True
  | .deliver who whoami _ => who ≠ 0 →
    ∀ m, (s.net who whoami).head? = some m → m.beat = (s.ranks whoami).beatEpoch

end Current

namespace Traced

theorem take (ms : List (MHeartbeat Λ M)) (h : Traced s) (hm : ∀ m' ∈ ms, m' ∈ s.net who whoami) :
    Traced { s with net := s.net.put who whoami ms } := by
  refine ⟨fun {a b m'} hm' => ?_, h.kept, h.decided⟩
  rcases Channels.mem_put hm' with h' | ⟨rfl, rfl, h'⟩
  · exact h.flying h'
  · exact h.flying (hm m' h')

theorem setRank (h : Traced s) (hb : ∀ w l, b.mdsLoad w = some l → s.Sent w b.beatEpoch l) :
    Traced (s.setRank r b) := by
  refine ⟨h.flying, fun {r' w l} hl => ?_, h.decided⟩
  by_cases hr : r' = r
  · subst hr
    simp only [Exchange.setRank, Function.update_self] at hl ⊢
    exact hb w l hl
  · simp only [Exchange.setRank, Function.update_of_ne hr] at hl ⊢
    exact h.kept hl

theorem broadcast (h : Traced s) : Traced (s.broadcast r hb) := by
  have hmono : ∀ p ∈ s.sent, p ∈ (s.broadcast r hb).sent := fun p hp => List.mem_cons_of_mem _ hp
  refine ⟨fun {a b m} hm => ?_, fun hl => (h.kept hl).mono hmono, fun hd w => ?_⟩
  · rcases Channels.mem_broadcast hm with h' | ⟨rfl, hab, rfl⟩
    · exact ⟨(h.flying h').1, hmono _ (h.flying h').2⟩
    · exact ⟨hab.symm, List.mem_cons_self⟩
  · obtain ⟨l, hl, hs⟩ := h.decided hd w
    exact ⟨l, hl, hs.mono hmono⟩

/-- A load that has been sent for the epoch of the rank. -/
theorem insertLoad (h : Traced s) (hm : (who, m) ∈ s.sent) (he : m.beat = (s.ranks r).beatEpoch) :
    Traced (s.setRank r ((s.ranks r).insertLoad who m)) := by
  refine h.setRank fun w l hl => ?_
  rw [Balancer.insertLoad_mdsLoad] at hl
  by_cases hw : w = who
  · subst hw
    rw [Function.update_self, Option.some.injEq] at hl
    exact ⟨m, hm, he, hl⟩
  · rw [Function.update_of_ne hw] at hl
    exact h.kept hl

theorem decide (h : Traced s) : Traced (s.decide r) := by
  rw [Exchange.decide]
  split
  · rename_i hb
    refine ⟨h.flying, h.kept, fun {d} hd w => ?_⟩
    rcases List.mem_cons.mp hd with rfl | hd
    · obtain ⟨l, hl⟩ := Option.isSome_iff_exists.mp (Balancer.balances_iff.mp hb w)
      exact ⟨l, hl, h.kept hl⟩
    · exact h.decided hd w
  · exact h

variable [NeZero n]

/-- A rank that clears its loads and sends its own. -/
theorem send (b : Balancer n Λ M) (now : Measured Λ M) (h : Traced s) : Traced
    ((s.broadcast r (b.sendHeartbeat r now).2).setRank r (b.sendHeartbeat r now).1) := by
  refine h.broadcast.setRank fun w l hl => ?_
  rw [Balancer.sendHeartbeat_mdsLoad] at hl
  by_cases hw : w = r
  · subst hw
    rw [Function.update_self, Option.some.injEq] at hl
    exact ⟨_, List.mem_cons_self, rfl, hl⟩
  · rw [Function.update_of_ne hw] at hl
    cases hl

/-- One step that handles no heartbeat of another epoch. -/
theorem step {a : Action n Λ M} (h : Traced s) (hc : Current s a) (hs : s.step a = some s') :
    Traced s' := by
  cases a with
  | tick now =>
    obtain rfl := Option.some.inj hs
    exact h.send _ now
  | deliver who whoami now =>
    cases hnet : s.net who whoami with
    | nil =>
      simp only [Exchange.step, hnet] at hs
      cases hs
    | cons m ms =>
      simp only [Exchange.step, hnet, Option.some.injEq] at hs
      subst hs
      have hm : m ∈ s.net who whoami := by
        rw [hnet]
        exact List.mem_cons_self
      obtain ⟨hne, hsent⟩ := h.flying hm
      have h₁ := h.take ms fun m' hm' => show m' ∈ s.net who whoami by
        rw [hnet]
        exact List.mem_cons_of_mem _ hm'
      refine Traced.decide ?_
      by_cases hw : who = 0
      · -- A new epoch: the loads are cleared, and the own one is sent for it.
        subst hw
        rw [Balancer.handleHeartbeat_zero]
        have h₂ := (h₁.send (r := whoami) { s.ranks whoami with beatEpoch := m.beat } now).insertLoad
          (r := whoami) (List.mem_cons_of_mem _ hsent) (by
            simp only [Exchange.setRank, Function.update_self]
            rw [Balancer.sendHeartbeat_beatEpoch hne.symm])
        simpa [Exchange.setRank, Exchange.broadcast] using h₂
      · rw [Balancer.handleHeartbeat_of_ne hw]
        exact h₁.insertLoad hsent (hc hw m (by rw [hnet]; rfl))

end Traced

variable [NeZero n]

/-- In every run in which no heartbeat of another epoch is handled, every
decision rests on the loads that all ranks have sent for the current epoch. -/
theorem decisions_current {as : List (Action n Λ M)} (hok : Meets step Current initial as)
    (h : run step initial as = some s) {d : Decision n Λ} (hd : d ∈ s.decisions) (w : Fin n) :
    ∃ hb, (w, hb) ∈ s.sent ∧ hb.beat = d.beatEpoch ∧ d.mdsLoad w = some hb.load := by
  have hT : Traced s := run_invariant_of (fun _ _ _ => Traced.step) traced_initial hok h
  obtain ⟨l, hl, hb, hs, he, rfl⟩ := hT.decided hd w
  exact ⟨hb, hs, he, hl⟩

/-- Rank 0 starts an epoch, and the other rank answers. -/
def answered : List (Action 2 ℕ ℕ) := [.tick ⟨10, 0⟩, .deliver 0 1 ⟨20, 0⟩, .deliver 1 0 ⟨11, 0⟩]

/-- The answer arrives when rank 0 has started the next epoch. -/
def overtaken : List (Action 2 ℕ ℕ) :=
  [.tick ⟨10, 0⟩, .deliver 0 1 ⟨20, 0⟩, .tick ⟨11, 0⟩, .deliver 1 0 ⟨11, 0⟩]

theorem decisions_current_answered : ∃ s, run step initial answered = some s ∧
    s.decisions.map Decision.whoami = [0, 1] ∧ ∀ d ∈ s.decisions, ∀ w,
      ∃ hb, (w, hb) ∈ s.sent ∧ hb.beat = d.beatEpoch ∧ d.mdsLoad w = some hb.load := by
  have hok : Meets step Current initial answered := by
    refine ⟨trivial, fun s₁ h₁ => ⟨fun h => absurd rfl h, fun s₂ h₂ => ⟨fun _ m hm => ?_, fun _ _ => trivial⟩⟩⟩
    cases h₁
    cases h₂
    cases hm
    rfl
  exact ⟨_, rfl, rfl, fun d hd w => decisions_current hok rfl hd w⟩

theorem not_decisions_current : ¬ ∀ (as : List (Action 2 ℕ ℕ)) (s : Exchange 2 ℕ ℕ),
    run step initial as = some s → ∀ d ∈ s.decisions, ∀ w,
      ∃ hb, (w, hb) ∈ s.sent ∧ hb.beat = d.beatEpoch ∧ d.mdsLoad w = some hb.load := by
  intro h
  obtain ⟨hb, hs, he, -⟩ := h overtaken _ rfl _ List.mem_cons_self 1
  -- Rank 1 has sent nothing for epoch 2.
  have hone : ∀ p ∈ [((0 : Fin 2), (⟨11, 2, 0⟩ : MHeartbeat ℕ ℕ)), (1, ⟨20, 1, 0⟩), (0, ⟨10, 1, 0⟩)],
      p.1 = 1 → p.2.beat ≠ 2 := by decide
  exact hone _ hs rfl he

end Exchange

end CephMds
