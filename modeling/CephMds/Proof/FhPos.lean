import CephMds.Model.FhPos
import Mathlib

/-!
# The position of a file handle

A call that moves the position claims the bytes that it moves over
(`Call.claimed`). In a run without failures and without calls that wait for
each other the claims lie below the position and do not meet (`Inv`), and one
lemma (`Inv.update`) says which changes of one call keep this. `Sound` is what
follows for the bytes transferred. What breaks it are the exits of `_read` that
keep the lock, the position that `_write` moves before it can fail, and
`unlock_fh_pos`, which signals no waiter.
-/

namespace CephMds.FhPos

variable {f f' : Fh} {c : ℕ} {k k' : Call} {a : Answer}

/-! ## What is claimed -/

/-- The calls and the lock are as they should be. -/
structure Sound (f : Fh) : Prop where
  released : ∀ c k r, f.calls c = some k → k.pc = .returned r → f.posLocked ≠ some c
  failed : ∀ c k e, f.calls c = some k → k.pc = .returned (.error e) → k.advance = 0
  succeeded : ∀ c k n, f.calls c = some k → k.pc = .returned (.ok n) → n = k.length ∧ k.advance = n
  /-- No two calls transfer the same bytes. -/
  disjoint : ∀ c c' k k' p, c ≠ c' → f.calls c = some k → f.calls c' = some k' →
    k.offset ≤ p → p < k.offset + k.length → k'.offset ≤ p → ¬p < k'.offset + k'.length
  signalled : f.posLocked = none → ∀ w ∈ f.posWaiters.head?, w.signalled = true

/-- An error does no harm. -/
def Call.Harmless (k : Call) : Prop := k.kind = .write ∧ k.size = 0

instance (k : Call) : Decidable k.Harmless := inferInstanceAs (Decidable (k.kind = .write ∧ k.size = 0))

/-- The answer is no failure that matters, and the lock is given up only while no call waits for it. -/
def Smooth (f : Fh) (k : Call) : Answer → Prop
  | .known => True
  | .attr r inSize => match k.pc with
    | .seek => f.posWaiters = [] ∧ (r < 0 ∨ inSize = f.pos)
    | .attr => r < 0 → k.Harmless
    | .eof => 0 ≤ r ∧ (inSize ≤ k.offset + k.length → f.posWaiters = [])
    | _ => True
  | .caps r => r < 0 → k.Harmless
  | .inlined _ => k.kind = .read → f.posWaiters = []
  | .data _ r checkeof => match r with
    | .error _ => k.Harmless
    | .ok _ => k.kind = .read → checkeof = false → f.posWaiters = []
  | .uninlined u => 0 ≤ u ∨ u = ecanceled ∨ k.length = 0

def Goes (f : Fh) : Action → Prop
  | .answer c a => ∀ k ∈ f.calls c, Smooth f k a
  | .read _ _ | .write _ _ _ | .wake _ => True

instance decidableSmooth (f : Fh) : ∀ k a, Decidable (Smooth f k a)
  | _, .known => .isTrue trivial
  | ⟨_, _, .seek, _, _, _, _⟩, .attr r inSize =>
    inferInstanceAs (Decidable (f.posWaiters = [] ∧ (r < 0 ∨ inSize = f.pos)))
  | ⟨kind, size, .attr, _, _, _, _⟩, .attr r _ => inferInstanceAs (Decidable (r < 0 → kind = .write ∧ size = 0))
  | ⟨_, _, .eof, offset, length, _, _⟩, .attr r inSize =>
    inferInstanceAs (Decidable (0 ≤ r ∧ (inSize ≤ offset + length → f.posWaiters = [])))
  | ⟨_, _, .lock, _, _, _, _⟩, .attr _ _ | ⟨_, _, .caps, _, _, _, _⟩, .attr _ _
  | ⟨_, _, .transfer, _, _, _, _⟩, .attr _ _ | ⟨_, _, .uninline _, _, _, _, _⟩, .attr _ _
  | ⟨_, _, .returned _, _, _, _, _⟩, .attr _ _ => .isTrue trivial
  | k, .caps r => inferInstanceAs (Decidable (r < 0 → k.Harmless))
  | k, .inlined _ => inferInstanceAs (Decidable (k.kind = .read → f.posWaiters = []))
  | k, .data _ (.error _) _ => inferInstanceAs (Decidable k.Harmless)
  | k, .data _ (.ok _) checkeof =>
    inferInstanceAs (Decidable (k.kind = .read → checkeof = false → f.posWaiters = []))
  | k, .uninlined u => inferInstanceAs (Decidable (0 ≤ u ∨ u = ecanceled ∨ k.length = 0))

instance decidableGoes (f : Fh) : ∀ a, Decidable (Goes f a)
  | .answer c a => inferInstanceAs (Decidable (∀ k ∈ f.calls c, Smooth f k a))
  | .read _ _ | .write _ _ _ | .wake _ => .isTrue trivial

/-! ## The invariant -/

/-- The call has the lock. -/
def Call.holds (k : Call) : Bool :=
  match k.kind, k.pc with
  | _, .seek => true
  | .read, .attr | .read, .caps | .read, .transfer | .read, .eof => true
  | _, _ => false

/-- The bytes that the call has moved the position over. -/
def Call.claimed (k : Call) : ℕ :=
  match k.kind, k.pc with
  | _, .lock | _, .seek => 0
  | .read, .uninline _ | .read, .returned _ => k.length
  | .read, _ => 0
  | .write, .returned (.error _) => 0
  | .write, _ => k.size

/-- The bytes transferred at each place. -/
def Call.Counts (k : Call) : Prop :=
  match k.kind, k.pc with
  | _, .lock => k.length = 0
  | .read, .seek => False
  | .read, .uninline r => r = .ok ()
  | .read, .returned (.ok n) => n = k.length
  | .read, .returned (.error _) => k.length = 0
  | .read, _ => True
  | .write, .uninline (.ok _) => k.length = k.size
  | .write, .uninline (.error _) => k.length = 0 ∧ k.size = 0
  | .write, .returned (.ok n) => n = k.length ∧ k.length = k.size
  | .write, .returned (.error _) => k.length = 0
  | .write, .eof => False
  | .write, _ => k.length = 0

structure CallInv (f : Fh) (c : ℕ) (k : Call) : Prop where
  holds : k.holds = true ↔ f.posLocked = some c
  advance : k.advance = k.claimed
  below : k.holds = false → k.offset + k.claimed ≤ f.pos
  atPos : k.holds = true → k.kind = .read → k.pc ≠ .seek → k.offset = f.pos
  counts : k.Counts

structure Inv (f : Fh) : Prop where
  call : ∀ c k, f.calls c = some k → CallInv f c k
  holder : ∀ c, f.posLocked = some c → (f.calls c).isSome
  disjoint : ∀ c c' k k', c ≠ c' → f.calls c = some k → f.calls c' = some k' → 0 < k.claimed → 0 < k'.claimed →
    k.offset + k.claimed ≤ k'.offset ∨ k'.offset + k'.claimed ≤ k.offset
  free : f.posLocked = none → f.posWaiters = []

theorem inv_opened (append : Bool) (pos : ℕ) : Inv (Fh.opened append pos) where
  call _ _ h := by cases h
  holder _ h := by cases h
  disjoint _ _ _ _ _ h := by cases h
  free _ := rfl

theorem claimed_of_holds (h : k.holds = true) : k.claimed = 0 := by
  obtain ⟨kind, size, pc, offset, length, onuninline, advance⟩ := k
  cases kind <;> cases pc <;> first | rfl | cases h

/-- What a call has transferred it has claimed, unless it still has the lock. -/
theorem length_le_claimed (h : k.Counts) (hh : k.holds = false) : k.length ≤ k.claimed := by
  obtain ⟨kind, size, pc, offset, length, onuninline, advance⟩ := k
  rcases pc with _ | _ | _ | _ | _ | _ | (e | u) | (e | n) <;> cases kind <;>
    simp_all [Call.Counts, Call.holds, Call.claimed]

/-- One call changes, and the position and the lock as it may change them. -/
theorem Inv.update (h : Inv f) (hcalls : f'.calls = Function.update f.calls c (some k')) (hcall : CallInv f' c k')
    (hpos : f.pos ≤ f'.pos) (hstay : f'.pos = f.pos ∨ ∀ c', c' ≠ c → f.posLocked ≠ some c')
    (hlock : ∀ c', c' ≠ c → (f'.posLocked = some c' ↔ f.posLocked = some c'))
    (hfree : f'.posLocked = none → f'.posWaiters = [])
    (hclaim : k'.claimed = 0 ∨ f.pos ≤ k'.offset ∨
      ∃ k, f.calls c = some k ∧ k'.offset = k.offset ∧ k'.claimed ≤ k.claimed) : Inv f' := by
  have hself : f'.calls c = some k' := by rw [hcalls, Function.update_self]
  have hother : ∀ c', c' ≠ c → f'.calls c' = f.calls c' := fun c' hne => by
    rw [hcalls, Function.update_of_ne hne]
  -- What another call has claimed does not meet the claim of this one.
  have hapart : ∀ c' k, c' ≠ c → f.calls c' = some k → 0 < k.claimed → 0 < k'.claimed →
      k.offset + k.claimed ≤ k'.offset ∨ k'.offset + k'.claimed ≤ k.offset := by
    intro c' k hne hk hpos₁ hpos₂
    rcases hclaim with h₀ | hle | ⟨k₀, hk₀, hoff, hcl⟩
    · omega
    · have hh : k.holds = false := by
        cases hh : k.holds with
        | false => rfl
        | true =>
          have := claimed_of_holds hh
          omega
      have := (h.call c' k hk).below hh
      omega
    · have := h.disjoint c' c k k₀ hne hk hk₀ hpos₁ (by omega)
      omega
  refine ⟨fun c' k hk => ?_, fun c' hl => ?_, fun c₁ c₂ k₁ k₂ hne h₁ h₂ hp₁ hp₂ => ?_, hfree⟩
  · by_cases hc : c' = c
    · subst hc
      rw [hself, Option.some.injEq] at hk
      rwa [← hk]
    · rw [hother c' hc] at hk
      have hk := h.call c' k hk
      refine ⟨hk.holds.trans (hlock c' hc).symm, hk.advance, fun hh => ?_, fun hh hr hs => ?_, hk.counts⟩
      · have := hk.below hh
        omega
      · rcases hstay with hsame | hnone
        · rw [hsame]
          exact hk.atPos hh hr hs
        · exact absurd (hk.holds.mp hh) (hnone c' hc)
  · by_cases hc : c' = c
    · subst hc
      rw [hself]
      rfl
    · rw [hother c' hc]
      exact h.holder c' ((hlock c' hc).mp hl)
  · by_cases hc₁ : c₁ = c
    · subst hc₁
      rw [hself, Option.some.injEq] at h₁
      rw [hother c₂ (Ne.symm hne)] at h₂
      subst h₁
      exact (hapart c₂ k₂ (Ne.symm hne) h₂ hp₂ hp₁).symm
    · rw [hother c₁ hc₁] at h₁
      by_cases hc₂ : c₂ = c
      · subst hc₂
        rw [hself, Option.some.injEq] at h₂
        subst h₂
        exact hapart c₁ k₁ hc₁ h₁ hp₁ hp₂
      · rw [hother c₂ hc₂] at h₂
        exact h.disjoint c₁ c₂ k₁ k₂ hne h₁ h₂ hp₁ hp₂

/-- The bytes of the call with the lock start at the position. -/
theorem atPos_of_holds (h : CallInv f c k) (hh : k.holds = true) : k.length = 0 ∨ k.offset = f.pos := by
  have hcounts := h.counts
  have hpos := h.atPos hh
  obtain ⟨kind, size, pc, offset, length, onuninline, advance⟩ := k
  cases kind <;> cases pc <;> first | exact .inl hcounts | exact False.elim hcounts | exact .inr (hpos rfl (by simp)) | cases hh

theorem Inv.sound (h : Inv f) : Sound f where
  released c k r hk hr hl := by
    have hholds := (h.call c k hk).holds.mpr hl
    obtain ⟨kind, size, pc, offset, length, onuninline, advance⟩ := k
    subst hr
    cases kind <;> cases hholds
  failed c k e hk hr := by
    have hadv := (h.call c k hk).advance
    have hcounts := (h.call c k hk).counts
    obtain ⟨kind, size, pc, offset, length, onuninline, advance⟩ := k
    subst hr
    cases kind with
    | read =>
      rw [hadv]
      exact congrArg Nat.cast hcounts
    | write => exact hadv
  succeeded c k n hk hr := by
    have hadv := (h.call c k hk).advance
    have hcounts := (h.call c k hk).counts
    obtain ⟨kind, size, pc, offset, length, onuninline, advance⟩ := k
    subst hr
    cases kind with
    | read => exact ⟨hcounts, hadv.trans (congrArg Nat.cast hcounts.symm)⟩
    | write => exact ⟨hcounts.1, hadv.trans (congrArg Nat.cast (hcounts.2.symm.trans hcounts.1.symm))⟩
  disjoint c c' k k' p hne hk hk' h₁ h₂ h₃ h₄ := by
    have hc := h.call c k hk
    have hc' := h.call c' k' hk'
    cases hh : k.holds with
    | true =>
      cases hh' : k'.holds with
      | true =>
        have := (hc.holds.mp hh).symm.trans (hc'.holds.mp hh')
        exact absurd (Option.some.inj this) hne
      | false =>
        have hlen' := length_le_claimed hc'.counts hh'
        have hbelow := hc'.below hh'
        rcases atPos_of_holds hc hh with h₀ | h₀ <;> omega
    | false =>
      have hlen := length_le_claimed hc.counts hh
      have hbelow := hc.below hh
      cases hh' : k'.holds with
      | true => rcases atPos_of_holds hc' hh' with h₀ | h₀ <;> omega
      | false =>
        have hlen' := length_le_claimed hc'.counts hh'
        have := h.disjoint c c' k k' hne hk hk'
        omega
  signalled hl w hw := by
    rw [h.free hl] at hw
    cases hw

/-! ## Steps -/

/-- The call goes on with what it has claimed. -/
theorem Inv.setCall (h : Inv f) (hk : f.calls c = some k) (hoff : k'.offset = k.offset)
    (hadv : k'.advance = k.advance) (hkind : k'.kind = k.kind) (hseek : k.pc ≠ .seek)
    (hholds : k'.holds = k.holds) (hclaimed : k'.claimed = k.claimed) (hcounts : k'.Counts) :
    Inv (f.setCall c k') := by
  have hc := h.call c k hk
  refine h.update rfl ⟨?_, ?_, ?_, ?_, hcounts⟩ le_rfl (.inl rfl) (fun _ _ => Iff.rfl) h.free
    (.inr (.inr ⟨k, hk, hoff, hclaimed.le⟩))
  · rw [hholds]
    exact hc.holds
  · rw [hadv, hclaimed]
    exact hc.advance
  · rw [hholds, hoff, hclaimed]
    exact hc.below
  · rw [hholds, hkind, hoff]
    exact fun hh hr _ => hc.atPos hh hr hseek

/-- A write takes its bytes and gives the lock up. -/
theorem Inv.reserve (h : Inv f) (hkind : k.kind = .write) (hadv : k.advance = 0) (hlen : k.length = 0)
    (hwait : f.posWaiters = []) (hlock : ∀ c', c' ≠ c → f.posLocked ≠ some c') : Inv (commit c (f.reserve k)) := by
  obtain ⟨kind, size, pc, offset, length, onuninline, advance⟩ := k
  dsimp only at hkind hadv hlen
  subst hkind hadv hlen
  refine h.update rfl ⟨?_, ?_, fun _ => le_rfl, ?_, rfl⟩ (Nat.le_add_right _ _) (.inr hlock) ?_ (fun _ => hwait)
    (.inr (.inl le_rfl))
  · constructor <;> intro hh <;> cases hh
  · show (0 : ℤ) + (((f.pos + size : ℕ) : ℤ) - f.pos) = (size : ℕ)
    push_cast
    ring
  · intro hh
    cases hh
  · intro c' hne
    constructor
    · intro hl
      cases hl
    · exact fun hl => absurd hl (hlock c' hne)

theorem Inv.locked (h : Inv f) (hfree : f.posLocked = none) (hpc : k.pc = .lock) (hadv : k.advance = 0)
    (hlen : k.length = 0) : Inv (commit c (f.locked c k)) := by
  have hother : ∀ c', c' ≠ c → (some c = some c' ↔ f.posLocked = some c') := by
    intro c' hne
    rw [hfree, Option.some.injEq]
    exact ⟨fun he => absurd he.symm hne, fun he => by cases he⟩
  obtain ⟨kind, size, pc, offset, length, onuninline, advance⟩ := k
  dsimp only at hpc hadv hlen
  subst hpc hadv hlen
  cases kind with
  | read =>
    refine h.update rfl ⟨?_, rfl, ?_, fun _ _ _ => rfl, trivial⟩ le_rfl (.inl rfl) hother ?_ (.inl rfl)
    · exact iff_of_true rfl rfl
    · intro hh
      cases hh
    · intro hl
      cases hl
  | write =>
    rw [Fh.locked]
    dsimp only
    split
    · refine h.update rfl ⟨?_, rfl, ?_, ?_, rfl⟩ le_rfl (.inl rfl) hother ?_ (.inl rfl)
      · exact iff_of_true rfl rfl
      · intro hh
        cases hh
      · exact fun _ _ hs => absurd rfl hs
      · intro hl
        cases hl
    · exact Inv.reserve (f := f) h rfl rfl rfl (h.free hfree) fun c' _ => by simp [hfree]

/-- A new call. -/
theorem Inv.lockFhPos (h : Inv f) (hnew : f.calls c = none) (kind : Kind) (size : ℕ) :
    Inv (commit c (f.lockFhPos c (.new kind size))) := by
  rw [Fh.lockFhPos]
  split
  · rename_i hwait
    have hlocked : f.posLocked ≠ none := by
      intro hnone
      rw [h.free hnone, hnone] at hwait
      cases hwait
    have hnot : f.posLocked ≠ some c := by
      intro hl
      have := h.holder c hl
      rw [hnew] at this
      cases this
    refine h.update rfl ⟨?_, ?_, ?_, ?_, ?_⟩ le_rfl (.inl rfl) (fun _ _ => Iff.rfl) (fun hl => absurd hl hlocked) (.inl ?_)
    · refine iff_of_false ?_ hnot
      cases kind <;> exact Bool.false_ne_true
    · cases kind <;> rfl
    · intro _
      cases kind <;> exact Nat.zero_le _
    · intro hh
      cases kind <;> cases hh
    · cases kind <;> rfl
    · cases kind <;> rfl
  · rename_i hwait
    have hfree : f.posLocked = none := by
      cases hl : f.posLocked with
      | none => rfl
      | some c' =>
        rw [hl] at hwait
        exact absurd rfl hwait
    exact h.locked hfree rfl rfl rfl

/-- A read moves the position and gives the lock up. -/
theorem Inv.success_read {n : ℕ} {b : Bool} (h : Inv f) (hk : f.calls c = some k) (hkind : k.kind = .read)
    (hholds : k.holds = true) (hseek : k.pc ≠ .seek) (hwait : f.posWaiters = []) :
    Inv (commit c (f.success { k with length := n, onuninline := b })) := by
  have hc := h.call c k hk
  have hlock := hc.holds.mp hholds
  have hoff := hc.atPos hholds hkind hseek
  have hadv : k.advance = 0 := by
    rw [hc.advance, claimed_of_holds hholds]
    rfl
  obtain ⟨kind, size, pc, offset, length, onuninline', advance⟩ := k
  dsimp only at hkind hoff hadv
  subst hkind hoff hadv
  have hother : ∀ c', c' ≠ c → f.posLocked ≠ some c' := by
    intro c' hne hl
    exact hne (Option.some.inj (hl.symm.trans hlock))
  have hnone : ∀ c', c' ≠ c → (none = some c' ↔ f.posLocked = some c') := fun c' hne =>
    iff_of_false (by simp) (hother c' hne)
  have hmoved : (0 : ℤ) + (((f.pos + n : ℕ) : ℤ) - f.pos) = (n : ℕ) := by
    push_cast
    ring
  cases b with
  | true =>
    refine h.update rfl ⟨?_, hmoved, fun _ => le_rfl, ?_, rfl⟩ (Nat.le_add_right _ _) (.inr hother) hnone
      (fun _ => hwait) (.inr (.inl le_rfl))
    · constructor <;> intro hh <;> cases hh
    · intro hh
      cases hh
  | false =>
    refine h.update rfl ⟨?_, hmoved, fun _ => le_rfl, ?_, rfl⟩ (Nat.le_add_right _ _) (.inr hother) hnone
      (fun _ => hwait) (.inr (.inl le_rfl))
    · constructor <;> intro hh <;> cases hh
    · intro hh
      cases hh

/-- An error of a call that has claimed nothing. -/
theorem Inv.fails (h : Inv f) (hk : f.calls c = some k) (hharm : k.Harmless) (hseek : k.pc = .attr ∨ k.pc = .caps)
    (e : ℤ) : Inv (commit c (f, k.finish (.error e))) := by
  have hc := h.call c k hk
  obtain ⟨kind, size, pc, offset, length, onuninline, advance⟩ := k
  obtain ⟨hkind, hsize⟩ := hharm
  dsimp only at hkind hsize hseek
  subst hkind hsize
  obtain rfl | rfl := hseek
  · exact h.setCall hk rfl rfl rfl (by simp) rfl rfl hc.counts
  · exact h.setCall hk rfl rfl rfl (by simp) rfl rfl hc.counts

theorem Inv.fails_done (h : Inv f) (hk : f.calls c = some k) (hharm : k.Harmless) (hpc : k.pc = .transfer)
    (onuninline : Bool) (e : ℤ) :
    Inv (commit c (f, Call.done { k with onuninline := onuninline } (.error e))) := by
  have hc := h.call c k hk
  obtain ⟨kind, size, pc, offset, length, onuninline', advance⟩ := k
  obtain ⟨hkind, hsize⟩ := hharm
  dsimp only at hkind hsize hpc
  subst hkind hsize hpc
  cases onuninline with
  | true => exact h.setCall hk rfl rfl rfl (by simp) rfl rfl ⟨hc.counts, rfl⟩
  | false => exact h.setCall hk rfl rfl rfl (by simp) rfl rfl hc.counts

/-- A write has transferred what it claimed. -/
theorem Inv.success_write (h : Inv f) (hk : f.calls c = some k) (hkind : k.kind = .write) (hpc : k.pc = .transfer)
    (n : ℕ) (onuninline : Bool) :
    Inv (commit c (f.success { k with length := n, onuninline := onuninline })) := by
  obtain ⟨kind, size, pc, offset, length, onuninline', advance⟩ := k
  dsimp only at hkind hpc
  subst hkind hpc
  cases onuninline with
  | true => exact h.setCall hk rfl rfl rfl (by simp) rfl rfl rfl
  | false => exact h.setCall hk rfl rfl rfl (by simp) rfl rfl ⟨rfl, rfl⟩

/-- A call at its end, when the data has been uninlined. -/
theorem Inv.uninlined (h : Inv f) (hk : f.calls c = some k) {r : Except ℤ Unit} (hpc : k.pc = .uninline r) {u : ℤ}
    (hu : 0 ≤ u ∨ u = ecanceled ∨ k.length = 0) : Inv (commit c (f, k.uninlined r u)) := by
  have hc := h.call c k hk
  have hcounts := hc.counts
  obtain ⟨kind, size, pc, offset, length, onuninline, advance⟩ := k
  dsimp only at hpc hu
  subst hpc
  rw [Call.uninlined]
  split
  · cases r with
    | ok x =>
      cases kind with
      | read => exact h.setCall hk rfl rfl rfl (by simp) rfl rfl rfl
      | write => exact h.setCall hk rfl rfl rfl (by simp) rfl rfl ⟨rfl, hcounts⟩
    | error e =>
      cases kind with
      | read => cases hcounts
      | write =>
        obtain ⟨hlen, hsize⟩ := hcounts
        dsimp only at hlen hsize
        subst hlen hsize
        exact h.setCall hk rfl rfl rfl (by simp) rfl rfl rfl
  · rename_i hneg
    have hlen : length = 0 := by
      rcases hu with hu | hu | hu
      · exact absurd (.inl hu) hneg
      · exact absurd (.inr hu) hneg
      · exact hu
    subst hlen
    cases kind with
    | read => exact h.setCall hk rfl rfl rfl (by simp) rfl rfl rfl
    | write =>
      have hsize : size = 0 := by
        cases r with
        | ok x => exact Eq.symm hcounts
        | error e => exact hcounts.2
      subst hsize
      exact h.setCall hk rfl rfl rfl (by simp) rfl rfl rfl

theorem Kind.eq_or (kind : Kind) : kind = .read ∨ kind = .write := by
  cases kind <;> simp

/-- Between `lock_fh_pos` and the labels at the end. -/
def Pc.Works (pc : Pc) : Prop := pc = .attr ∨ pc = .caps ∨ pc = .transfer ∨ pc = .eof

theorem Inv.goes (h : Inv f) (hk : f.calls c = some k) (hpc : k.pc.Works) {pc : Pc} (hpc' : pc.Works) (n : ℕ)
    (onuninline : Bool) (hw : k.kind = .write → n = 0 ∧ pc ≠ .eof) :
    Inv (commit c (f, { k with pc := pc, length := n, onuninline := onuninline })) := by
  obtain ⟨kind, size, pc₀, offset, length, onuninline', advance⟩ := k
  dsimp only at hpc hw
  have hseek : pc₀ ≠ .seek := by
    rintro rfl
    rcases hpc with hp | hp | hp | hp <;> cases hp
  cases kind with
  | read =>
    obtain rfl | rfl | rfl | rfl := hpc <;> obtain rfl | rfl | rfl | rfl := hpc' <;>
      exact h.setCall hk rfl rfl rfl hseek rfl rfl trivial
  | write =>
    obtain ⟨rfl, hne⟩ := hw rfl
    obtain rfl | rfl | rfl | rfl := hpc <;> obtain rfl | rfl | rfl | rfl := hpc' <;>
      first | exact absurd rfl hne | exact h.setCall hk rfl rfl rfl hseek rfl rfl rfl

/-- A call that works has the lock if it is a read. -/
theorem holds_of_works (hkind : k.kind = .read) (hpc : k.pc.Works) : k.holds = true := by
  obtain ⟨kind, size, pc, offset, length, onuninline, advance⟩ := k
  dsimp only at hkind hpc
  subst hkind
  obtain rfl | rfl | rfl | rfl := hpc <;> rfl

theorem length_of_works (h : k.Counts) (hkind : k.kind = .write) (hpc : k.pc.Works) :
    k.length = 0 ∧ k.pc ≠ .eof := by
  obtain ⟨kind, size, pc, offset, length, onuninline, advance⟩ := k
  dsimp only at hkind hpc
  subst hkind
  obtain rfl | rfl | rfl | rfl := hpc
  · exact ⟨h, by simp⟩
  · exact ⟨h, by simp⟩
  · exact ⟨h, by simp⟩
  · exact h.elim

theorem setPos_self (f : Fh) (k : Call) : f.setPos k f.pos = (f, k) := by
  simp [Fh.setPos]

theorem Inv.attr (h : Inv f) (hk : f.calls c = some k) {r : ℤ} {inSize : ℕ} (hs : Smooth f k (.attr r inSize))
    {p : Fh × Call} (hp : f.answer k (.attr r inSize) = some p) : Inv (commit c p) := by
  have hc := h.call c k hk
  rw [Fh.answer] at hp
  rw [Smooth] at hs
  cases hpc : k.pc with
  | seek =>
    rw [hpc] at hp hs
    have hholds : k.holds = true := by
      rw [Call.holds, hpc]
    have hkind : k.kind = .write := by
      refine k.kind.eq_or.resolve_left fun hkind => ?_
      have hcounts := hc.counts
      rw [Call.Counts, hkind, hpc] at hcounts
      exact hcounts
    have hlen : k.length = 0 := by
      have hcounts := hc.counts
      rw [Call.Counts, hkind, hpc] at hcounts
      exact hcounts
    have hadv : k.advance = 0 := by
      rw [hc.advance, claimed_of_holds hholds]
      rfl
    have hlock : ∀ c', c' ≠ c → f.posLocked ≠ some c' := by
      intro c' hne hl
      exact hne (Option.some.inj (hl.symm.trans (hc.holds.mp hholds)))
    dsimp only at hp
    split at hp
    · cases hp
      exact h.reserve hkind hadv hlen hs.1 hlock
    · rename_i hr
      rw [hs.2.resolve_left hr, setPos_self] at hp
      cases hp
      exact h.reserve hkind hadv hlen hs.1 hlock
  | attr =>
    rw [hpc] at hp hs
    have hworks : k.pc.Works := .inl hpc
    dsimp only at hp
    split at hp
    · rename_i hr
      cases hp
      exact h.fails hk (hs hr) (.inl hpc) r
    · cases hp
      exact h.goes hk hworks (.inr (.inl rfl)) k.length k.onuninline fun hkind =>
        ⟨(length_of_works hc.counts hkind hworks).1, by simp⟩
  | eof =>
    rw [hpc] at hp hs
    have hworks : k.pc.Works := .inr (.inr (.inr hpc))
    have hkind : k.kind = .read :=
      k.kind.eq_or.resolve_right fun hkind => absurd hpc (length_of_works hc.counts hkind hworks).2
    dsimp only at hp
    rw [if_neg (not_lt.mpr hs.1)] at hp
    split at hp
    · cases hp
      exact h.goes hk hworks (.inr (.inl rfl)) k.length k.onuninline fun hw => by
        rw [hkind] at hw
        cases hw
    · rename_i hsize
      cases hp
      exact h.success_read hk hkind (holds_of_works hkind hworks) (by simp [hpc]) (hs.2 (not_lt.mp hsize))
  | lock | caps | transfer | uninline r' | returned r' =>
    rw [hpc] at hp
    cases hp

theorem answer_inv (h : Inv f) (hk : f.calls c = some k) (hs : Smooth f k a) {p : Fh × Call}
    (hp : f.answer k a = some p) : Inv (commit c p) := by
  have hc := h.call c k hk
  cases a with
  | known =>
    rw [Fh.answer] at hp
    split at hp
    · rename_i hpc
      cases hp
      exact h.goes hk (.inl hpc) (.inr (.inl rfl)) k.length k.onuninline fun hkind =>
        ⟨(length_of_works hc.counts hkind (.inl hpc)).1, by simp⟩
    · cases hp
  | attr r inSize => exact h.attr hk hs hp
  | caps r =>
    rw [Fh.answer] at hp
    split at hp
    · rename_i hpc
      split at hp
      · rename_i hr
        cases hp
        exact h.fails hk (hs hr) (.inr hpc) r
      · cases hp
        exact h.goes hk (.inr (.inl hpc)) (.inr (.inr (.inl rfl))) k.length false fun hkind =>
          ⟨(length_of_works hc.counts hkind (.inr (.inl hpc))).1, by simp⟩
    · cases hp
  | inlined n =>
    rw [Fh.answer] at hp
    split at hp
    · rename_i hpc
      have hworks : k.pc.Works := .inr (.inr (.inl hpc))
      cases hp
      rcases k.kind.eq_or with hkind | hkind
      · exact h.success_read hk hkind (holds_of_works hkind hworks) (by simp [hpc]) (hs hkind)
      · exact h.success_write hk hkind hpc (k.length + n) k.onuninline
    · cases hp
  | data onuninline r checkeof =>
    rw [Fh.answer] at hp
    split at hp
    · rename_i hpc
      have hworks : k.pc.Works := .inr (.inr (.inl hpc))
      cases r with
      | error e =>
        cases hp
        exact h.fails_done hk hs hpc onuninline e
      | ok n =>
        rcases k.kind.eq_or with hkind | hkind
        · simp only [hkind] at hp
          split at hp
          · cases hp
            have := h.goes hk hworks (.inr (.inr (.inr rfl))) (k.length + n) onuninline fun hw => by
              rw [hkind] at hw
              cases hw
            rw [hkind] at this
            exact this
          · rename_i hcheck
            cases hp
            have := h.success_read (n := k.length + n) (b := onuninline) hk hkind (holds_of_works hkind hworks)
              (by simp [hpc]) (hs hkind (Bool.eq_false_iff.mpr hcheck))
            rw [hkind] at this
            exact this
        · simp only [hkind] at hp
          cases hp
          have := h.success_write hk hkind hpc k.length onuninline
          rw [hkind] at this
          exact this
    · cases hp
  | uninlined u =>
    rw [Fh.answer] at hp
    split at hp
    · rename_i r hpc
      cases hp
      exact h.uninlined hk hpc hs
    · cases hp

theorem step_inv {a : Action} (h : Inv f) (hs : Goes f a) (hstep : step f a = some f') : Inv f' := by
  cases a with
  | read c size =>
    rw [step] at hstep
    split at hstep
    · cases hstep
    · rename_i hnew
      cases hstep
      exact h.lockFhPos (Option.not_isSome_iff_eq_none.mp hnew) .read size
  | write c size check =>
    rw [step] at hstep
    split at hstep
    · cases hstep
    · rename_i hnew
      rw [Option.not_isSome_iff_eq_none] at hnew
      split at hstep
      · cases hstep
        have hnot : f.posLocked ≠ some c := by
          intro hl
          have := h.holder c hl
          rw [hnew] at this
          cases this
        refine h.update rfl ⟨?_, rfl, fun _ => Nat.zero_le _, ?_, rfl⟩ le_rfl (.inl rfl) (fun _ _ => Iff.rfl) h.free
          (.inl rfl)
        · exact iff_of_false Bool.false_ne_true hnot
        · intro hh
          cases hh
      · cases hstep
        exact h.lockFhPos hnew .write size
  | wake c =>
    rw [step, Option.bind_eq_some_iff] at hstep
    obtain ⟨k, hk, hstep⟩ := hstep
    split at hstep
    · rename_i w ws hpc hws
      split at hstep
      · cases hstep
        exact h
      · -- A waiter is there only while the lock is held.
        rename_i hfree
        simp only [not_or, Bool.not_eq_true, Option.isSome_eq_false_iff, Option.isNone_iff_eq_none] at hfree
        rw [h.free hfree.1] at hws
        cases hws
    · cases hstep
  | answer c a =>
    rw [step, Option.bind_eq_some_iff] at hstep
    obtain ⟨k, hk, hstep⟩ := hstep
    obtain ⟨p, hp, rfl⟩ := Option.map_eq_some_iff.mp hstep
    exact answer_inv h hk (hs k hk) hp

/-- In a run without failures, in which no call waits when another gives the lock up. -/
theorem run_sound {append : Bool} {pos : ℕ} {as : List Action} (hok : Meets step Goes (Fh.opened append pos) as)
    (h : run step (Fh.opened append pos) as = some f) : Sound f :=
  (run_invariant_of (fun _ _ _ hi hs hstep => step_inv hi hs hstep) (inv_opened append pos) hok h).sound

/-- A read of four bytes, and then a write of three. -/
theorem run_sound_two : ∃ f, run step (Fh.opened false 0)
      [.read 0 4, .answer 0 .known, .answer 0 (.caps 0), .answer 0 (.data false (.ok 4) false),
        .write 1 3 0, .answer 1 (.attr 0 4), .answer 1 (.caps 0), .answer 1 (.data false (.ok 3) false)] = some f ∧
    Sound f ∧ f.pos = 7 := by
  have h : run step (Fh.opened false 0)
    [.read 0 4, .answer 0 .known, .answer 0 (.caps 0), .answer 0 (.data false (.ok 4) false),
      .write 1 3 0, .answer 1 (.attr 0 4), .answer 1 (.caps 0), .answer 1 (.data false (.ok 3) false)] = some _ := rfl
  exact ⟨_, h, run_sound (by decide) h, rfl⟩

/-- A read that fails keeps the lock, a write that fails has moved the position, and a write that
waits for a read is not signalled. -/
theorem not_run_sound :
    (∃ f, run step (Fh.opened false 0) [.read 0 4, .answer 0 (.attr (-5) 0)] = some f ∧ ¬Sound f) ∧
    (∃ f, run step (Fh.opened false 0) [.write 0 4 0, .answer 0 .known, .answer 0 (.caps (-5))] = some f ∧
      ¬Sound f) ∧
    ∃ f, run step (Fh.opened false 0)
      [.read 0 4, .write 1 4 0, .answer 0 .known, .answer 0 (.caps 0), .answer 0 (.data false (.ok 4) false)] = some f ∧
      ¬Sound f := by
  refine ⟨⟨_, rfl, fun h => ?_⟩, ⟨_, rfl, fun h => ?_⟩, ⟨_, rfl, fun h => ?_⟩⟩
  · exact h.released 0 _ _ rfl rfl rfl
  · exact absurd (h.failed 0 _ _ rfl rfl) (by decide)
  · exact absurd (h.signalled rfl ⟨1, false⟩ rfl) (by decide)

end CephMds.FhPos
