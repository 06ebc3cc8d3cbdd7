import CephMds.Model.Freeze

/-!
# What a fragment holds on its inode

`Accounted n f d`: with what the calls of `d` add to them, the counters of its
inode that started at `n` and `f` are 1 or 0, as the state of `d` demands, and
so are the pins for `auth_pins` and for the frozen state. Every function keeps
it. Where `maybe_finish_freeze` does something, `auth_pins` is 1, so a caller
has no call of its own left to make, and its count taken before stays good.
-/

namespace CephMds.Freeze

open Checked Waiting

variable {ν κ : Type}

/-- What the fragment should count for among the nested auth pins of its inode. -/
def CDir.nests (d : CDir ν κ) : ℤ := if d.isSubtreeRoot = false ∧ 0 < d.getCumAuthPins then 1 else 0

/-- What the fragment should hold of the auth pins of its inode. -/
def CDir.holds (d : CDir ν κ) : ℤ :=
  if (d.frozenTree ∨ d.frozenDir) ∧ d.isAuth ∧ d.isSubtreeRoot = false then 1 else 0

def CDir.nestedCalls (d : CDir ν κ) : ℤ := (d.calls.map InodeCall.nested).sum

def CDir.pinCalls (d : CDir ν κ) : ℤ := (d.calls.map InodeCall.pins).sum

structure Accounted (n f : ℤ) (d : CDir ν κ) : Prop where
  nested : n + d.nestedCalls = d.nests
  pins : f + d.pinCalls = d.holds
  authpin : d.pinAuthpin = if 0 < d.authPins then 1 else 0
  frozen : d.pinFrozen = d.frozenTree.toNat + d.frozenDir.toNat
  nonneg : 0 ≤ d.authPins ∧ 0 ≤ d.nestedAuthPins ∧ 0 ≤ d.dirAuthPins
  exclusive : d.freezingTree.toNat + d.frozenTree.toNat + d.freezingDir.toNat + d.frozenDir.toNat ≤ 1

variable {n f : ℤ} {d d' : CDir ν κ} {e : Surroundings} {who : Holder}

@[simp] theorem nestedCalls_call (c : InodeCall) : (d.call c).nestedCalls = d.nestedCalls + c.nested := by
  simp [CDir.nestedCalls, CDir.call]

@[simp] theorem pinCalls_call (c : InodeCall) : (d.call c).pinCalls = d.pinCalls + c.pins := by
  simp [CDir.pinCalls, CDir.call]

@[simp] theorem nests_call (c : InodeCall) : (d.call c).nests = d.nests := rfl

@[simp] theorem holds_call (c : InodeCall) : (d.call c).holds = d.holds := rfl

theorem finishWaiting_ok {mask : UInt64} (h : d.finishWaiting mask = .ok d') :
    ∃ w, d' = { d with waiters := w } := by
  rw [CDir.finishWaiting, bind_ok] at h
  obtain ⟨w, -, hw⟩ := h
  exact ⟨w, (pure_ok.mp hw).symm⟩

theorem Accounted.finishWaiting (hd : Accounted n f d) {mask : UInt64} (h : d.finishWaiting mask = .ok d') :
    Accounted n f d' := by
  obtain ⟨w, rfl⟩ := finishWaiting_ok h
  exact ⟨hd.nested, hd.pins, hd.authpin, hd.frozen, hd.nonneg, hd.exclusive⟩

/-- A waiter on the inode is none of its auth pins. -/
theorem Accounted.addWaiter (hd : Accounted n f d) : Accounted n f (d.call .addWaiter) := by
  refine ⟨?_, ?_, hd.authpin, hd.frozen, hd.nonneg, hd.exclusive⟩
  · rw [nestedCalls_call]
    simpa [InodeCall.nested] using hd.nested
  · rw [pinCalls_call]
    simpa [InodeCall.pins] using hd.pins

/-- `auth_pin` without its call on the inode. -/
def CDir.pinned (d : CDir ν κ) (who : Holder) : CDir ν κ := { d with
  authPins := d.authPins + 1
  authPinSet := who :: d.authPinSet
  pinAuthpin := if d.authPins = 0 then d.pinAuthpin + 1 else d.pinAuthpin }

theorem authPin_eq : d.authPin who =
    if !d.isSubtreeRoot && d.getCumAuthPins = 0 then (d.pinned who).call (.adjustNestedAuthPins 1)
    else d.pinned who := by
  have hcum : (d.pinned who).getCumAuthPins = 1 ↔ d.getCumAuthPins = 0 := by
    simp only [CDir.getCumAuthPins, CDir.pinned]
    omega
  have hroot : (d.pinned who).isSubtreeRoot = d.isSubtreeRoot := rfl
  have hd : d.authPin who = if !(d.pinned who).isSubtreeRoot && (d.pinned who).getCumAuthPins = 1 then
      (d.pinned who).call (.adjustNestedAuthPins 1) else d.pinned who := by
    simp only [CDir.authPin, CDir.pinned]
    split <;> rfl
  rw [hd, hroot]
  simp only [hcum]

theorem Accounted.authPin (hd : Accounted n f d) : Accounted n f (d.authPin who) := by
  obtain ⟨hn, hf, ha, hz, hnn, hx⟩ := hd
  have hn' : (d.pinned who).nestedCalls = d.nestedCalls := rfl
  have hf' : (d.pinned who).pinCalls = d.pinCalls := rfl
  rw [authPin_eq]
  split
  · constructor
    · rw [nestedCalls_call, hn']
      grind [CDir.nests, CDir.getCumAuthPins, CDir.pinned, CDir.call, CDir.isSubtreeRoot, InodeCall.nested]
    · rw [pinCalls_call, hf']
      grind [CDir.holds, CDir.pinned, CDir.call, CDir.isSubtreeRoot, InodeCall.pins]
    all_goals grind [CDir.pinned, CDir.call]
  · constructor
    · rw [hn']
      grind [CDir.nests, CDir.getCumAuthPins, CDir.pinned, CDir.isSubtreeRoot]
    · rw [hf']
      grind [CDir.holds, CDir.pinned, CDir.isSubtreeRoot]
    all_goals grind [CDir.pinned]

/-- `auth_unpin` up to its call of `maybe_finish_freeze`. -/
def CDir.unpinned (d : CDir ν κ) (who : Holder) : CDir ν κ := { d with
  authPins := d.authPins - 1
  authPinSet := d.authPinSet.erase who
  pinAuthpin := if d.authPins = 1 then d.pinAuthpin - 1 else d.pinAuthpin }

theorem dropAuthPin_ok (h : d.dropAuthPin who = .ok d') : 1 ≤ d.authPins ∧ d' = d.unpinned who := by
  simp only [CDir.dropAuthPin, CDir.putAuthpin, bind_ok, assert_ok, pure_ok, ite_ok, decide_eq_true_eq] at h
  obtain ⟨d₁, hd₁, -, hle, rfl⟩ := h
  rcases hd₁ with ⟨h0, -, hp, rfl⟩ | ⟨h0, rfl⟩
  · refine ⟨by simpa using hle, ?_⟩
    simp only [CDir.unpinned]
    rw [if_pos (by omega)]
  · refine ⟨by simpa using hle, ?_⟩
    simp only [CDir.unpinned]
    rw [if_neg (by omega)]

/-- A fragment that is unpinned and not freed thereby counts as before. -/
theorem Accounted.unpinned (hd : Accounted n f d) (h1 : 1 ≤ d.authPins)
    (hc : (d.unpinned who).getCumAuthPins ≠ 0) : Accounted n f (d.unpinned who) := by
  obtain ⟨hn, hf, ha, hz, hnn, hx⟩ := hd
  have hn' : (d.unpinned who).nestedCalls = d.nestedCalls := rfl
  have hf' : (d.unpinned who).pinCalls = d.pinCalls := rfl
  constructor
  · rw [hn']
    grind [CDir.nests, CDir.getCumAuthPins, CDir.unpinned, CDir.isSubtreeRoot]
  · rw [hf']
    grind [CDir.holds, CDir.unpinned, CDir.isSubtreeRoot]
  all_goals grind [CDir.unpinned]

/-- One that is freed tells its inode, unless it is a subtree root. -/
theorem Accounted.unpinned_last (hd : Accounted n f d) (h1 : 1 ≤ d.authPins)
    (hc : (d.unpinned who).getCumAuthPins = 0) :
    Accounted n f (if !(d.unpinned who).isSubtreeRoot then
      (d.unpinned who).call (.adjustNestedAuthPins (-1)) else d.unpinned who) := by
  obtain ⟨hn, hf, ha, hz, hnn, hx⟩ := hd
  have hn' : (d.unpinned who).nestedCalls = d.nestedCalls := rfl
  have hf' : (d.unpinned who).pinCalls = d.pinCalls := rfl
  split
  · constructor
    · rw [nestedCalls_call, hn']
      grind [CDir.nests, CDir.getCumAuthPins, CDir.unpinned, CDir.call, CDir.isSubtreeRoot, InodeCall.nested]
    · rw [pinCalls_call, hf']
      grind [CDir.holds, CDir.unpinned, CDir.call, CDir.isSubtreeRoot, InodeCall.pins]
    all_goals grind [CDir.unpinned, CDir.call]
  · constructor
    · rw [hn']
      grind [CDir.nests, CDir.unpinned, CDir.isSubtreeRoot]
    · rw [hf']
      grind [CDir.holds, CDir.unpinned, CDir.isSubtreeRoot]
    all_goals grind [CDir.unpinned]

/-! ## Freezing -/

theorem Accounted.doFreezeDir (hd : Accounted n f d)
    (hx : d.freezingTree = false ∧ d.frozenTree = false ∧ d.frozenDir = false) :
    Accounted n f d.doFreezeDir := by
  obtain ⟨hn, hf, ha, hz, hnn, -⟩ := hd
  rw [CDir.doFreezeDir]
  split
  · constructor
    · rw [nestedCalls_call]
      grind [CDir.nests, CDir.nestedCalls, CDir.getCumAuthPins, CDir.call, CDir.isSubtreeRoot, InodeCall.nested]
    · rw [pinCalls_call]
      grind [CDir.holds, CDir.pinCalls, CDir.call, CDir.isSubtreeRoot, InodeCall.pins]
    all_goals grind [CDir.call]
  · constructor
    · grind [CDir.nests, CDir.nestedCalls, CDir.getCumAuthPins, CDir.isSubtreeRoot]
    · grind [CDir.holds, CDir.pinCalls, CDir.isSubtreeRoot]
    all_goals grind

theorem Accounted.doFreezeTree (hd : Accounted n f d)
    (hx : d.freezingDir = false ∧ d.frozenTree = false ∧ d.frozenDir = false)
    (h : d.doFreezeTree e = .ok d') : Accounted n f d' := by
  obtain ⟨hn, hf, ha, hz, hnn, -⟩ := hd
  simp only [CDir.doFreezeTree, bind_ok, assert_ok, pure_ok] at h
  obtain ⟨-, -, rfl⟩ := h
  split
  · constructor
    · rw [nestedCalls_call]
      grind [CDir.nests, CDir.nestedCalls, CDir.getCumAuthPins, CDir.call, CDir.isSubtreeRoot, InodeCall.nested]
    · rw [pinCalls_call]
      grind [CDir.holds, CDir.pinCalls, CDir.call, CDir.isSubtreeRoot, InodeCall.pins]
    all_goals grind [CDir.call]
  · constructor
    · grind [CDir.nests, CDir.nestedCalls, CDir.getCumAuthPins, CDir.isSubtreeRoot]
    · grind [CDir.holds, CDir.pinCalls, CDir.isSubtreeRoot]
    all_goals grind

theorem Accounted.finishFreezingDir {unpin : CDir ν κ → Checked (CDir ν κ)}
    (hu : ∀ x x', Accounted n f x → unpin x = .ok x' → Accounted n f x') (hd : Accounted n f d)
    (h : d.finishFreezingDir unpin = .ok d') : Accounted n f d' := by
  rw [CDir.finishFreezingDir] at h
  split at h
  · rename_i hfd
    obtain ⟨d₁, h₁, h₂⟩ := bind_ok.mp h
    have hx := hd.exclusive
    exact (hu _ _ (hd.doFreezeDir (by grind)) h₁).finishWaiting h₂
  · cases h
    exact hd

theorem Accounted.finishFreezingTree {unpin : CDir ν κ → Checked (CDir ν κ)}
    (hu : ∀ x x', Accounted n f x → unpin x = .ok x' → Accounted n f x') (hd : Accounted n f d)
    (h : d.finishFreezingTree e unpin = .ok d') : Accounted n f d' := by
  rw [CDir.finishFreezingTree] at h
  split at h
  · rename_i hft
    split at h
    · cases h
      exact hd.authPin.addWaiter
    · obtain ⟨d₁, h₁, h⟩ := bind_ok.mp h
      obtain ⟨d₂, h₂, h₃⟩ := bind_ok.mp h
      have hx := hd.exclusive
      exact (hu _ _ (hd.doFreezeTree (by grind) h₁) h₂).finishWaiting h₃
  · cases h
    exact hd

theorem Accounted.maybeFinishFreeze {unpin : CDir ν κ → Checked (CDir ν κ)}
    (hu : ∀ x x', Accounted n f x → unpin x = .ok x' → Accounted n f x') (hd : Accounted n f d)
    (h : d.maybeFinishFreeze e unpin = .ok d') : Accounted n f d' := by
  rw [CDir.maybeFinishFreeze] at h
  split at h
  · cases h
    exact hd
  · obtain ⟨d₁, h₁, h₂⟩ := bind_ok.mp h
    have hd₁ := hd.finishFreezingDir hu h₁
    split at h₂
    · cases h₂
      exact hd₁
    · exact hd₁.finishFreezingTree hu h₂

theorem maybeFinishFreeze_of_ne {unpin : CDir ν κ → Checked (CDir ν κ)} (h1 : d.authPins ≠ 1) :
    d.maybeFinishFreeze e unpin = .ok d := by
  rw [CDir.maybeFinishFreeze, if_pos (.inl h1)]
  rfl

theorem Accounted.authUnpinNested (fuel : ℕ) (hd : Accounted n f d)
    (h : d.authUnpinNested e fuel who = .ok d') : Accounted n f d' := by
  induction fuel generalizing d d' who with
  | zero => cases h
  | succ fuel ih =>
    rw [CDir.authUnpinNested, bind_ok] at h
    obtain ⟨d₁, hdrop, h⟩ := h
    obtain ⟨h1, rfl⟩ := dropAuthPin_ok hdrop
    obtain ⟨d₂, hfin, h⟩ := bind_ok.mp h
    rw [pure_ok] at h
    by_cases hc : (d.unpinned who).getCumAuthPins = 0
    · -- No pin is left, so nothing is finished.
      have h0 : (d.unpinned who).authPins ≠ 1 := by
        have := hd.nonneg
        simp only [CDir.getCumAuthPins, CDir.unpinned] at hc ⊢
        omega
      rw [maybeFinishFreeze_of_ne h0, Except.ok.injEq] at hfin
      subst hfin h
      simpa [hc] using hd.unpinned_last h1 hc
    · have hd₂ := (hd.unpinned h1 hc).maybeFinishFreeze (fun x x' hx hx' => ih hx hx') hfin
      subst h
      simpa [hc] using hd₂

theorem Accounted.authUnpin (hd : Accounted n f d) (h : d.authUnpin e who = .ok d') :
    Accounted n f d' := hd.authUnpinNested 2 h

/-- `adjust_nested_auth_pins` up to its call of `maybe_finish_freeze`. -/
def CDir.adjusted (d : CDir ν κ) (inc dirinc : ℤ) : CDir ν κ := { d with
  nestedAuthPins := d.nestedAuthPins + inc
  dirAuthPins := d.dirAuthPins + dirinc }

section Adjust

variable {inc dirinc : ℤ}

/-- The call of `adjust_nested_auth_pins` on the inode, for the count before. -/
def CDir.adjustCall (d : CDir ν κ) (newcum inc : ℤ) : CDir ν κ :=
  if !d.isSubtreeRoot then
    if newcum = 0 then d.call (.adjustNestedAuthPins (-1))
    else if newcum = inc then d.call (.adjustNestedAuthPins 1)
    else d
  else d

theorem adjustNestedAuthPins_ok (h : d.adjustNestedAuthPins e inc dirinc = .ok d') :
    inc ≠ 0 ∧ 0 ≤ d.nestedAuthPins + inc ∧ 0 ≤ d.dirAuthPins + dirinc ∧
      ∃ d₁, (d.adjusted inc dirinc).maybeFinishFreeze e (fun x => x.authUnpin e .self) = .ok d₁ ∧
        d' = d₁.adjustCall (d.getCumAuthPins + inc) inc := by
  simp only [CDir.adjustNestedAuthPins, bind_ok, assert_ok, pure_ok, decide_eq_true_eq] at h
  obtain ⟨-, h0, -, h1, -, h2, d₁, hd₁, rfl⟩ := h
  refine ⟨h0, h1, h2, d₁, hd₁, ?_⟩
  have hcum : d.getCumAuthPins + inc = d.authPins + (d.nestedAuthPins + inc) := by
    simp only [CDir.getCumAuthPins]
    omega
  rw [CDir.adjustCall, hcum]
  rfl

/-- Where `maybe_finish_freeze` may do something, the counts on the inode stay. -/
theorem Accounted.adjusted (hd : Accounted n f d) (h1 : 0 ≤ d.nestedAuthPins + inc)
    (h2 : 0 ≤ d.dirAuthPins + dirinc) (hc : d.getCumAuthPins ≠ 0) (hc' : d.getCumAuthPins + inc ≠ 0) :
    Accounted n f (d.adjusted inc dirinc) := by
  obtain ⟨hn, hf, ha, hz, hnn, hx⟩ := hd
  have hn' : (d.adjusted inc dirinc).nestedCalls = d.nestedCalls := rfl
  refine ⟨?_, hf, ha, hz, ⟨hnn.1, h1, h2⟩, hx⟩
  rw [hn']
  grind [CDir.nests, CDir.getCumAuthPins, CDir.adjusted, CDir.isSubtreeRoot]

theorem Accounted.adjusted_call (hd : Accounted n f d) (h0 : inc ≠ 0) (h1 : 0 ≤ d.nestedAuthPins + inc)
    (h2 : 0 ≤ d.dirAuthPins + dirinc) (hc : d.getCumAuthPins = 0 ∨ d.getCumAuthPins + inc = 0) :
    Accounted n f ((d.adjusted inc dirinc).adjustCall (d.getCumAuthPins + inc) inc) := by
  obtain ⟨hn, hf, ha, hz, hnn, hx⟩ := hd
  have hn' : (d.adjusted inc dirinc).nestedCalls = d.nestedCalls := rfl
  have hf' : (d.adjusted inc dirinc).pinCalls = d.pinCalls := rfl
  rw [CDir.adjustCall]
  split
  · split
    · constructor
      · rw [nestedCalls_call, hn']
        grind [CDir.nests, CDir.getCumAuthPins, CDir.adjusted, CDir.call, CDir.isSubtreeRoot, InodeCall.nested]
      · rw [pinCalls_call, hf']
        grind [CDir.holds, CDir.adjusted, CDir.call, CDir.isSubtreeRoot, InodeCall.pins]
      all_goals grind [CDir.adjusted, CDir.call]
    · split
      · constructor
        · rw [nestedCalls_call, hn']
          grind [CDir.nests, CDir.getCumAuthPins, CDir.adjusted, CDir.call, CDir.isSubtreeRoot, InodeCall.nested]
        · rw [pinCalls_call, hf']
          grind [CDir.holds, CDir.adjusted, CDir.call, CDir.isSubtreeRoot, InodeCall.pins]
        all_goals grind [CDir.adjusted, CDir.call]
      · omega
  · refine ⟨?_, hf, ha, hz, ⟨hnn.1, h1, h2⟩, hx⟩
    rw [hn']
    grind [CDir.nests, CDir.adjusted, CDir.isSubtreeRoot]

theorem adjustCall_of_ne {newcum : ℤ} (h0 : newcum ≠ 0) (h1 : newcum ≠ inc) : d.adjustCall newcum inc = d := by
  simp [CDir.adjustCall, h0, h1]

theorem Accounted.adjustNestedAuthPins (hd : Accounted n f d)
    (h : d.adjustNestedAuthPins e inc dirinc = .ok d') : Accounted n f d' := by
  obtain ⟨h0, h1, h2, d₁, hfin, rfl⟩ := adjustNestedAuthPins_ok h
  have hnn := hd.nonneg
  have hcum : d.getCumAuthPins = d.authPins + d.nestedAuthPins := rfl
  by_cases hc : d.getCumAuthPins = 0 ∨ d.getCumAuthPins + inc = 0
  · -- `auth_pins` is 0, so nothing is finished.
    rw [maybeFinishFreeze_of_ne (show (d.adjusted inc dirinc).authPins ≠ 1 by
      show d.authPins ≠ 1
      omega), Except.ok.injEq] at hfin
    subst hfin
    exact hd.adjusted_call h0 h1 h2 hc
  · rw [not_or] at hc
    have hd₁ := (hd.adjusted h1 h2 hc.1 hc.2).maybeFinishFreeze (fun x x' hx hx' => hx.authUnpin hx') hfin
    rwa [adjustCall_of_ne hc.2 (by omega)]

end Adjust

theorem authPin_flags (d : CDir ν κ) (who : Holder) : (d.authPin who).freezingTree = d.freezingTree ∧
    (d.authPin who).frozenTree = d.frozenTree ∧ (d.authPin who).freezingDir = d.freezingDir ∧
    (d.authPin who).frozenDir = d.frozenDir := by
  rw [authPin_eq]
  split <;> exact ⟨rfl, rfl, rfl, rfl⟩

/-- A fragment that may begin to freeze has none of the flags. -/
theorem flags_of_not (hfz : d.isFrozen e = false) (hfg : d.isFreezing e = false) :
    d.freezingTree = false ∧ d.frozenTree = false ∧ d.freezingDir = false ∧ d.frozenDir = false := by
  simp only [CDir.isFrozen, CDir.isFrozenTree, CDir.isFreezing, CDir.isFreezingTree,
    Bool.or_eq_false_iff] at hfz hfg
  exact ⟨hfg.1.1, hfz.2.1, hfg.2, hfz.1⟩

theorem Accounted.freezeTree (hd : Accounted n f d) (h : d.freezeTree e = .ok d') : Accounted n f d' := by
  simp only [CDir.freezeTree, bind_ok, assert_ok, Bool.not_eq_true'] at h
  obtain ⟨-, hfz, -, hfg, h⟩ := h
  have hflags := flags_of_not hfz hfg
  have hd₁ : Accounted n f (d.authPin .self) := hd.authPin
  obtain ⟨e₁, e₂, e₃, e₄⟩ := authPin_flags d .self
  rw [← e₁, ← e₂, ← e₃, ← e₄] at hflags
  split at h
  · obtain ⟨d₂, h₂, h₃⟩ := bind_ok.mp h
    exact (hd₁.doFreezeTree ⟨hflags.2.2.1, hflags.2.1, hflags.2.2.2⟩ h₂).authUnpin h₃
  · rw [pure_ok] at h
    subst h
    refine ⟨hd₁.nested, hd₁.pins, hd₁.authpin, hd₁.frozen, hd₁.nonneg, ?_⟩
    simp [hflags.2.1, hflags.2.2.1, hflags.2.2.2]

theorem Accounted.freezeDir (hd : Accounted n f d) (h : d.freezeDir e = .ok d') : Accounted n f d' := by
  simp only [CDir.freezeDir, bind_ok, assert_ok, Bool.not_eq_true'] at h
  obtain ⟨-, hfz, -, hfg, h⟩ := h
  have hflags := flags_of_not hfz hfg
  have hd₁ : Accounted n f (d.authPin .self) := hd.authPin
  obtain ⟨e₁, e₂, e₃, e₄⟩ := authPin_flags d .self
  rw [← e₁, ← e₂, ← e₃, ← e₄] at hflags
  split at h
  · exact (hd₁.doFreezeDir ⟨hflags.1, hflags.2.1, hflags.2.2.2⟩).authUnpin h
  · rw [pure_ok] at h
    subst h
    refine ⟨hd₁.nested, hd₁.pins, hd₁.authpin, hd₁.frozen, hd₁.nonneg, ?_⟩
    simp [hflags.1, hflags.2.1, hflags.2.2.2]

/-- A frozen fragment `d` that unfreezes to `d₁`, whose flags are clear. -/
theorem Accounted.putFrozen {d₁ : CDir ν κ} (hd : Accounted n f d) (hz : d.frozenTree ∨ d.frozenDir)
    (hd₁ : d₁ = { d with frozenTree := false, frozenDir := false }) (h : d₁.putFrozen = .ok d') :
    Accounted n f d' := by
  subst hd₁
  obtain ⟨hn, hf, ha, hz', hnn, hx⟩ := hd
  simp only [CDir.putFrozen, bind_ok, assert_ok, pure_ok, decide_eq_true_eq] at h
  obtain ⟨-, hpos, rfl⟩ := h
  split
  · constructor
    · rw [nestedCalls_call]
      grind [CDir.nests, CDir.nestedCalls, CDir.getCumAuthPins, CDir.call, CDir.isSubtreeRoot, InodeCall.nested]
    · rw [pinCalls_call]
      grind [CDir.holds, CDir.pinCalls, CDir.call, CDir.isSubtreeRoot, InodeCall.pins]
    all_goals grind [CDir.call]
  · constructor
    · grind [CDir.nests, CDir.nestedCalls, CDir.getCumAuthPins, CDir.isSubtreeRoot]
    · grind [CDir.holds, CDir.pinCalls, CDir.isSubtreeRoot]
    all_goals grind

theorem Accounted.unfreezeTree (hd : Accounted n f d) (h : d.unfreezeTree e = .ok d') : Accounted n f d' := by
  have hx := hd.exclusive
  rw [CDir.unfreezeTree] at h
  split at h
  · rename_i hz
    obtain ⟨d₁, h₁, h₂⟩ := bind_ok.mp h
    have hdir : d.frozenDir = false := by grind
    exact (hd.putFrozen (.inl hz) (by rw [← hdir]) h₁).finishWaiting h₂
  · obtain ⟨d₁, h₁, h⟩ := bind_ok.mp h
    obtain ⟨w, rfl⟩ := finishWaiting_ok h₁
    simp only [bind_ok, assert_ok] at h
    obtain ⟨-, hft, d₂, h₂, h₃⟩ := h
    have hstop : Accounted n f { d with waiters := w, freezingTree := false } := by
      refine ⟨hd.nested, hd.pins, hd.authpin, hd.frozen, hd.nonneg, ?_⟩
      grind
    exact (hstop.authUnpin h₂).finishWaiting h₃

theorem Accounted.unfreezeDir (hd : Accounted n f d) (h : d.unfreezeDir e = .ok d') : Accounted n f d' := by
  have hx := hd.exclusive
  rw [CDir.unfreezeDir] at h
  split at h
  · rename_i hz
    obtain ⟨d₁, h₁, h₂⟩ := bind_ok.mp h
    have htree : d.frozenTree = false := by grind
    exact (hd.putFrozen (.inr hz) (by rw [← htree]) h₁).finishWaiting h₂
  · obtain ⟨d₁, h₁, h⟩ := bind_ok.mp h
    obtain ⟨w, rfl⟩ := finishWaiting_ok h₁
    simp only [bind_ok, assert_ok] at h
    obtain ⟨-, hfd, d₂, h₂, h₃⟩ := h
    have hstop : Accounted n f { d with waiters := w, freezingDir := false } := by
      refine ⟨hd.nested, hd.pins, hd.authpin, hd.frozen, hd.nonneg, ?_⟩
      grind
    exact (hstop.authUnpin h₂).finishWaiting h₃

/-! ## Authority -/

/-- What a fragment that becomes or ceases to be a subtree root passes on to
its inode: `k` for its nested auth pins, and `c` if it is frozen. -/
def CDir.transfer (d : CDir ν κ) (e : Surroundings) (k : ℤ) (c : InodeCall) : CDir ν κ :=
  let d := if d.getCumAuthPins ≠ 0 then d.call (.adjustNestedAuthPins k) else d
  if e.inodeIsAuth && (d.frozenTree || d.frozenDir) then d.call c else d

theorem transfer_eq (k : ℤ) (c : InodeCall) : ∃ cs, d.transfer e k c = { d with calls := cs } ∧
    (cs.map InodeCall.nested).sum = d.nestedCalls + (if d.getCumAuthPins ≠ 0 then k else 0) +
      (if e.inodeIsAuth && (d.frozenTree || d.frozenDir) then c.nested else 0) ∧
    (cs.map InodeCall.pins).sum =
      d.pinCalls + (if e.inodeIsAuth && (d.frozenTree || d.frozenDir) then c.pins else 0) := by
  have hn (x : CDir ν κ) (c : InodeCall) : ((x.calls ++ [c]).map InodeCall.nested).sum = x.nestedCalls + c.nested :=
    nestedCalls_call c
  have hp (x : CDir ν κ) (c : InodeCall) : ((x.calls ++ [c]).map InodeCall.pins).sum = x.pinCalls + c.pins :=
    pinCalls_call c
  by_cases hc : d.getCumAuthPins ≠ 0 <;>
    by_cases hz : (e.inodeIsAuth && (d.frozenTree || d.frozenDir)) = true
  · refine ⟨(d.call (.adjustNestedAuthPins k)).calls ++ [c], ?_, ?_, ?_⟩
    · simp only [CDir.transfer, if_pos hc]
      exact if_pos hz
    · rw [if_pos hc, if_pos hz, hn, nestedCalls_call]
      rfl
    · rw [if_pos hz, hp, pinCalls_call]
      simp [InodeCall.pins]
  · refine ⟨d.calls ++ [.adjustNestedAuthPins k], ?_, ?_, ?_⟩
    · simp only [CDir.transfer, if_pos hc]
      exact if_neg hz
    · rw [if_pos hc, if_neg hz, hn, add_zero]
      rfl
    · rw [if_neg hz, hp]
      rfl
  · refine ⟨d.calls ++ [c], ?_, ?_, ?_⟩
    · simp only [CDir.transfer, if_neg hc]
      exact if_pos hz
    · rw [if_neg hc, if_pos hz, hn, add_zero]
    · rw [if_pos hz, hp]
  · refine ⟨d.calls, ?_, ?_, ?_⟩
    · simp only [CDir.transfer, if_neg hc]
      exact if_neg hz
    · rw [if_neg hc, if_neg hz, add_zero, add_zero]
      rfl
    · rw [if_neg hz, add_zero]
      rfl

/-- A fragment that becomes a subtree root releases what it holds on its inode. -/
theorem Accounted.becomeRoot {a : Auth} (hd : Accounted n f d) (hr : d.isSubtreeRoot = false)
    (hr' : CDir.isSubtreeRoot { d with dirAuth := a } = true) (ha : d.isAuth = e.inodeIsAuth) :
    Accounted n f (CDir.becomeRoot e { d with dirAuth := a }) := by
  obtain ⟨hn, hf, hp, hz, hnn, hx⟩ := hd
  obtain ⟨cs, heq, hcn, hcp⟩ :=
    transfer_eq (d := { d with dirAuth := a }) (e := e) (-1) .authUnpin
  have hb : CDir.becomeRoot e { d with dirAuth := a } = { d with dirAuth := a, calls := cs } := heq
  rw [hb]
  refine ⟨?_, ?_, hp, hz, hnn, hx⟩
  · show n + (cs.map InodeCall.nested).sum = _
    have hnc : CDir.nestedCalls { d with dirAuth := a } = d.nestedCalls := rfl
    rw [hcn, hnc]
    grind [CDir.nests, CDir.getCumAuthPins, CDir.isSubtreeRoot, InodeCall.nested]
  · show f + (cs.map InodeCall.pins).sum = _
    have hpc : CDir.pinCalls { d with dirAuth := a } = d.pinCalls := rfl
    rw [hcp, hpc]
    grind [CDir.holds, CDir.isSubtreeRoot, InodeCall.pins]

/-- One that ceases to be a subtree root takes it again. -/
theorem Accounted.ceaseRoot {a : Auth} (hd : Accounted n f d) (hr : d.isSubtreeRoot = true)
    (hr' : CDir.isSubtreeRoot { d with dirAuth := a } = false) (ha : d.isAuth = e.inodeIsAuth) :
    Accounted n f (CDir.ceaseRoot e { d with dirAuth := a }) := by
  obtain ⟨hn, hf, hp, hz, hnn, hx⟩ := hd
  obtain ⟨cs, heq, hcn, hcp⟩ :=
    transfer_eq (d := { d with dirAuth := a }) (e := e) 1 .authPin
  have hb : CDir.ceaseRoot e { d with dirAuth := a } = { d with dirAuth := a, calls := cs } := heq
  rw [hb]
  refine ⟨?_, ?_, hp, hz, hnn, hx⟩
  · show n + (cs.map InodeCall.nested).sum = _
    have hnc : CDir.nestedCalls { d with dirAuth := a } = d.nestedCalls := rfl
    rw [hcn, hnc]
    grind [CDir.nests, CDir.getCumAuthPins, CDir.isSubtreeRoot, InodeCall.nested]
  · show f + (cs.map InodeCall.pins).sum = _
    have hpc : CDir.pinCalls { d with dirAuth := a } = d.pinCalls := rfl
    rw [hcp, hpc]
    grind [CDir.holds, CDir.isSubtreeRoot, InodeCall.pins]

/-- As long as it is one, or is not one, it holds what it did. -/
theorem Accounted.withDirAuth {a : Auth} (hd : Accounted n f d)
    (hr : CDir.isSubtreeRoot { d with dirAuth := a } = d.isSubtreeRoot) :
    Accounted n f { d with dirAuth := a } := by
  refine ⟨?_, ?_, hd.authpin, hd.frozen, hd.nonneg, hd.exclusive⟩
  · rw [CDir.nests, hr]
    exact hd.nested
  · rw [CDir.holds, hr]
    exact hd.pins

/-- `set_dir_auth` up to the waiters for a single authority. -/
def CDir.withAuthority (d : CDir ν κ) (e : Surroundings) (a : Auth) : CDir ν κ :=
  if !d.isSubtreeRoot && CDir.isSubtreeRoot { d with dirAuth := a } then
    CDir.becomeRoot e { d with dirAuth := a }
  else if d.isSubtreeRoot && !CDir.isSubtreeRoot { d with dirAuth := a } then
    CDir.ceaseRoot e { d with dirAuth := a }
  else { d with dirAuth := a }

@[simp] theorem becomeRoot_auth (x : CDir ν κ) :
    (x.becomeRoot e).dirAuth = x.dirAuth ∧ (x.becomeRoot e).isAuth = x.isAuth := by
  rw [CDir.becomeRoot]
  split <;> split <;> exact ⟨rfl, rfl⟩

@[simp] theorem ceaseRoot_auth (x : CDir ν κ) :
    (x.ceaseRoot e).dirAuth = x.dirAuth ∧ (x.ceaseRoot e).isAuth = x.isAuth := by
  rw [CDir.ceaseRoot]
  split <;> split <;> exact ⟨rfl, rfl⟩

theorem withAuthority_auth {a : Auth} :
    (d.withAuthority e a).dirAuth = a ∧ (d.withAuthority e a).isAuth = d.isAuth := by
  rw [CDir.withAuthority]
  split
  · simp
  · split <;> simp

theorem setDirAuth_eq {a : Auth} : d.setDirAuth e a =
    if decide (0 ≤ d.dirAuth.second) && a.second = cdirAuthUnknown then
      (d.withAuthority e a).finishWaiting waitSingleauth
    else pure (d.withAuthority e a) := by
  have hr : CDir.isSubtreeRoot { d with dirAuth := a } = (a != cdirAuthDefault) := rfl
  rw [CDir.setDirAuth, CDir.withAuthority, hr]
  cases hd : d.isSubtreeRoot <;> cases ha : a != cdirAuthDefault <;>
    simp [CDir.isSubtreeRoot, ha]

theorem Accounted.withAuthority {a : Auth} (hd : Accounted n f d)
    (ha : d.isSubtreeRoot = false ∨ CDir.isSubtreeRoot { d with dirAuth := a } = false →
      d.isAuth = e.inodeIsAuth) : Accounted n f (d.withAuthority e a) := by
  rw [CDir.withAuthority]
  split
  · rename_i h
    simp only [Bool.and_eq_true, Bool.not_eq_true'] at h
    exact hd.becomeRoot h.1 h.2 (ha (.inl h.1))
  · split
    · rename_i h
      simp only [Bool.and_eq_true, Bool.not_eq_true'] at h
      exact hd.ceaseRoot h.1 h.2 (ha (.inr h.2))
    · rename_i h₁ h₂
      apply hd.withDirAuth
      cases hr : d.isSubtreeRoot <;> cases hr' : CDir.isSubtreeRoot { d with dirAuth := a } <;> simp_all

theorem Accounted.setDirAuth {a : Auth} (hd : Accounted n f d)
    (ha : d.isSubtreeRoot = false → d.isAuth = e.inodeIsAuth)
    (ha' : d'.isSubtreeRoot = false → d'.isAuth = e.inodeIsAuth)
    (h : d.setDirAuth e a = .ok d') : Accounted n f d' := by
  obtain ⟨hw, hauth, hdir⟩ : (Accounted n f (d.withAuthority e a) → Accounted n f d') ∧
      d'.isAuth = (d.withAuthority e a).isAuth ∧ d'.dirAuth = (d.withAuthority e a).dirAuth := by
    rw [setDirAuth_eq] at h
    split at h
    · obtain ⟨w, rfl⟩ := finishWaiting_ok h
      exact ⟨fun hx => hx.finishWaiting h, rfl, rfl⟩
    · cases h
      exact ⟨id, rfl, rfl⟩
  apply hw
  apply hd.withAuthority
  rintro (hr | hr)
  · exact ha hr
  · rw [withAuthority_auth.2] at hauth
    rw [withAuthority_auth.1] at hdir
    rw [← hauth]
    apply ha'
    rw [CDir.isSubtreeRoot, hdir]
    exact hr

/-! ## Runs -/

theorem Accounted.perform {op : Op} (hd : Accounted n f d)
    (ha : d.isSubtreeRoot = false → d.isAuth = e.inodeIsAuth)
    (ha' : d'.isSubtreeRoot = false → d'.isAuth = op.inodeIsAuth e.inodeIsAuth)
    (h : op.perform e d = .ok d') : Accounted n f d' := by
  cases op with
  | authPin who =>
    cases h
    exact hd.authPin
  | authUnpin who => exact hd.authUnpin h
  | adjustNestedAuthPins inc dirinc => exact hd.adjustNestedAuthPins h
  | freezeTree => exact hd.freezeTree h
  | unfreezeTree => exact hd.unfreezeTree h
  | freezeDir => exact hd.freezeDir h
  | unfreezeDir => exact hd.unfreezeDir h
  | setDirAuth a => exact hd.setDirAuth ha ha' h
  | setAuth auth i =>
    simp only [Op.perform, bind_ok, assert_ok, pure_ok] at h
    obtain ⟨-, hr, rfl⟩ := h
    refine ⟨hd.nested, ?_, hd.authpin, hd.frozen, hd.nonneg, hd.exclusive⟩
    have hf := hd.pins
    grind [CDir.holds, CDir.pinCalls, CDir.isSubtreeRoot]

/-- Once the calls have reached the inode. -/
theorem Accounted.flushed (hd : Accounted n f d) :
    Accounted (n + d.nestedCalls) (f + d.pinCalls) { d with calls := [] } := by
  refine ⟨?_, ?_, hd.authpin, hd.frozen, hd.nonneg, hd.exclusive⟩
  · exact (add_zero _).trans hd.nested
  · exact (add_zero _).trans hd.pins

/-- In every run of the operations on a fragment: it counts once among the
nested auth pins of its inode iff it is not a subtree root and has auth pins or
nested ones, it holds one auth pin on its inode iff it is frozen, auth and not a
subtree root, and the pins for its auth pins and its frozen state are held. -/
theorem run_accounted {auth : Bool} {as : List (Op × Surroundings)} {s : Frag ν κ}
    (h : run Frag.step (.new auth) as = some s) :
    s.inodeNestedAuthPins =
      (if s.dir.isSubtreeRoot = false ∧ 0 < s.dir.authPins + s.dir.nestedAuthPins then 1 else 0) ∧
    s.inodeAuthPins =
      (if (s.dir.frozenTree ∨ s.dir.frozenDir) ∧ s.dir.isAuth ∧ s.dir.isSubtreeRoot = false then 1 else 0) ∧
    s.dir.pinAuthpin = (if 0 < s.dir.authPins then 1 else 0) ∧
    s.dir.pinFrozen = s.dir.frozenTree.toNat + s.dir.frozenDir.toNat := by
  obtain ⟨hs, hcalls⟩ : Accounted s.inodeNestedAuthPins s.inodeAuthPins s.dir ∧ s.dir.calls = [] := by
    refine run_invariant (P := fun s : Frag ν κ =>
      Accounted s.inodeNestedAuthPins s.inodeAuthPins s.dir ∧ s.dir.calls = []) ?_ ?_ h
    · intro s a s' hs hst
      rw [Frag.step] at hst
      split at hst
      · cases hst
      · rename_i d hd
        split at hst
        · rename_i hauth
          cases hst
          exact ⟨(hs.1.perform s.authority hauth hd).flushed, rfl⟩
        · cases hst
    · exact ⟨⟨rfl, rfl, rfl, rfl, ⟨le_refl _, le_refl _, le_refl _⟩, Nat.zero_le _⟩, rfl⟩
  have hn : s.dir.nestedCalls = 0 := by rw [CDir.nestedCalls, hcalls]; rfl
  have hp : s.dir.pinCalls = 0 := by rw [CDir.pinCalls, hcalls]; rfl
  refine ⟨?_, ?_, hs.authpin, hs.frozen⟩
  · have := hs.nested
    rw [hn, add_zero] at this
    exact this
  · have := hs.pins
    rw [hp, add_zero] at this
    exact this

/-- What a fragment reads around it where nothing is frozen. -/
def calm : Surroundings := ⟨true, false, false, false, false⟩

/-- A freeze that the last foreign pin completes, across a change of the authority and back. -/
theorem run_accounted_freeze :
    ∃ s : Frag ℕ ℕ, run Frag.step (.new true) [(.authPin (.other 1), calm), (.freezeTree, calm),
        (.setDirAuth ⟨0, cdirAuthUnknown⟩, calm), (.authUnpin (.other 1), calm),
        (.setDirAuth cdirAuthDefault, calm)] = some s ∧
      s.dir.frozenTree = true ∧ s.inodeAuthPins = 1 ∧ s.inodeNestedAuthPins = 0 ∧ s.dir.pinFrozen = 1 := by
  let as : List (Op × Surroundings) := [(.authPin (.other 1), calm), (.freezeTree, calm),
    (.setDirAuth ⟨0, cdirAuthUnknown⟩, calm), (.authUnpin (.other 1), calm),
    (.setDirAuth cdirAuthDefault, calm)]
  have hrun : ∃ s : Frag ℕ ℕ, run Frag.step (.new true) as = some s ∧
      s.dir.isAuth = true ∧ s.dir.isSubtreeRoot = false ∧ s.dir.frozenTree = true ∧
      s.dir.frozenDir = false ∧ s.dir.authPins + s.dir.nestedAuthPins = 0 :=
    ⟨_, rfl, rfl, rfl, rfl, rfl, rfl⟩
  obtain ⟨s, hs, ha, hr, hz, hz', hc⟩ := hrun
  obtain ⟨hn, hp, -, hf⟩ := run_accounted hs
  refine ⟨s, hs, hz, ?_, ?_, ?_⟩
  · rw [hp, if_pos ⟨.inl hz, ha, hr⟩]
  · rw [hn, if_neg (by omega)]
  · rw [hf, hz, hz']
    rfl

end CephMds.Freeze
