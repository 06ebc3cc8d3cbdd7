import CephMds.Model.FreezeTree
import CephMds.Proof.Freeze.Accounting
import CephMds.Proof.Waiting

/-!
# A fragment freezes only without pins

`Tracked k n f d`: besides the accounts, the holders of the auth pins are
known, `k` of the fragment's own pins beside the one of a freeze under way, a
frozen fragment has no other pins, and the calls on the inode come in an order
that it can follow (`Orderly`). `Kept` is what every function leaves as it
was. Each function returns, keeps both, and so the assertion of `_freeze_tree`
holds wherever it is called.
-/

namespace CephMds.Freeze

open Checked Waiting

variable {ν κ : Type} {n f : ℤ}

/-! ## The order of the calls -/

/-- No call takes from the inode what is not there, none adds to it while the
fragment counts for nothing, and each that counts changes the sum. -/
def Admissible (n f : ℤ) : List InodeCall → Prop
  | [] => True
  | c :: cs => 0 ≤ n + c.nested ∧ 0 ≤ f + c.pins ∧ (c = .addWaiter ∨ c.inc ≠ 0) ∧ (0 < c.inc → 0 < n + f) ∧
      Admissible (n + c.nested) (f + c.pins) cs

theorem admissible_concat {cs : List InodeCall} {c : InodeCall} :
    Admissible n f (cs ++ [c]) ↔ Admissible n f cs ∧ 0 ≤ n + (cs.map InodeCall.nested).sum + c.nested ∧
      0 ≤ f + (cs.map InodeCall.pins).sum + c.pins ∧ (c = .addWaiter ∨ c.inc ≠ 0) ∧
      (0 < c.inc → 0 < n + (cs.map InodeCall.nested).sum + (f + (cs.map InodeCall.pins).sum)) := by
  induction cs generalizing n f with
  | nil => simp [Admissible]
  | cons a cs ih =>
    simp only [List.cons_append, Admissible, ih, List.map_cons, List.sum_cons, add_assoc]
    tauto

/-- The same, but the first call of a fragment that is not a subtree root may
be that it begins to count. -/
def Orderly (root : Bool) (n f : ℤ) (calls : List InodeCall) : Prop :=
  Admissible n f calls ∨ root = false ∧
    ∃ cs, calls = .adjustNestedAuthPins 1 :: cs ∧ n = 0 ∧ 0 ≤ f ∧ Admissible 1 f cs

theorem Orderly.concat {root : Bool} {cs : List InodeCall} {c : InodeCall} (h : Orderly root n f cs)
    (hn : 0 ≤ n + (cs.map InodeCall.nested).sum + c.nested)
    (hf : 0 ≤ f + (cs.map InodeCall.pins).sum + c.pins) (h0 : c = .addWaiter ∨ c.inc ≠ 0)
    (hc : 0 < c.inc → 0 < n + (cs.map InodeCall.nested).sum + (f + (cs.map InodeCall.pins).sum)) :
    Orderly root n f (cs ++ [c]) := by
  rcases h with h | ⟨hr, cs, rfl, rfl, hf', h⟩
  · exact .inl (admissible_concat.mpr ⟨h, hn, hf, h0, hc⟩)
  · refine .inr ⟨hr, cs ++ [c], rfl, rfl, hf', admissible_concat.mpr ⟨h, ?_, ?_, h0, ?_⟩⟩
    all_goals
      simp only [List.map_cons, List.sum_cons, InodeCall.nested, InodeCall.pins] at hn hf hc ⊢
      omega

/-! ## What is kept -/

section Kept

variable [LinearOrder ν]

structure Kept (d d' : CDir ν κ) : Prop where
  isAuth : d'.isAuth = d.isAuth
  dirAuth : d'.dirAuth = d.dirAuth
  nested : d'.nestedAuthPins = d.nestedAuthPins
  dirPins : d'.dirAuthPins = d.dirAuthPins
  waiters : Waiters.Conserves d.waiters d'.waiters
  /-- A fragment that stops freezing or unfreezes leaves nobody waiting for it. -/
  flagged : d.flagged = true → d'.flagged = true ∨ ∀ p ∈ d'.waiters.waiting, meets p.1 waitUnfreeze = false
  frozenDir : d'.frozenDir = true → d.frozenDir = true ∨ d'.dirAuthPins = 0

omit [LinearOrder ν] in
theorem Kept.refl (d : CDir ν κ) : Kept d d :=
  ⟨rfl, rfl, rfl, rfl, .refl _, .inl, .inl⟩

omit [LinearOrder ν] in
theorem Kept.trans {d₁ d₂ d₃ : CDir ν κ} (h : Kept d₁ d₂) (h' : Kept d₂ d₃) : Kept d₁ d₃ where
  isAuth := h'.isAuth.trans h.isAuth
  dirAuth := h'.dirAuth.trans h.dirAuth
  nested := h'.nested.trans h.nested
  dirPins := h'.dirPins.trans h.dirPins
  waiters := h.waiters.trans h'.waiters
  flagged hf := by
    rcases h.flagged hf with hf | hf
    · exact h'.flagged hf
    · exact .inr fun p hp => hf p (h'.waiters.waiting.subset hp)
  frozenDir hz := by
    rcases h'.frozenDir hz with hz | hz
    · rcases h.frozenDir hz with hz | hz
      · exact .inl hz
      · exact .inr (h'.dirPins.trans hz)
    · exact .inr hz

end Kept

section

variable [LinearOrder ν] {k : ℕ} {d d' : CDir ν κ} {e : Surroundings} {who : Holder}

structure Tracked (k : ℕ) (n f : ℤ) (d : CDir ν κ) : Prop extends Accounted n f d where
  orderly : Orderly d.isSubtreeRoot n f d.calls
  counted : d.authPins = d.authPinSet.length
  own : d.authPinSet.count .self = (d.freezingTree || d.freezingDir).toNat + k
  frozenPins : (d.frozenTree || d.frozenDir) = true → d.authPins = k
  frozenNested : d.frozenTree = true → d.nestedAuthPins = 0
  pinned : d.waiters.Pinned

theorem Tracked.finishWaiting (hd : Tracked k n f d) (mask : UInt64) :
    ∃ w, d.finishWaiting mask = .ok { d with waiters := w } ∧ Tracked k n f { d with waiters := w } ∧
      Waiters.Conserves d.waiters w ∧ w.waiting = d.waiters.waiting.filter (fun p => !meets p.1 mask) := by
  obtain ⟨w, hw, hp, hwait, -⟩ := Waiters.takeWaiting_eq hd.pinned mask
  refine ⟨w, ?_, ?_, .of_takeWaiting hd.pinned hw, hwait⟩
  · rw [CDir.finishWaiting, bind_ok]
    exact ⟨w, hw, rfl⟩
  · exact { hd with pinned := hp }

/-- Of the flags of a fragment at most one is set. -/
theorem flags_of_exclusive {a b c d : Bool} (h : a.toNat + b.toNat + c.toNat + d.toNat ≤ 1) :
    (a = true → b = false ∧ c = false ∧ d = false) ∧ (b = true → a = false ∧ c = false ∧ d = false) ∧
    (c = true → a = false ∧ b = false ∧ d = false) ∧ (d = true → a = false ∧ b = false ∧ c = false) := by
  revert a b c d
  decide

/-! ## Pins -/

/-- One for the fragment's own pin. -/
def Holder.slot (who : Holder) : ℕ := if who = .self then 1 else 0

theorem Tracked.authPin (hd : Tracked k n f d) (who : Holder) (hz : (d.frozenTree || d.frozenDir) = false)
    (hc : d.calls = [] ∨ d.getCumAuthPins ≠ 0) :
    Tracked (k + who.slot) n f (d.authPin who) ∧ Kept d (d.authPin who) := by
  have hacc : Accounted n f (d.authPin who) := hd.toAccounted.authPin
  have hn := hd.nested
  have hf := hd.pins
  have hset : (who :: d.authPinSet).count .self = d.authPinSet.count .self + who.slot := by
    rw [List.count_cons, Holder.slot]
    simp
  have hlen : d.authPins + 1 = ((who :: d.authPinSet).length : ℤ) := by
    rw [List.length_cons, hd.counted]
    rfl
  rw [authPin_eq] at hacc ⊢
  split at hacc
  · rename_i hcond
    simp only [Bool.and_eq_true, Bool.not_eq_true', decide_eq_true_eq] at hcond
    have hnil : d.calls = [] := hc.resolve_right (not_not.mpr hcond.2)
    have hn0 : n = 0 := by
      rw [CDir.nestedCalls, hnil, CDir.nests, if_neg (by omega)] at hn
      simpa using hn
    have hf0 : 0 ≤ f := by
      rw [CDir.pinCalls, hnil, CDir.holds] at hf
      simp only [List.map_nil, List.sum_nil, add_zero] at hf
      rw [hf]
      split <;> decide
    rw [if_pos (by simp [hcond.1, hcond.2])]
    refine ⟨⟨hacc, ?_, hlen, ?_, ?_, hd.frozenNested, hd.pinned⟩, ⟨rfl, rfl, rfl, rfl, .refl _, .inl, .inl⟩⟩
    · refine .inr ⟨hcond.1, [], ?_, hn0, hf0, trivial⟩
      show d.calls ++ [_] = _
      rw [hnil]
      rfl
    · exact hset.trans (by rw [hd.own, add_assoc]; rfl)
    · intro h
      exact absurd h (by simpa [CDir.call, CDir.pinned] using hz)
  · rename_i hcond
    rw [if_neg hcond]
    refine ⟨⟨hacc, hd.orderly, hlen, ?_, ?_, hd.frozenNested, hd.pinned⟩,
      ⟨rfl, rfl, rfl, rfl, .refl _, .inl, .inl⟩⟩
    · exact hset.trans (by rw [hd.own, add_assoc]; rfl)
    · intro h
      exact absurd h (by simpa [CDir.pinned] using hz)

/-- `auth_unpin` where no freeze is finished. -/
def CDir.released (d : CDir ν κ) (who : Holder) : CDir ν κ :=
  if !(d.unpinned who).isSubtreeRoot && (d.unpinned who).getCumAuthPins = 0 then
    (d.unpinned who).call (.adjustNestedAuthPins (-1))
  else d.unpinned who

theorem Tracked.one_le (hd : Tracked k n f d) (hw : who ∈ d.authPinSet) : 1 ≤ d.authPins := by
  rw [hd.counted]
  have := List.length_pos_of_mem hw
  omega

theorem dropAuthPin_eq (hd : Tracked k n f d) (hw : who ∈ d.authPinSet) :
    d.dropAuthPin who = .ok (d.unpinned who) := by
  have h1 := hd.one_le hw
  have hp : d.pinAuthpin = 1 := by rw [hd.authpin, if_pos (by omega)]
  simp only [CDir.dropAuthPin, bind_ok, assert_ok, pure_ok, decide_eq_true_eq]
  refine ⟨d.unpinned who, ?_, (), ?_, rfl⟩
  · rw [CDir.putAuthpin]
    by_cases h0 : d.authPins = 1
    · simp [CDir.unpinned, h0, hp, assert]
    · have : ¬ d.authPins - 1 = 0 := by omega
      simp [CDir.unpinned, h0, this]
  · show 0 ≤ d.authPins - 1
    omega

theorem Tracked.unpinned_holders (hd : Tracked (k + who.slot) n f d) (hw : who ∈ d.authPinSet) :
    (d.unpinned who).authPins = (d.unpinned who).authPinSet.length ∧
    (d.unpinned who).authPinSet.count .self = (d.freezingTree || d.freezingDir).toNat + k ∧
    ((d.frozenTree || d.frozenDir) = true → (d.unpinned who).authPins = k) := by
  have hpos := List.length_pos_of_mem hw
  have hcount : (d.authPinSet.erase who).count .self = (d.freezingTree || d.freezingDir).toNat + k := by
    have hown := hd.own
    rw [List.count_erase]
    rw [Holder.slot] at hown
    by_cases hs : who = .self
    · simp_all
    · simp_all
  refine ⟨?_, hcount, ?_⟩
  · show d.authPins - 1 = ((d.authPinSet.erase who).length : ℤ)
    rw [List.length_erase_of_mem hw, hd.counted]
    omega
  · intro hz
    show d.authPins - 1 = k
    obtain ⟨-, htree, -, hdir⟩ := flags_of_exclusive hd.exclusive
    have hfg : (d.freezingTree || d.freezingDir).toNat = 0 := by
      rcases Bool.or_eq_true_iff.mp hz with hz | hz
      · simp [htree hz]
      · simp [hdir hz]
    have hpins := hd.frozenPins hz
    rw [hfg, zero_add] at hcount
    have hle : (d.authPinSet.erase who).count .self ≤ (d.authPinSet.erase who).length := List.count_le_length
    rw [List.length_erase_of_mem hw] at hle
    have hc := hd.counted
    have hslot : who.slot ≤ 1 := by
      rw [Holder.slot]
      split <;> omega
    omega

theorem Tracked.released (hd : Tracked (k + who.slot) n f d) (hw : who ∈ d.authPinSet) :
    Tracked k n f (d.released who) ∧ Kept d (d.released who) := by
  have h1 := hd.one_le hw
  obtain ⟨hlen, hown, hz⟩ := hd.unpinned_holders hw
  have hn := hd.nested
  have hf := hd.pins
  rw [CDir.released]
  by_cases hc : (d.unpinned who).getCumAuthPins = 0
  · have hacc := hd.toAccounted.unpinned_last h1 hc
    split
    · rename_i hr
      simp only [Bool.and_eq_true] at hr
      rw [if_pos hr.1] at hacc
      refine ⟨⟨hacc, ?_, hlen, hown, hz, hd.frozenNested, hd.pinned⟩, ⟨rfl, rfl, rfl, rfl, .refl _, .inl, .inl⟩⟩
      have hroot : d.isSubtreeRoot = false := by
        show (d.unpinned who).isSubtreeRoot = false
        simpa using hr.1
      have hcum : 0 < d.getCumAuthPins := by
        have : (d.unpinned who).getCumAuthPins = d.getCumAuthPins - 1 := by
          simp only [CDir.getCumAuthPins, CDir.unpinned]
          omega
        omega
      rw [CDir.nests, if_pos ⟨hroot, hcum⟩] at hn
      have hholds : 0 ≤ d.holds := by
        rw [CDir.holds]
        split <;> decide
      refine hd.orderly.concat ?_ ?_ (by decide) ?_
      · show 0 ≤ n + d.nestedCalls + -1
        omega
      · show 0 ≤ f + d.pinCalls + 0
        omega
      · intro h
        simp [InodeCall.inc, InodeCall.nested, InodeCall.pins] at h
    · rename_i hr
      have hr' : (!(d.unpinned who).isSubtreeRoot) = false := by simpa [hc] using hr
      rw [if_neg (by simp [hr'])] at hacc
      exact ⟨⟨hacc, hd.orderly, hlen, hown, hz, hd.frozenNested, hd.pinned⟩,
        ⟨rfl, rfl, rfl, rfl, .refl _, .inl, .inl⟩⟩
  · rw [if_neg (by simp [hc])]
    exact ⟨⟨hd.toAccounted.unpinned h1 hc, hd.orderly, hlen, hown, hz, hd.frozenNested, hd.pinned⟩,
      ⟨rfl, rfl, rfl, rfl, .refl _, .inl, .inl⟩⟩

omit [LinearOrder ν] in
theorem unpinned_authPins (d : CDir ν κ) (who : Holder) : (d.unpinned who).authPins = d.authPins - 1 := rfl

/-- The last auth pin is released without finishing a freeze. -/
theorem authUnpinNested_last {fuel : ℕ} (hd : Tracked k n f d) (hw : who ∈ d.authPinSet)
    (h1 : d.authPins = 1) : d.authUnpinNested e (fuel + 1) who = .ok (d.released who) := by
  rw [CDir.authUnpinNested, bind_ok]
  refine ⟨_, dropAuthPin_eq hd hw, ?_⟩
  rw [bind_ok]
  refine ⟨_, maybeFinishFreeze_of_ne (by rw [unpinned_authPins]; omega), ?_⟩
  rfl

/-! ## Freezing -/

/-- The fragment's own pin, with no other. -/
structure OnlyOwn (d : CDir ν κ) : Prop where
  pins : d.authPins = 1
  own : d.authPinSet.count .self = 1

omit [LinearOrder ν] in
theorem OnlyOwn.mem (h : OnlyOwn d) : .self ∈ d.authPinSet :=
  List.count_pos_iff.mp (by rw [h.own]; exact one_pos)

theorem Tracked.freezeCall (hd : Tracked k n f d) (h1 : d.authPins = 1) (hr : d.isSubtreeRoot = false) :
    Orderly d.isSubtreeRoot n f (d.calls ++ [.authPin]) := by
  have hn := hd.nested
  have hf := hd.pins
  have hnn := hd.nonneg
  have hcum : 0 < d.getCumAuthPins := by
    rw [CDir.getCumAuthPins]
    omega
  rw [CDir.nests, if_pos ⟨hr, hcum⟩] at hn
  have hholds : 0 ≤ d.holds := by
    rw [CDir.holds]
    split <;> decide
  refine hd.orderly.concat ?_ ?_ (by decide) ?_
  · show 0 ≤ n + d.nestedCalls + 0
    omega
  · show 0 ≤ f + d.pinCalls + 1
    omega
  · intro _
    show 0 < n + d.nestedCalls + (f + d.pinCalls)
    omega

theorem Tracked.doFreezeDir (hd : Tracked k n f d) (ho : OnlyOwn d) (hp : d.dirAuthPins = 0)
    (hx : d.freezingTree = false ∧ d.frozenTree = false ∧ d.frozenDir = false) :
    Tracked 1 n f d.doFreezeDir ∧ Kept d d.doFreezeDir ∧ OnlyOwn d.doFreezeDir ∧
      d.doFreezeDir.freezingTree = false := by
  have hacc := hd.toAccounted.doFreezeDir hx
  rw [CDir.doFreezeDir] at hacc ⊢
  split at hacc
  · rename_i hc
    rw [if_pos hc]
    have hr : d.isSubtreeRoot = false := (Bool.not_eq_true' _).mp (Bool.and_eq_true_iff.mp hc).2
    refine ⟨⟨hacc, hd.freezeCall ho.pins hr, hd.counted, ?_, ?_, ?_, hd.pinned⟩,
      ⟨rfl, rfl, rfl, rfl, .refl _, fun _ => .inl ?_, fun _ => .inr hp⟩, ⟨ho.pins, ho.own⟩, hx.1⟩
    · show d.authPinSet.count .self = (d.freezingTree || false).toNat + 1
      rw [ho.own, hx.1]
      rfl
    · exact fun _ => ho.pins
    · exact fun h => absurd h (by simp [CDir.call, hx.2.1])
    · simp [CDir.flagged, CDir.call]
  · rename_i hc
    rw [if_neg hc]
    refine ⟨⟨hacc, hd.orderly, hd.counted, ?_, ?_, ?_, hd.pinned⟩,
      ⟨rfl, rfl, rfl, rfl, .refl _, fun _ => .inl ?_, fun _ => .inr hp⟩, ⟨ho.pins, ho.own⟩, hx.1⟩
    · show d.authPinSet.count .self = (d.freezingTree || false).toNat + 1
      rw [ho.own, hx.1]
      rfl
    · exact fun _ => ho.pins
    · exact fun h => absurd h (by simp [hx.2.1])
    · simp [CDir.flagged]

/-- The assertion of `_freeze_tree` holds, and so it returns. -/
theorem Tracked.doFreezeTree (hd : Tracked k n f d) (ho : OnlyOwn d) (hnest : d.nestedAuthPins = 0)
    (hi : d.isSubtreeRoot = true ∨ e.inodeIsFrozen = false)
    (hx : d.freezingDir = false ∧ d.frozenTree = false ∧ d.frozenDir = false) :
    ∃ d', d.doFreezeTree e = .ok d' ∧ Tracked 1 n f d' ∧ Kept d d' ∧ OnlyOwn d' := by
  have hfree : d.isFreezeable e = true := by
    rw [CDir.isFreezeable, if_neg (by have := ho.pins; omega), if_neg]
    rcases hi with hi | hi <;> simp [hi]
  have hacc {d'} (h : d.doFreezeTree e = .ok d') : Accounted n f d' := hd.toAccounted.doFreezeTree hx h
  simp only [CDir.doFreezeTree, bind_ok, assert_ok, pure_ok] at hacc ⊢
  refine ⟨_, ⟨(), hfree, rfl⟩, ?_⟩
  have hacc := hacc ⟨(), hfree, rfl⟩
  split at hacc
  · rename_i hc
    rw [if_pos hc]
    have hr : d.isSubtreeRoot = false := (Bool.not_eq_true' _).mp (Bool.and_eq_true_iff.mp hc).2
    refine ⟨⟨hacc, hd.freezeCall ho.pins hr, hd.counted, ?_, ?_, fun _ => hnest, hd.pinned⟩,
      ⟨rfl, rfl, rfl, rfl, .refl _, fun _ => .inl ?_, .inl⟩, ⟨ho.pins, ho.own⟩⟩
    · show d.authPinSet.count .self = (false || d.freezingDir).toNat + 1
      rw [ho.own, hx.1]
      rfl
    · exact fun _ => ho.pins
    · simp [CDir.flagged, CDir.call]
  · rename_i hc
    rw [if_neg hc]
    refine ⟨⟨hacc, hd.orderly, hd.counted, ?_, ?_, fun _ => hnest, hd.pinned⟩,
      ⟨rfl, rfl, rfl, rfl, .refl _, fun _ => .inl ?_, .inl⟩, ⟨ho.pins, ho.own⟩⟩
    · show d.authPinSet.count .self = (false || d.freezingDir).toNat + 1
      rw [ho.own, hx.1]
      rfl
    · exact fun _ => ho.pins
    · simp [CDir.flagged]

omit [LinearOrder ν] in
theorem released_freezingTree : (d.released who).freezingTree = d.freezingTree := by
  rw [CDir.released]
  split <;> rfl

omit [LinearOrder ν] in
theorem Kept.withWaiters {w : Waiters ν κ} (h : Waiters.Conserves d.waiters w) : Kept d { d with waiters := w } :=
  ⟨rfl, rfl, rfl, rfl, h, .inl, .inl⟩

/-- The fragment's own pin is released, and those who wait for the freeze are told. -/
theorem Tracked.finishFreeze {unpin : CDir ν κ → Checked (CDir ν κ)}
    (hu : ∀ x, Tracked 1 n f x → OnlyOwn x → unpin x = .ok (x.released .self))
    (hd : Tracked 1 n f d) (ho : OnlyOwn d) :
    ∃ d', (do
        let d ← unpin d
        d.finishWaiting waitFrozen) = .ok d' ∧ Tracked 0 n f d' ∧ Kept d d' ∧
      d'.freezingTree = d.freezingTree := by
  obtain ⟨hrel, hkept⟩ := Tracked.released (show Tracked (0 + Holder.slot .self) n f d from hd) ho.mem
  obtain ⟨w, hw, ht, hcons, -⟩ := hrel.finishWaiting waitFrozen
  refine ⟨_, bind_ok.mpr ⟨_, hu d hd ho, hw⟩, ht, hkept.trans (.withWaiters hcons), ?_⟩
  exact released_freezingTree

section Finish

variable {unpin : CDir ν κ → Checked (CDir ν κ)}

theorem Tracked.finishFreezingDir
    (hu : ∀ x, Tracked 1 n f x → OnlyOwn x → unpin x = .ok (x.released .self))
    (hd : Tracked 0 n f d) (h1 : d.authPins = 1) (hp : d.dirAuthPins = 0) :
    ∃ d', d.finishFreezingDir unpin = .ok d' ∧ Tracked 0 n f d' ∧ Kept d d' ∧
      (d' = d ∨ d'.freezingTree = false) := by
  rw [CDir.finishFreezingDir]
  split
  · rename_i hfd
    have hflags := (flags_of_exclusive hd.exclusive).2.2.1 hfd
    have ho : OnlyOwn d := ⟨h1, by rw [hd.own, hfd]; simp⟩
    obtain ⟨ht, hk, ho', hft⟩ := hd.doFreezeDir ho hp hflags
    obtain ⟨d', hd', ht', hk', hft'⟩ := ht.finishFreeze hu ho'
    exact ⟨d', hd', ht', hk.trans hk', .inr (hft'.trans hft)⟩
  · exact ⟨d, rfl, hd, .refl d, .inl rfl⟩

theorem Tracked.finishFreezingTree
    (hu : ∀ x, Tracked 1 n f x → OnlyOwn x → unpin x = .ok (x.released .self))
    (hd : Tracked 0 n f d) (h1 : d.freezingTree = true → d.authPins = 1) (hnest : d.nestedAuthPins = 0) :
    ∃ d', d.finishFreezingTree e unpin = .ok d' ∧ Tracked 0 n f d' ∧ Kept d d' := by
  rw [CDir.finishFreezingTree]
  split
  · rename_i hft
    obtain ⟨hzt, hfd, hzd⟩ := (flags_of_exclusive hd.exclusive).1 hft
    have hflags : d.freezingDir = false ∧ d.frozenTree = false ∧ d.frozenDir = false := ⟨hfd, hzt, hzd⟩
    split
    · -- The pin is taken again for the inode.
      have hcum : d.getCumAuthPins ≠ 0 := by
        have := h1 hft
        rw [CDir.getCumAuthPins]
        omega
      obtain ⟨ht, hk⟩ := hd.authPin .inode (by simp [hflags]) (.inr hcum)
      refine ⟨_, rfl, ?_, hk.trans ⟨rfl, rfl, rfl, rfl, .refl _, .inl, .inl⟩⟩
      exact { ht with
        toAccounted := ht.toAccounted.addWaiter
        orderly := ht.orderly.concat
          (by
            show 0 ≤ n + (d.authPin .inode).nestedCalls + 0
            have := ht.nested
            have hnests : 0 ≤ (d.authPin .inode).nests := by
              rw [CDir.nests]
              split <;> decide
            omega)
          (by
            show 0 ≤ f + (d.authPin .inode).pinCalls + 0
            have := ht.pins
            have hholds : 0 ≤ (d.authPin .inode).holds := by
              rw [CDir.holds]
              split <;> decide
            omega)
          (.inl rfl) (fun h => by simp [InodeCall.inc, InodeCall.nested, InodeCall.pins] at h) }
    · rename_i hi
      have ho : OnlyOwn d := ⟨h1 hft, by rw [hd.own, hft]; simp⟩
      have hi' : d.isSubtreeRoot = true ∨ e.inodeIsFrozen = false := by
        revert hi
        cases d.isSubtreeRoot <;> cases e.inodeIsFrozen <;> decide
      obtain ⟨d₁, h₁, ht, hk, ho'⟩ := hd.doFreezeTree ho hnest hi' hflags
      obtain ⟨d', hd', ht', hk', -⟩ := ht.finishFreeze hu ho'
      exact ⟨d', bind_ok.mpr ⟨d₁, h₁, hd'⟩, ht', hk.trans hk'⟩
  · exact ⟨d, rfl, hd, .refl d⟩

theorem Tracked.maybeFinishFreeze
    (hu : ∀ x, Tracked 1 n f x → OnlyOwn x → unpin x = .ok (x.released .self)) (hd : Tracked 0 n f d) :
    ∃ d', d.maybeFinishFreeze e unpin = .ok d' ∧ Tracked 0 n f d' ∧ Kept d d' := by
  rw [CDir.maybeFinishFreeze]
  split
  · exact ⟨d, rfl, hd, .refl d⟩
  · rename_i h
    rw [not_or, not_not, not_not] at h
    obtain ⟨d₁, h₁, ht₁, hk₁, hor⟩ := hd.finishFreezingDir hu h.1 h.2
    by_cases hn : d₁.nestedAuthPins ≠ 0
    · refine ⟨d₁, bind_ok.mpr ⟨d₁, h₁, if_pos hn⟩, ht₁, hk₁⟩
    · have h1 : d₁.freezingTree = true → d₁.authPins = 1 := by
        intro hft
        rcases hor with rfl | hor
        · exact h.1
        · rw [hor] at hft
          cases hft
      obtain ⟨d₂, h₂, ht₂, hk₂⟩ := ht₁.finishFreezingTree hu h1 (not_not.mp hn)
      exact ⟨d₂, bind_ok.mpr ⟨d₁, h₁, (if_neg hn).trans h₂⟩, ht₂, hk₁.trans hk₂⟩

end Finish

theorem unpin_self (fuel : ℕ) (x : CDir ν κ) (hx : Tracked 1 n f x) (ho : OnlyOwn x) :
    x.authUnpinNested e (fuel + 1) .self = .ok (x.released .self) :=
  authUnpinNested_last hx ho.mem ho.pins

theorem Tracked.unpinned (hd : Tracked (k + who.slot) n f d) (hw : who ∈ d.authPinSet)
    (hc : (d.unpinned who).getCumAuthPins ≠ 0) : Tracked k n f (d.unpinned who) ∧ Kept d (d.unpinned who) := by
  have h := hd.released hw
  rwa [CDir.released, if_neg (by simp [hc])] at h

/-- `auth_unpin` by a holder of a pin returns. -/
theorem Tracked.authUnpin (hd : Tracked (0 + who.slot) n f d) (hw : who ∈ d.authPinSet) :
    ∃ d', d.authUnpin e who = .ok d' ∧ Tracked 0 n f d' ∧ Kept d d' := by
  by_cases hc : (d.unpinned who).getCumAuthPins = 0
  · -- No pin is left, so nothing is finished.
    have h1 : d.authPins = 1 := by
      have hnn := hd.nonneg
      have := hd.one_le hw
      simp only [CDir.getCumAuthPins, CDir.unpinned] at hc
      omega
    obtain ⟨ht, hk⟩ := hd.released hw
    exact ⟨_, authUnpinNested_last hd hw h1, ht, hk⟩
  · obtain ⟨ht, hk⟩ := hd.unpinned hw hc
    obtain ⟨d₁, h₁, ht₁, hk₁⟩ := ht.maybeFinishFreeze (e := e) fun x hx ho => unpin_self 0 x hx ho
    refine ⟨d₁, ?_, ht₁, hk.trans hk₁⟩
    rw [CDir.authUnpin, CDir.authUnpinNested, bind_ok]
    refine ⟨_, dropAuthPin_eq hd hw, bind_ok.mpr ⟨d₁, h₁, ?_⟩⟩
    simp [hc]

section Adjust

variable {inc dirinc : ℤ}

omit [LinearOrder ν] in
theorem adjustNestedAuthPins_eq (h0 : inc ≠ 0) (h1 : 0 ≤ d.nestedAuthPins + inc)
    (h2 : 0 ≤ d.dirAuthPins + dirinc)
    (h : (d.adjusted inc dirinc).maybeFinishFreeze e (fun x => x.authUnpin e .self) = .ok d') :
    d.adjustNestedAuthPins e inc dirinc = .ok (d'.adjustCall (d.getCumAuthPins + inc) inc) := by
  have hcum : d.getCumAuthPins + inc = d.authPins + (d.nestedAuthPins + inc) := by
    rw [CDir.getCumAuthPins]
    omega
  simp only [CDir.adjustNestedAuthPins, bind_ok, assert_ok, pure_ok, decide_eq_true_eq]
  refine ⟨(), h0, (), h1, (), h2, d', h, ?_⟩
  rw [CDir.adjustCall, hcum]
  rfl

/-- The call that tells the inode of a change between none and some. -/
theorem Tracked.adjusted_call (hd : Tracked 0 n f d) (h0 : inc ≠ 0) (h1 : 0 ≤ d.nestedAuthPins + inc)
    (h2 : 0 ≤ d.dirAuthPins + dirinc) (hcalls : d.calls = []) (hz : d.frozenTree = false)
    (hc : d.getCumAuthPins = 0 ∨ d.getCumAuthPins + inc = 0) :
    Tracked 0 n f ((d.adjusted inc dirinc).adjustCall (d.getCumAuthPins + inc) inc) ∧
      Kept (d.adjusted inc dirinc) ((d.adjusted inc dirinc).adjustCall (d.getCumAuthPins + inc) inc) := by
  have hacc := hd.toAccounted.adjusted_call h0 h1 h2 hc
  have hn := hd.nested
  have hf := hd.pins
  have hnn := hd.nonneg
  rw [CDir.nestedCalls, hcalls] at hn
  rw [CDir.pinCalls, hcalls] at hf
  simp only [List.map_nil, List.sum_nil, add_zero] at hn hf
  have hcum : d.getCumAuthPins = d.authPins + d.nestedAuthPins := rfl
  have hholds : 0 ≤ f := by
    rw [hf, CDir.holds]
    split <;> decide
  rw [CDir.adjustCall] at hacc ⊢
  by_cases hr : (!(d.adjusted inc dirinc).isSubtreeRoot) = true
  · have hroot : d.isSubtreeRoot = false := (Bool.not_eq_true' _).mp hr
    rw [if_pos hr] at hacc ⊢
    by_cases hc0 : d.getCumAuthPins + inc = 0
    · rw [if_pos hc0] at hacc ⊢
      rw [CDir.nests, if_pos ⟨hroot, by omega⟩] at hn
      refine ⟨⟨hacc, ?_, hd.counted, hd.own, hd.frozenPins, fun h => absurd h (by simp [hz, CDir.call, CDir.adjusted]),
        hd.pinned⟩, ⟨rfl, rfl, rfl, rfl, .refl _, .inl, .inl⟩⟩
      show Orderly d.isSubtreeRoot n f (d.calls ++ [.adjustNestedAuthPins (-1)])
      rw [hcalls]
      refine .inl ⟨?_, ?_, by decide, ?_, trivial⟩
      · show 0 ≤ n + -1
        omega
      · show 0 ≤ f + 0
        omega
      · intro h
        simp [InodeCall.inc, InodeCall.nested, InodeCall.pins] at h
    · have hcz : d.getCumAuthPins = 0 := hc.resolve_right hc0
      rw [if_neg hc0, if_pos (by omega)] at hacc ⊢
      rw [CDir.nests, if_neg (by omega)] at hn
      refine ⟨⟨hacc, ?_, hd.counted, hd.own, hd.frozenPins, fun h => absurd h (by simp [hz, CDir.call, CDir.adjusted]),
        hd.pinned⟩, ⟨rfl, rfl, rfl, rfl, .refl _, .inl, .inl⟩⟩
      show Orderly d.isSubtreeRoot n f (d.calls ++ [.adjustNestedAuthPins 1])
      rw [hcalls]
      exact .inr ⟨hroot, [], rfl, hn, hholds, trivial⟩
  · rw [if_neg hr] at hacc ⊢
    exact ⟨⟨hacc, hd.orderly, hd.counted, hd.own, hd.frozenPins, fun h => absurd h (by simp [hz, CDir.adjusted]),
      hd.pinned⟩, .refl _⟩

/-- Nested pins arrive at a fragment and go, but none arrive at a frozen tree. -/
theorem Tracked.adjustNestedAuthPins (hd : Tracked 0 n f d) (inc dirinc : ℤ) (h0 : inc ≠ 0)
    (h1 : 0 ≤ d.nestedAuthPins + inc) (h2 : 0 ≤ d.dirAuthPins + dirinc) (hcalls : d.calls = [])
    (hz : d.frozenTree = true → inc < 0) :
    ∃ d', d.adjustNestedAuthPins e inc dirinc = .ok d' ∧ Tracked 0 n f d' ∧ Kept (d.adjusted inc dirinc) d' := by
  have hnn := hd.nonneg
  have hcum : d.getCumAuthPins = d.authPins + d.nestedAuthPins := rfl
  have hft : d.frozenTree = false := by
    by_contra h
    rw [Bool.not_eq_false] at h
    have := hd.frozenNested h
    have := hz h
    omega
  by_cases hc : d.getCumAuthPins = 0 ∨ d.getCumAuthPins + inc = 0
  · have hfin : (d.adjusted inc dirinc).maybeFinishFreeze e (fun x => x.authUnpin e .self) =
        .ok (d.adjusted inc dirinc) := by
      apply maybeFinishFreeze_of_ne
      show d.authPins ≠ 1
      omega
    obtain ⟨ht, hk⟩ := hd.adjusted_call h0 h1 h2 hcalls hft hc
    exact ⟨_, adjustNestedAuthPins_eq h0 h1 h2 hfin, ht, hk⟩
  · rw [not_or] at hc
    have ht : Tracked 0 n f (d.adjusted inc dirinc) :=
      ⟨hd.toAccounted.adjusted h1 h2 hc.1 hc.2, hd.orderly, hd.counted, hd.own, hd.frozenPins,
        fun h => absurd h (by simp [hft, CDir.adjusted]), hd.pinned⟩
    obtain ⟨d₁, h₁, ht₁, hk₁⟩ := ht.maybeFinishFreeze (e := e) fun x hx ho => unpin_self 1 x hx ho
    refine ⟨_, adjustNestedAuthPins_eq h0 h1 h2 h₁, ?_⟩
    rw [adjustCall_of_ne hc.2 (by omega)]
    exact ⟨ht₁, hk₁⟩

end Adjust

/-! ## Freezing and unfreezing -/

/-- The fragment has taken its own pin and none of the flags is set. -/
theorem Tracked.beginFreeze (hd : Tracked 0 n f d) (hcalls : d.calls = []) (hfz : d.isFrozen e = false)
    (hfg : d.isFreezing e = false) :
    Tracked 1 n f (d.authPin .self) ∧ Kept d (d.authPin .self) ∧
    (d.authPin .self).freezingTree = false ∧ (d.authPin .self).frozenTree = false ∧
    (d.authPin .self).freezingDir = false ∧ (d.authPin .self).frozenDir = false := by
  obtain ⟨hft, hzt, hfd, hzd⟩ := flags_of_not hfz hfg
  obtain ⟨e₁, e₂, e₃, e₄⟩ := authPin_flags d .self
  obtain ⟨ht, hk⟩ := hd.authPin .self (by simp [hzt, hzd]) (.inl hcalls)
  exact ⟨ht, hk, e₁.trans hft, e₂.trans hzt, e₃.trans hfd, e₄.trans hzd⟩

theorem Tracked.onlyOwn (hd : Tracked 1 n f d) (h1 : ¬ d.authPins - 1 > 0)
    (hflags : d.freezingTree = false ∧ d.freezingDir = false) : OnlyOwn d := by
  have hown : d.authPinSet.count .self = 1 := by
    rw [hd.own, hflags.1, hflags.2]
    rfl
  refine ⟨?_, hown⟩
  have hle : d.authPinSet.count .self ≤ d.authPinSet.length := List.count_le_length
  have := hd.counted
  omega

theorem Tracked.freezeTree (hd : Tracked 0 n f d) (hcalls : d.calls = []) (hfz : d.isFrozen e = false)
    (hfg : d.isFreezing e = false) : ∃ d', d.freezeTree e = .ok d' ∧ Tracked 0 n f d' ∧ Kept d d' := by
  obtain ⟨ht, hk, hft, hzt, hfd, hzd⟩ := hd.beginFreeze hcalls hfz hfg
  simp only [CDir.freezeTree, bind_ok, assert_ok, Bool.not_eq_true']
  by_cases hfree : (d.authPin .self).isFreezeable e = true
  · have hfree' := hfree
    rw [CDir.isFreezeable] at hfree'
    split at hfree'
    · cases hfree'
    · rename_i hpins
      rw [not_or] at hpins
      split at hfree'
      · cases hfree'
      · rename_i hi
        have hi' : (d.authPin .self).isSubtreeRoot = true ∨ e.inodeIsFrozen = false := by
          revert hi
          cases (d.authPin .self).isSubtreeRoot <;> cases e.inodeIsFrozen <;> decide
        have hnn := ht.nonneg
        have ho := ht.onlyOwn hpins.1 ⟨hft, hfd⟩
        obtain ⟨d₁, h₁, ht₁, hk₁, ho₁⟩ := ht.doFreezeTree ho (by omega) hi' ⟨hfd, hzt, hzd⟩
        obtain ⟨d₂, h₂, ht₂, hk₂⟩ := Tracked.authUnpin (e := e)
          (show Tracked (0 + Holder.slot .self) n f d₁ from ht₁) ho₁.mem
        exact ⟨d₂, ⟨(), hfz, (), hfg, by rw [if_pos hfree, bind_ok]; exact ⟨d₁, h₁, h₂⟩⟩, ht₂,
          (hk.trans hk₁).trans hk₂⟩
  · refine ⟨_, ⟨(), hfz, (), hfg, if_neg hfree⟩, ?_, hk.trans ⟨rfl, rfl, rfl, rfl, .refl _, ?_, .inl⟩⟩
    · refine { ht with own := ?_, exclusive := ?_, frozenPins := ?_ }
      · simp [hzt, hfd, hzd]
      · refine ht.own.trans ?_
        rw [hft, hfd]
        rfl
      · intro h
        simp only [hzt, hzd] at h
        cases h
    · exact fun _ => .inl (by simp [CDir.flagged])

theorem Tracked.freezeDir (hd : Tracked 0 n f d) (hcalls : d.calls = []) (hfz : d.isFrozen e = false)
    (hfg : d.isFreezing e = false) : ∃ d', d.freezeDir e = .ok d' ∧ Tracked 0 n f d' ∧ Kept d d' := by
  obtain ⟨ht, hk, hft, hzt, hfd, hzd⟩ := hd.beginFreeze hcalls hfz hfg
  simp only [CDir.freezeDir, bind_ok, assert_ok, Bool.not_eq_true']
  by_cases hfree : (d.authPin .self).isFreezeableDir e = true
  · have hfree' := hfree
    rw [CDir.isFreezeableDir] at hfree'
    split at hfree'
    · cases hfree'
    · rename_i hpins
      rw [not_or] at hpins
      have hnn := ht.nonneg
      have ho := ht.onlyOwn hpins.1 ⟨hft, hfd⟩
      obtain ⟨ht₁, hk₁, ho₁, -⟩ := ht.doFreezeDir ho (by omega) ⟨hft, hzt, hzd⟩
      obtain ⟨d₂, h₂, ht₂, hk₂⟩ := Tracked.authUnpin (e := e)
        (show Tracked (0 + Holder.slot .self) n f _ from ht₁) ho₁.mem
      exact ⟨d₂, ⟨(), hfz, (), hfg, (if_pos hfree).trans h₂⟩, ht₂, (hk.trans hk₁).trans hk₂⟩
  · refine ⟨_, ⟨(), hfz, (), hfg, if_neg hfree⟩, ?_, hk.trans ⟨rfl, rfl, rfl, rfl, .refl _, ?_, .inl⟩⟩
    · refine { ht with own := ?_, exclusive := ?_, frozenPins := ?_ }
      · simp [hft, hzt, hzd]
      · refine ht.own.trans ?_
        rw [hft, hfd]
        rfl
      · intro h
        simp only [hzt, hzd] at h
        cases h
    · exact fun _ => .inl (by simp [CDir.flagged])

omit [LinearOrder ν] in
theorem none_of_filter {l l' : List (UInt64 × κ)} {mask : UInt64}
    (h : l' = l.filter fun p => !meets p.1 mask) : ∀ p ∈ l', meets p.1 mask = false := by
  intro p hp
  rw [h, List.mem_filter] at hp
  simpa using hp.2

omit [LinearOrder ν] in
/-- From a fragment `x` that has dropped its flags, through `y`, to the release
of those who wait for it. -/
theorem Kept.of_unflagged {x y : CDir ν κ} {w : Waiters ν κ} (hauth : x.isAuth = d.isAuth)
    (hdir : x.dirAuth = d.dirAuth) (hnest : x.nestedAuthPins = d.nestedAuthPins)
    (hpins : x.dirAuthPins = d.dirAuthPins) (hwait : Waiters.Conserves d.waiters x.waiters)
    (hz : x.frozenDir = true → d.frozenDir = true) (h : Kept x y) (hw : Waiters.Conserves y.waiters w)
    (hnone : w.waiting = y.waiters.waiting.filter fun p => !meets p.1 waitUnfreeze) :
    Kept d { y with waiters := w } where
  isAuth := h.isAuth.trans hauth
  dirAuth := h.dirAuth.trans hdir
  nested := h.nested.trans hnest
  dirPins := h.dirPins.trans hpins
  waiters := (hwait.trans h.waiters).trans hw
  flagged _ := .inr (none_of_filter hnone)
  frozenDir hy := (h.frozenDir hy).imp hz id

/-- A frozen fragment drops its flag. -/
theorem Tracked.putFrozen {x : CDir ν κ} (hd : Tracked 0 n f d) (hz : d.frozenTree = true ∨ d.frozenDir = true)
    (hx : x = { d with frozenTree := false, frozenDir := false }) :
    ∃ y, x.putFrozen = .ok y ∧ Tracked 0 n f y ∧ Kept x y := by
  have hacc {y} (h : x.putFrozen = .ok y) : Accounted n f y := hd.toAccounted.putFrozen hz hx h
  have hpin : 0 < x.pinFrozen := by
    have := hd.frozen
    rw [hx]
    show 0 < d.pinFrozen
    rcases hz with hz | hz <;> rw [this, hz, Bool.toNat_true] <;> omega
  have hholds := hd.pins
  have hnests := hd.nested
  have hnn : 0 ≤ d.nests := by
    rw [CDir.nests]
    split <;> decide
  simp only [CDir.putFrozen, bind_ok, assert_ok, pure_ok, decide_eq_true_eq] at hacc ⊢
  refine ⟨_, ⟨(), hpin, rfl⟩, ?_⟩
  have hacc := hacc ⟨(), hpin, rfl⟩
  subst hx
  split at hacc
  · rename_i hc
    rw [if_pos hc]
    have hc' : d.isAuth = true ∧ d.isSubtreeRoot = false :=
      ⟨(Bool.and_eq_true_iff.mp hc).1, (Bool.not_eq_true' _).mp (Bool.and_eq_true_iff.mp hc).2⟩
    rw [CDir.holds, if_pos ⟨hz, hc'⟩] at hholds
    refine ⟨⟨hacc, ?_, hd.counted, hd.own, (fun h => by cases h), (fun h => by cases h), hd.pinned⟩,
      ⟨rfl, rfl, rfl, rfl, .refl _, .inl, .inl⟩⟩
    refine hd.orderly.concat ?_ ?_ (by decide) ?_
    · show 0 ≤ n + d.nestedCalls + 0
      omega
    · show 0 ≤ f + d.pinCalls + -1
      omega
    · intro h
      simp [InodeCall.inc, InodeCall.nested, InodeCall.pins] at h
  · rename_i hc
    rw [if_neg hc]
    exact ⟨⟨hacc, hd.orderly, hd.counted, hd.own, (fun h => by cases h), (fun h => by cases h), hd.pinned⟩,
      ⟨rfl, rfl, rfl, rfl, .refl _, .inl, .inl⟩⟩

omit [LinearOrder ν] in
theorem putFrozen_calls {x y : CDir ν κ} (h : x.putFrozen = .ok y) (hx : x.calls = []) :
    ∀ cs, y.calls ≠ .adjustNestedAuthPins 1 :: cs := by
  intro cs
  simp only [CDir.putFrozen, bind_ok, pure_ok] at h
  obtain ⟨-, -, rfl⟩ := h
  split
  · simp [CDir.call, hx]
  · simp [hx]

theorem Tracked.unfreezeTree (hd : Tracked 0 n f d) (h : d.frozenTree = true ∨ d.freezingTree = true) :
    ∃ d', d.unfreezeTree e = .ok d' ∧ Tracked 0 n f d' ∧ Kept d d' ∧
      (∀ p ∈ d'.waiters.waiting, meets p.1 waitUnfreeze = false) ∧
      ((d.frozenTree || d.frozenDir) = true → d.calls = [] → ∀ cs, d'.calls ≠ .adjustNestedAuthPins 1 :: cs) := by
  have hx := flags_of_exclusive hd.exclusive
  rw [CDir.unfreezeTree]
  split
  · rename_i hz
    have hzd : d.frozenDir = false := (hx.2.1 hz).2.2
    obtain ⟨y, hy, ht, hk⟩ := hd.putFrozen (.inl hz) (x := { d with frozenTree := false }) (by rw [← hzd])
    obtain ⟨w, hw, htw, hcons, hnone⟩ := ht.finishWaiting waitUnfreeze
    exact ⟨_, bind_ok.mpr ⟨y, hy, hw⟩, htw,
      .of_unflagged (x := { d with frozenTree := false }) rfl rfl rfl rfl (.refl _) id hk hcons hnone,
      none_of_filter hnone, fun _ hcalls cs => putFrozen_calls (y := y) hy hcalls cs⟩
  · rename_i hz
    have hft := h.resolve_left hz
    obtain ⟨hzt, hfd, hzd⟩ := hx.1 hft
    obtain ⟨w₁, hw₁, ht₁, hcons₁, -⟩ := hd.finishWaiting waitFrozen
    have hown : d.authPinSet.count .self = 1 := by
      rw [hd.own, hft]
      rfl
    have hstop : Tracked 1 n f { d with waiters := w₁, freezingTree := false } := by
      refine { ht₁ with exclusive := ?_, own := ?_, frozenPins := ?_ }
      · simp [hzt, hfd, hzd]
      · refine hown.trans ?_
        simp [hfd]
      · simp [hzt, hzd]
    obtain ⟨y, hy, ht, hk⟩ := Tracked.authUnpin (e := e)
      (show Tracked (0 + Holder.slot .self) n f { d with waiters := w₁, freezingTree := false } from hstop)
      (List.count_pos_iff.mp (by rw [hown]; exact one_pos))
    obtain ⟨w, hw, htw, hcons, hnone⟩ := ht.finishWaiting waitUnfreeze
    refine ⟨_, ?_, htw, .of_unflagged (x := { d with waiters := w₁, freezingTree := false })
      rfl rfl rfl rfl hcons₁ id hk hcons hnone, none_of_filter hnone, fun h => by simp [hzt, hzd] at h⟩
    rw [bind_ok]
    refine ⟨_, hw₁, ?_⟩
    simp only [bind_ok, assert_ok]
    exact ⟨(), hft, y, hy, hw⟩

theorem Tracked.unfreezeDir (hd : Tracked 0 n f d) (h : d.frozenDir = true ∨ d.freezingDir = true) :
    ∃ d', d.unfreezeDir e = .ok d' ∧ Tracked 0 n f d' ∧ Kept d d' ∧
      (∀ p ∈ d'.waiters.waiting, meets p.1 waitUnfreeze = false) ∧
      ((d.frozenTree || d.frozenDir) = true → d.calls = [] → ∀ cs, d'.calls ≠ .adjustNestedAuthPins 1 :: cs) := by
  have hx := flags_of_exclusive hd.exclusive
  rw [CDir.unfreezeDir]
  split
  · rename_i hz
    have hzt : d.frozenTree = false := (hx.2.2.2 hz).2.1
    obtain ⟨y, hy, ht, hk⟩ := hd.putFrozen (.inr hz) (x := { d with frozenDir := false }) (by rw [← hzt])
    obtain ⟨w, hw, htw, hcons, hnone⟩ := ht.finishWaiting waitUnfreeze
    exact ⟨_, bind_ok.mpr ⟨y, hy, hw⟩, htw,
      .of_unflagged (x := { d with frozenDir := false }) rfl rfl rfl rfl (.refl _) (fun h => by cases h) hk hcons hnone,
      none_of_filter hnone, fun _ hcalls cs => putFrozen_calls (y := y) hy hcalls cs⟩
  · rename_i hz
    have hfd := h.resolve_left hz
    obtain ⟨hft, hzt, hzd⟩ := hx.2.2.1 hfd
    obtain ⟨w₁, hw₁, ht₁, hcons₁, -⟩ := hd.finishWaiting waitFrozen
    have hown : d.authPinSet.count .self = 1 := by
      rw [hd.own, hfd, Bool.or_true]
      rfl
    have hstop : Tracked 1 n f { d with waiters := w₁, freezingDir := false } := by
      refine { ht₁ with exclusive := ?_, own := ?_, frozenPins := ?_ }
      · simp [hft, hzt, hzd]
      · refine hown.trans ?_
        simp [hft]
      · simp [hzt, hzd]
    obtain ⟨y, hy, ht, hk⟩ := Tracked.authUnpin (e := e)
      (show Tracked (0 + Holder.slot .self) n f { d with waiters := w₁, freezingDir := false } from hstop)
      (List.count_pos_iff.mp (by rw [hown]; exact one_pos))
    obtain ⟨w, hw, htw, hcons, hnone⟩ := ht.finishWaiting waitUnfreeze
    refine ⟨_, ?_, htw, .of_unflagged (x := { d with waiters := w₁, freezingDir := false })
      rfl rfl rfl rfl hcons₁ id hk hcons hnone, none_of_filter hnone, fun h => by simp [hzt, hzd] at h⟩
    rw [bind_ok]
    refine ⟨_, hw₁, ?_⟩
    simp only [bind_ok, assert_ok]
    exact ⟨(), hfd, y, hy, hw⟩

/-- The account of a fragment whose first call has reached the inode. -/
theorem Tracked.pop {c : InodeCall} {cs : List InodeCall} (hd : Tracked 0 n f d) (hcalls : d.calls = c :: cs)
    (hrest : Admissible (n + c.nested) (f + c.pins) cs) :
    Tracked 0 (n + c.nested) (f + c.pins) { d with calls := cs } := by
  have hn : d.nestedCalls = c.nested + (cs.map InodeCall.nested).sum := by
    rw [CDir.nestedCalls, hcalls, List.map_cons, List.sum_cons]
  have hf : d.pinCalls = c.pins + (cs.map InodeCall.pins).sum := by
    rw [CDir.pinCalls, hcalls, List.map_cons, List.sum_cons]
  have hn' := hd.nested
  have hf' := hd.pins
  refine { hd with nested := ?_, pins := ?_, orderly := .inl hrest }
  · refine Eq.trans ?_ hn'
    rw [hn]
    show n + c.nested + (cs.map InodeCall.nested).sum = _
    omega
  · refine Eq.trans ?_ hf'
    rw [hf]
    show f + c.pins + (cs.map InodeCall.pins).sum = _
    omega

end

end CephMds.Freeze
