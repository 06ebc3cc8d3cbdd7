import CephMds.Proof.Refragment.Steal
import CephMds.Proof.Waiting

/-!
# Dirfrags before and after

`Sound` is what a dirfrag is like that may be split or merged, but for what
`Held`, `Counted` and `Summed` say: its pins are those of its state
(`ownPins`), it is frozen unless it is replayed or replicated, and it has no
auth pins but the one of `prepare_old_fragment`. `steal_dentry` keeps this
(`Sound.congr`), the assertions of `finish_old_fragment` then hold
(`finishOldFragment_ok`), and a new dirfrag gets it from `init_fragment_pins`
(`Raw.init`).
-/

namespace CephMds.Refragment

open Checked Dentries Waiting Stat

namespace CDir

variable {ν κ : Type} [LinearOrder ν] {d x : CDir ν κ} {i : Diri} {a : ℕ} {replay : Bool}

/-- The pins that go with the state. -/
def ownPins (d : CDir ν κ) : Pin → ℕ
  | .child => if d.items.isEmpty then 0 else 1
  | .subtree => d.isSubtreeRoot.toNat
  | .importbound => d.importbound.toNat
  | .exportbound => d.exportbound.toNat
  | .sticky => d.sticky.toNat
  | .replicated => (!d.replicaMap.isEmpty).toNat
  | .dirty => d.dirty.toNat
  | .other => 0

/-- Frozen if it is to be, with `a` auth pins, and nothing under way. -/
structure Calm (a : ℕ) (replay : Bool) (z : Freeze.CDir ν κ) : Prop where
  freezingDir : z.freezingDir = false
  freezingTree : z.freezingTree = false
  frozenTree : z.frozenTree = false
  frozenDir : z.frozenDir = (z.isAuth && !replay)
  pinFrozen : z.pinFrozen = (z.isAuth && !replay).toNat
  authPins : z.authPins = a
  pinAuthpin : z.pinAuthpin = a
  pinned : z.waiters.Pinned
  tagged : ∀ p ∈ z.waiters.waiting, p.1 ≠ 0
  nobody : replay = true → z.waiters.waiting = [] ∧ z.waiters.waitingOnDentry = []

/-- The part of the state that `Calm` is about. -/
def still (z : Freeze.CDir ν κ) : Freeze.CDir ν κ :=
  { z with nestedAuthPins := 0, dirAuthPins := 0, dirAuth := cdirAuthDefault, authPinSet := [], calls := [] }

theorem Calm.congr {z y : Freeze.CDir ν κ} (h : Calm a replay z) (heq : still y = still z) : Calm a replay y where
  freezingDir := (congrArg (fun x : Freeze.CDir ν κ => x.freezingDir) heq :).trans h.freezingDir
  freezingTree := (congrArg (fun x : Freeze.CDir ν κ => x.freezingTree) heq :).trans h.freezingTree
  frozenTree := (congrArg (fun x : Freeze.CDir ν κ => x.frozenTree) heq :).trans h.frozenTree
  frozenDir := by
    have hauth := (congrArg (fun x : Freeze.CDir ν κ => x.isAuth && !replay) heq :)
    exact (congrArg (fun x : Freeze.CDir ν κ => x.frozenDir) heq :).trans (h.frozenDir.trans hauth.symm)
  pinFrozen := by
    have hauth := (congrArg (fun x : Freeze.CDir ν κ => (x.isAuth && !replay).toNat) heq :)
    exact (congrArg (fun x : Freeze.CDir ν κ => x.pinFrozen) heq :).trans (h.pinFrozen.trans hauth.symm)
  authPins := (congrArg (fun x : Freeze.CDir ν κ => x.authPins) heq :).trans h.authPins
  pinAuthpin := (congrArg (fun x : Freeze.CDir ν κ => x.pinAuthpin) heq :).trans h.pinAuthpin
  pinned := (congrArg (fun x : Freeze.CDir ν κ => x.waiters) heq :) ▸ h.pinned
  tagged := (congrArg (fun x : Freeze.CDir ν κ => x.waiters) heq :) ▸ h.tagged
  nobody := (congrArg (fun x : Freeze.CDir ν κ => x.waiters) heq :) ▸ h.nobody

structure Sound (a : ℕ) (replay : Bool) (d : CDir ν κ) : Prop where
  calm : Calm a replay d.freeze
  pins {p : Pin} : p ≠ .child → d.pins p = d.ownPins p
  complete : replay = false → d.isAuth = true → d.complete = true
  replicas : d.isAuth = false → d.replicaMap.isEmpty = true

theorem Sound.quiet (h : Sound a replay d) : Quiet d := ⟨h.calm.freezingDir, h.calm.freezingTree⟩

/-- It depends on what `steal_dentry` leaves alone. -/
theorem Sound.congr (h : Sound a replay d) (heq : x.frame = d.frame) : Sound a replay x where
  pins {p} hp := by
    have hx : x.pins p = d.pins p := by
      have := (congrArg (fun y : CDir ν κ => y.pins p) heq :)
      simpa only [frame, Function.update_of_ne hp] using this
    have howns : x.ownPins p = d.ownPins p := by
      cases p with
      | child => exact absurd rfl hp
      | subtree => exact (congrArg (fun y : CDir ν κ => y.isSubtreeRoot.toNat) heq :)
      | importbound => exact (congrArg (fun y : CDir ν κ => y.importbound.toNat) heq :)
      | exportbound => exact (congrArg (fun y : CDir ν κ => y.exportbound.toNat) heq :)
      | sticky => exact (congrArg (fun y : CDir ν κ => y.sticky.toNat) heq :)
      | replicated => exact (congrArg (fun y : CDir ν κ => (!y.replicaMap.isEmpty).toNat) heq :)
      | dirty => exact (congrArg (fun y : CDir ν κ => y.dirty.toNat) heq :)
      | other => rfl
    rw [hx, howns, h.pins hp]
  calm := h.calm.congr (congrArg (fun y : CDir ν κ => still y.freeze) heq :)
  complete hr ha := by
    have hauth : x.isAuth = d.isAuth := (congrArg (fun y : CDir ν κ => y.isAuth) heq :)
    exact (congrArg (fun y : CDir ν κ => y.complete) heq :).trans (h.complete hr (hauth ▸ ha))
  replicas ha := by
    have hauth : x.isAuth = d.isAuth := (congrArg (fun y : CDir ν κ => y.isAuth) heq :)
    have hmap : x.replicaMap = d.replicaMap := (congrArg (fun y : CDir ν κ => y.replicaMap) heq :)
    exact hmap ▸ h.replicas (hauth ▸ ha)

/-! ## The old dirfrag -/

omit [LinearOrder ν] in
theorem prepareOldFragment_eq (d : CDir ν κ) (replay : Bool) : ∃ z, d.prepareOldFragment replay = { d with freeze := z } ∧
    z.nestedAuthPins = d.freeze.nestedAuthPins ∧ z.dirAuthPins = d.freeze.dirAuthPins := by
  rw [prepareOldFragment]
  split
  · rw [Freeze.authPin_eq]
    split <;> exact ⟨_, rfl, rfl, rfl⟩
  · exact ⟨d.freeze, rfl, rfl, rfl⟩

omit [LinearOrder ν] in
theorem Held.prepare (h : Held d) : Held (d.prepareOldFragment replay) := by
  obtain ⟨z, heq, hnest, hdir⟩ := prepareOldFragment_eq d replay
  rw [heq]
  exact ⟨h.keyed, h.dirPins, h.child, hnest.trans h.nestedAuthPins, hdir.trans h.dirAuthPins⟩

omit [LinearOrder ν] in
theorem pinned_authPins {z : Freeze.CDir ν κ} (h : z.authPins = 0) (hp : z.pinAuthpin = 0) (who : Freeze.Holder) :
    (z.pinned who).authPins = 1 ∧ (z.pinned who).pinAuthpin = 1 := by
  simp only [Freeze.CDir.pinned, h, hp, zero_add, if_true, and_self]

theorem Sound.prepare (h : Sound 0 replay d) : Sound (d.isAuth && !replay).toNat replay (d.prepareOldFragment replay) := by
  rw [prepareOldFragment]
  cases hc : !replay && d.isAuth with
  | false =>
    rw [Bool.and_comm] at hc
    rw [hc]
    exact h
  | true =>
    rw [Bool.and_comm] at hc
    have hpins := pinned_authPins h.calm.authPins h.calm.pinAuthpin .self
    rw [hc, if_pos rfl, Freeze.authPin_eq]
    split
    · exact ⟨{ h.calm with authPins := hpins.1, pinAuthpin := hpins.2 }, h.pins, h.complete, h.replicas⟩
    · exact ⟨{ h.calm with authPins := hpins.1, pinAuthpin := hpins.2 }, h.pins, h.complete, h.replicas⟩

/-- Nobody waits, and there are no auth pins and no freeze. -/
structure Released (z y : Freeze.CDir ν κ) : Prop where
  isAuth : y.isAuth = z.isAuth
  dirAuth : y.dirAuth = z.dirAuth
  nestedAuthPins : y.nestedAuthPins = z.nestedAuthPins
  dirAuthPins : y.dirAuthPins = z.dirAuthPins
  authPins : y.authPins = 0
  pinAuthpin : y.pinAuthpin = 0
  pinFrozen : y.pinFrozen = 0
  pinWaiter : y.waiters.pinWaiter = 0
  pinDnwaiter : y.waiters.pinDnwaiter = 0

/-- `WAIT_ANY_MASK` takes all. -/
theorem takeWaiting_any {w : Waiters ν κ} (h : w.Pinned) (ht : ∀ p ∈ w.waiting, p.1 ≠ 0) :
    ∃ w', w.takeWaiting waitAnyMask = .ok w' ∧ w'.Pinned ∧ w'.waiting = [] ∧ w'.waitingOnDentry = [] := by
  obtain ⟨w', hw', hp, hwait, hdn, -⟩ := Waiters.takeWaiting_eq h waitAnyMask
  refine ⟨w', hw', hp, ?_, ?_⟩
  · rw [hwait, List.filter_eq_nil_iff]
    intro p hp
    have hany : p.1 &&& waitAnyMask = p.1 := by
      rw [waitAnyMask, UInt64.zero_sub, UInt64.and_neg_one]
    rw [meets, hany]
    simpa using ht p hp
  · rw [hdn, if_pos (by decide)]

theorem pins_of_nobody {w : Waiters ν κ} (h : w.Pinned) (hw : w.waiting = []) (hd : w.waitingOnDentry = []) :
    w.pinWaiter = 0 ∧ w.pinDnwaiter = 0 := by
  rw [h.waiter, h.dnwaiter, if_pos hw, if_pos hd]
  exact ⟨rfl, rfl⟩

omit [LinearOrder ν] in
/-- The last auth pin, where no freeze is under way. -/
theorem authUnpin_last {e : Freeze.Surroundings} {z : Freeze.CDir ν κ} (h : z.authPins = 1) (hp : z.pinAuthpin = 1)
    (who : Freeze.Holder) : ∃ calls, z.authUnpin e who = .ok { z.unpinned who with calls := calls } := by
  have hauth : (z.unpinned who).authPins = 0 := by
    show z.authPins - 1 = 0
    rw [h, sub_self]
  have hdrop : z.dropAuthPin who = .ok (z.unpinned who) := by
    simp [Freeze.CDir.dropAuthPin, Freeze.CDir.putAuthpin, Freeze.CDir.unpinned, h, hp]
    rfl
  have hfinish : (z.unpinned who).maybeFinishFreeze e (fun y => Freeze.CDir.authUnpinNested e 1 y .self) =
      .ok (z.unpinned who) := Freeze.maybeFinishFreeze_of_ne (by rw [hauth]; decide)
  rw [Freeze.CDir.authUnpin, Freeze.CDir.authUnpinNested, hdrop]
  by_cases hc : !(z.unpinned who).isSubtreeRoot && decide ((z.unpinned who).getCumAuthPins = 0)
  · exact ⟨_, bind_ok.mpr ⟨_, rfl, bind_ok.mpr ⟨_, hfinish, congrArg Except.ok (if_pos hc)⟩⟩⟩
  · exact ⟨_, bind_ok.mpr ⟨_, rfl, bind_ok.mpr ⟨_, hfinish, congrArg Except.ok (if_neg hc)⟩⟩⟩

/-- `unfreeze_dir`, where nobody waits for it. -/
theorem unfreezeDir_ok {e : Freeze.Surroundings} {z : Freeze.CDir ν κ} (h : z.frozenDir = true) (hp : z.pinFrozen = 1)
    (hw : z.waiters.Pinned) (hwait : z.waiters.waiting = []) (hdn : z.waiters.waitingOnDentry = []) :
    ∃ calls w, z.unfreezeDir e = .ok { z with frozenDir := false, pinFrozen := 0, calls := calls, waiters := w } ∧
      w.pinWaiter = 0 ∧ w.pinDnwaiter = 0 := by
  obtain ⟨w, hw', hpw, hwait', hdn', -⟩ := Waiters.takeWaiting_eq hw waitUnfreeze
  have hnone : w.waiting = [] := by rw [hwait', hwait, List.filter_nil]
  have hnone' : w.waitingOnDentry = [] := by rw [hdn', hdn, ite_self]
  obtain ⟨calls, hput⟩ : ∃ calls, Freeze.CDir.putFrozen { z with frozenDir := false } =
      .ok { z with frozenDir := false, pinFrozen := 0, calls := calls } := by
    simp only [Freeze.CDir.putFrozen, bind_ok, assert_ok, pure_ok, hp]
    split
    · exact ⟨_, (), by decide, rfl⟩
    · exact ⟨z.calls, (), by decide, rfl⟩
  refine ⟨calls, w, ?_, pins_of_nobody hpw hnone hnone'⟩
  rw [Freeze.CDir.unfreezeDir, if_pos h]
  exact bind_ok.mpr ⟨_, hput, bind_ok.mpr ⟨w, hw', rfl⟩⟩

theorem releaseFreeze_ok (h : Sound d.isAuth.toNat false d) :
    ∃ y, d.releaseFreeze i = .ok { d with freeze := y } ∧ Released d.freeze y := by
  obtain ⟨w, hw, hp, hwait, hdn⟩ := takeWaiting_any h.calm.pinned h.calm.tagged
  obtain ⟨hpw, hpd⟩ := pins_of_nobody hp hwait hdn
  have hauthPins := h.calm.authPins
  have hpinAuthpin := h.calm.pinAuthpin
  have hfrozen : d.freeze.frozenDir = (d.isAuth && !false) := h.calm.frozenDir
  have hpinFrozen : d.freeze.pinFrozen = (d.isAuth && !false).toNat := h.calm.pinFrozen
  rw [releaseFreeze, hw]
  cases hauth : d.isAuth with
  | false =>
    rw [hauth] at hauthPins hpinAuthpin hpinFrozen
    exact ⟨{ d.freeze with waiters := w }, rfl, rfl, rfl, rfl, rfl, hauthPins, hpinAuthpin, hpinFrozen, hpw, hpd⟩
  | true =>
    rw [hauth] at hauthPins hpinAuthpin hpinFrozen hfrozen
    obtain ⟨calls, hunpin⟩ := authUnpin_last (e := i.surroundings) (z := { d.freeze with waiters := w }) hauthPins
      hpinAuthpin .self
    obtain ⟨calls', w', hunfreeze, hpw', hpd'⟩ := unfreezeDir_ok (e := i.surroundings)
      (z := { Freeze.CDir.unpinned { d.freeze with waiters := w } .self with calls := calls }) hfrozen hpinFrozen hp
      hwait hdn
    have hrest : Freeze.CDir.authUnpin i.surroundings { d.freeze with waiters := w } .self >>= (fun z => do
        assert z.frozenDir
        let z ← z.unfreezeDir i.surroundings
        pure { d with freeze := z }) = .ok { d with freeze := _ } :=
      bind_ok.mpr ⟨_, hunpin, bind_ok.mpr ⟨(), assert_ok.mpr hfrozen, bind_ok.mpr ⟨_, hunfreeze, rfl⟩⟩⟩
    refine ⟨_, hrest, ?_⟩
    exact ⟨rfl, rfl, rfl, rfl, by show d.freeze.authPins - 1 = 0; rw [hauthPins]; rfl,
      by simp [Freeze.CDir.unpinned, hauthPins, hpinAuthpin], rfl, hpw', hpd'⟩

theorem release_ok (h : Sound (d.isAuth && !replay).toNat replay d) : ∃ y,
    (if !replay then d.releaseFreeze i else pure d : Checked (CDir ν κ)) = .ok { d with freeze := y } ∧
      Released d.freeze y := by
  cases replay with
  | false =>
    have h' : Sound d.isAuth.toNat false d := by
      have hand : (d.isAuth && !false) = d.isAuth := Bool.and_true _
      exact hand ▸ h
    exact releaseFreeze_ok h'
  | true =>
    have hand : (d.isAuth && !true).toNat = 0 := by rw [Bool.not_true, Bool.and_false]; rfl
    obtain ⟨hwait, hdn⟩ := h.calm.nobody rfl
    obtain ⟨hpw, hpd⟩ := pins_of_nobody h.calm.pinned hwait hdn
    have hauthPins := h.calm.authPins
    rw [hand] at hauthPins
    exact ⟨d.freeze, rfl, rfl, rfl, rfl, rfl, hauthPins, h.calm.pinAuthpin.trans hand, h.calm.pinFrozen.trans hand,
      hpw, hpd⟩

omit [LinearOrder ν] in
theorem putIf_ok {b : Bool} {p : Pin} (h : d.pins p = b.toNat) :
    d.putIf b p = .ok { d with pins := Function.update d.pins p 0 } := by
  cases b with
  | false =>
    rw [← show d.pins p = 0 from h, Function.update_eq_self]
    rfl
  | true =>
    have hone : d.pins p = 1 := h
    simp only [putIf, put, if_true, bind_ok, assert_ok, pure_ok, hone]
    exact ⟨(), rfl, trivial⟩

omit [LinearOrder ν] in
theorem clearReplicas_ok (hpin : d.pins .replicated = (!d.replicaMap.isEmpty).toNat)
    (hempty : d.isAuth = false → d.replicaMap.isEmpty = true) :
    (if d.isAuth then d.clearReplicaMap else pure d : Checked (CDir ν κ)) =
      .ok { d with replicaMap := ∅, pins := Function.update d.pins .replicated 0 } := by
  cases hauth : d.isAuth with
  | true => exact bind_ok.mpr ⟨_, putIf_ok hpin, rfl⟩
  | false =>
    have he := hempty hauth
    have hzero : d.pins .replicated = 0 := by rw [hpin, he]; rfl
    rw [← hzero, Function.update_eq_self, ← Std.ExtTreeMap.isEmpty_iff.mp he]
    rfl

omit [LinearOrder ν] in
theorem cleaned_ok (hpin : d.pins .dirty = d.dirty.toNat) : (if d.dirty then d.markClean else pure d : Checked (CDir ν κ)) =
    .ok { d with dirty := false, pins := Function.update d.pins .dirty 0 } := by
  cases hdirty : d.dirty with
  | true =>
    rw [if_pos rfl, markClean]
    exact putIf_ok (d := { d with dirty := false }) hpin
  | false =>
    have hzero : d.pins .dirty = 0 := by rw [hpin, hdirty]; rfl
    have hself : { d with dirty := false } = d := by rw [← hdirty]
    rw [← hzero, Function.update_eq_self]
    exact congrArg Except.ok hself.symm

/-- The assertions of `finish_old_fragment` hold when all dentries have been stolen. -/
theorem finishOldFragment_ok (h : Sound (d.isAuth && !replay).toNat replay d) (hh : Held d) (he : d.items.isEmpty = true) :
    ∃ d', d.finishOldFragment i replay = .ok d' ∧ d'.items.isEmpty = true ∧ d'.getNumRef = d.sticky.toNat := by
  obtain ⟨y, hrelease, hy⟩ := release_ok (i := i) h
  have hnest : y.nestedAuthPins = 0 := by rw [hy.nestedAuthPins, hh.nestedAuthPins, Writes.total_of_isEmpty _ he]
  have hdir : y.dirAuthPins = 0 := by rw [hy.dirAuthPins, hh.dirAuthPins, Writes.total_of_isEmpty _ he]
  have hchild : d.pins .child = 0 := by rw [hh.child, if_pos he]
  have hother : d.pins .other = 0 := h.pins (by decide)
  have hsticky : d.pins .sticky = d.sticky.toNat := h.pins (by decide)
  have hauth : y.isAuth = d.isAuth := hy.isAuth
  set x : CDir ν κ := CDir.resetCounters { d with freeze := y } with hx
  have hown {p : Pin} (hp : p ≠ .child) : x.pins p = d.ownPins p := h.pins hp
  -- The pins are put one by one.
  have h₁ := clearReplicas_ok (d := x) (hown (by decide)) (fun ha => h.replicas (hauth.symm.trans ha))
  set p₁ := Function.update x.pins .replicated 0
  have hp₁ {p : Pin} (hr : p ≠ .replicated) (hc : p ≠ .child) : p₁ p = d.ownPins p :=
    (Function.update_of_ne hr _ _).trans (hown hc)
  have h₂ := cleaned_ok (d := { x with replicaMap := ∅, pins := p₁ }) (hp₁ (p := .dirty) (by decide) (by decide))
  set p₂ := Function.update p₁ .dirty 0
  have hp₂ {p : Pin} (hr : p ≠ .replicated) (hd : p ≠ .dirty) (hc : p ≠ .child) : p₂ p = d.ownPins p :=
    (Function.update_of_ne hd _ _).trans (hp₁ hr hc)
  have h₃ := putIf_ok (d := { x with replicaMap := ∅, dirty := false, pins := p₂ }) (b := d.importbound)
    (p := .importbound) (hp₂ (p := .importbound) (by decide) (by decide) (by decide))
  set p₃ := Function.update p₂ .importbound 0
  have hp₃ {p : Pin} (hi : p ≠ .importbound) : p₃ p = p₂ p := Function.update_of_ne hi _ _
  have h₄ := putIf_ok (d := { x with replicaMap := ∅, dirty := false, pins := p₃ }) (b := d.exportbound)
    (p := .exportbound) ((hp₃ (p := .exportbound) (by decide)).trans
      (hp₂ (p := .exportbound) (by decide) (by decide) (by decide)))
  set p₄ := Function.update p₃ .exportbound 0
  have hp₄ {p : Pin} (hx : p ≠ .exportbound) : p₄ p = p₃ p := Function.update_of_ne hx _ _
  have hroot : x.isSubtreeRoot = d.isSubtreeRoot := by
    show (y.dirAuth != _) = (d.freeze.dirAuth != _)
    rw [hy.dirAuth]
  have h₅ := putIf_ok (d := { x with replicaMap := ∅, dirty := false, pins := p₄ }) (b := x.isSubtreeRoot)
    (p := .subtree) ((hp₄ (p := .subtree) (by decide)).trans ((hp₃ (p := .subtree) (by decide)).trans
      ((hp₂ (p := .subtree) (by decide) (by decide) (by decide)).trans (congrArg Bool.toNat hroot.symm))))
  set p₅ := Function.update p₄ .subtree 0 with hp₅
  have href : CDir.getNumRef { x with replicaMap := ∅, dirty := false, pins := p₅ } = d.sticky.toNat := by
    have hfreeze : x.freeze = y := rfl
    have hpins : x.pins = d.pins := rfl
    simp only [getNumRef, hfreeze, hy.pinAuthpin, hy.pinFrozen, hy.pinWaiter, hy.pinDnwaiter]
    simp [Pin.all, p₅, p₄, p₃, p₂, p₁, Function.update_of_ne, hpins, hchild, hother, hsticky]
  refine ⟨{ x with replicaMap := ∅, dirty := false, pins := p₅ }, ?_, he, href⟩
  rw [finishOldFragment]
  refine bind_ok.mpr ⟨_, hrelease, bind_ok.mpr ⟨(), assert_ok.mpr (beq_iff_eq.mpr hnest),
    bind_ok.mpr ⟨(), assert_ok.mpr (beq_iff_eq.mpr hdir),
      bind_ok.mpr ⟨(), assert_ok.mpr (beq_iff_eq.mpr hy.authPins), ?_⟩⟩⟩⟩
  exact bind_ok.mpr ⟨_, h₁, bind_ok.mpr ⟨_, h₂, bind_ok.mpr ⟨_, h₃, bind_ok.mpr ⟨_, h₄, bind_ok.mpr ⟨_, h₅,
    bind_ok.mpr ⟨(), assert_ok.mpr (beq_iff_eq.mpr href), rfl⟩⟩⟩⟩⟩⟩

/-! ## The new dirfrag -/

/-- A dirfrag before `init_fragment_pins`. -/
structure Raw (replay : Bool) (d : CDir ν κ) : Prop where
  calm : Calm 0 replay d.freeze
  pins {p : Pin} : p ≠ .child → d.pins p = 0
  sticky : d.sticky = false

omit [LinearOrder ν] in
theorem getIf_eq (d : CDir ν κ) (b : Bool) (p : Pin) :
    d.getIf b p = { d with pins := Function.update d.pins p (d.pins p + b.toNat) } := by
  cases b with
  | false => exact (show d = { d with pins := Function.update d.pins p (d.pins p) } by rw [Function.update_eq_self])
  | true => rfl

/-- The pins that `init_fragment_pins` takes. -/
theorem Raw.initPins (h : Raw replay d) : ∃ pins, d.initFragmentPins = { d with pins := pins } ∧
    pins .child = d.pins .child ∧ ∀ {p}, p ≠ .child → pins p = d.ownPins p := by
  simp only [initFragmentPins, getIf_eq]
  refine ⟨_, rfl, ?_, ?_⟩
  · simp [Function.update_of_ne]
  · intro p hp
    have hz {q : Pin} (hq : q ≠ .child) : d.pins q = 0 := h.pins hq
    cases p with
    | child => exact absurd rfl hp
    | sticky => simp [Function.update_of_ne, hz, ownPins, h.sticky]
    | other => simp [Function.update_of_ne, hz, ownPins]
    | subtree => simp [hz, ownPins, isSubtreeRoot]
    | importbound => simp [Function.update_of_ne, hz, ownPins]
    | exportbound => simp [Function.update_of_ne, hz, ownPins]
    | replicated => simp [Function.update_of_ne, hz, ownPins]
    | dirty => simp [Function.update_of_ne, hz, ownPins]

theorem calm_new (auth : Bool) : Calm 0 true (Freeze.CDir.new auth : Freeze.CDir ν κ) where
  freezingDir := rfl
  freezingTree := rfl
  frozenTree := rfl
  frozenDir := by
    rw [Bool.not_true, Bool.and_false]
    rfl
  pinFrozen := by
    rw [Bool.not_true, Bool.and_false]
    rfl
  authPins := rfl
  pinAuthpin := rfl
  pinned := Waiters.pinned_empty
  tagged p hp := absurd hp List.not_mem_nil
  nobody _ := ⟨rfl, rfl⟩

omit [LinearOrder ν] in
/-- `_freeze_dir`. -/
theorem doFreezeDir_still (z : Freeze.CDir ν κ) :
    still z.doFreezeDir = { still z with freezingDir := false, frozenDir := true, pinFrozen := z.pinFrozen + 1 } := by
  rw [Freeze.CDir.doFreezeDir]
  split <;> rfl

/-- `prepare_new_fragment` of a dirfrag that is not frozen. -/
theorem calm_prepare {z : Freeze.CDir ν κ} (h : Calm 0 true z) (hw : z.waiters = .empty) (replay : Bool) :
    Calm 0 replay (if !replay && z.isAuth then z.doFreezeDir else z) := by
  have hoff : z.frozenDir = false := by rw [h.frozenDir, Bool.not_true, Bool.and_false]
  have hnone : z.pinFrozen = 0 := by rw [h.pinFrozen, Bool.not_true, Bool.and_false]; rfl
  cases hc : !replay && z.isAuth with
  | false =>
    rw [if_neg Bool.false_ne_true]
    rw [Bool.and_comm] at hc
    exact { h with
      frozenDir := hoff.trans hc.symm
      pinFrozen := by rw [hnone, hc]; rfl
      nobody := fun _ => by rw [hw]; exact ⟨rfl, rfl⟩ }
  | true =>
    rw [if_pos rfl]
    rw [Bool.and_comm] at hc
    refine Calm.congr (z := { z with freezingDir := false, frozenDir := true, pinFrozen := 1 }) ?_ ?_
    · exact { h with
        freezingDir := rfl
        frozenDir := hc.symm
        pinFrozen := by show 1 = (z.isAuth && !replay).toNat; rw [hc]; rfl
        nobody := fun _ => by show z.waiters.waiting = [] ∧ z.waiters.waitingOnDentry = []; rw [hw]; exact ⟨rfl, rfl⟩ }
    · rw [doFreezeDir_still, hnone]
      rfl

omit [LinearOrder ν] in
theorem setDirAuth_same (e : Freeze.Surroundings) (z : Freeze.CDir ν κ) : z.setDirAuth e z.dirAuth = .ok z := by
  have hroot : (!z.isSubtreeRoot && z.isSubtreeRoot) = false := by cases z.isSubtreeRoot <;> rfl
  have hroot' : (z.isSubtreeRoot && !z.isSubtreeRoot) = false := by cases z.isSubtreeRoot <;> rfl
  have hamb : (decide (0 ≤ z.dirAuth.second) && decide (z.dirAuth.second = cdirAuthUnknown)) = false := by
    by_cases h : z.dirAuth.second = cdirAuthUnknown
    · rw [h]
      decide
    · rw [decide_eq_false h, Bool.and_false]
  simp only [Freeze.CDir.setDirAuth, hroot, hroot', hamb, Bool.false_eq_true, if_false]
  rfl

omit [LinearOrder ν] in
/-- `set_dir_auth` of a dirfrag that is not ambiguous. -/
theorem setDirAuth_calls (e : Freeze.Surroundings) {z : Freeze.CDir ν κ} (h : z.dirAuth.second < 0) (a : Auth) :
    ∃ calls, z.setDirAuth e a = .ok { z with dirAuth := a, calls := calls } := by
  have hamb : decide (0 ≤ z.dirAuth.second) = false := decide_eq_false (not_le.mpr h)
  have hbecome : ∀ y : Freeze.CDir ν κ, ∃ calls, y.becomeRoot e = { y with calls := calls } := by
    intro y
    rw [Freeze.CDir.becomeRoot]
    split <;> split <;> exact ⟨_, rfl⟩
  have hcease : ∀ y : Freeze.CDir ν κ, ∃ calls, y.ceaseRoot e = { y with calls := calls } := by
    intro y
    rw [Freeze.CDir.ceaseRoot]
    split <;> split <;> exact ⟨_, rfl⟩
  obtain ⟨c₁, h₁⟩ : ∃ calls, (if !z.isSubtreeRoot && Freeze.CDir.isSubtreeRoot { z with dirAuth := a } then
      Freeze.CDir.becomeRoot e { z with dirAuth := a } else { z with dirAuth := a }) =
        { z with dirAuth := a, calls := calls } := by
    split
    · exact hbecome _
    · exact ⟨z.calls, rfl⟩
  obtain ⟨c₂, h₂⟩ : ∃ calls, (if z.isSubtreeRoot && !Freeze.CDir.isSubtreeRoot { z with dirAuth := a, calls := c₁ } then
      Freeze.CDir.ceaseRoot e { z with dirAuth := a, calls := c₁ } else { z with dirAuth := a, calls := c₁ }) =
        { z with dirAuth := a, calls := calls } := by
    split
    · exact hcease _
    · exact ⟨c₁, rfl⟩
  refine ⟨c₂, ?_⟩
  simp only [Freeze.CDir.setDirAuth, hamb, Bool.false_and, Bool.false_eq_true, if_false]
  rw [h₁, h₂]
  rfl

omit [LinearOrder ν] in
theorem prepareNewFragment_eq (d : CDir ν κ) (replay : Bool) : d.prepareNewFragment replay = { d with
    freeze := if !replay && d.isAuth then d.freeze.doFreezeDir else d.freeze
    complete := d.complete || !replay && d.isAuth } := by
  rw [prepareNewFragment]
  cases !replay && d.isAuth with
  | false =>
    rw [Bool.or_false]
    rfl
  | true =>
    rw [Bool.or_true]
    rfl

omit [LinearOrder ν] in
/-- What freezing leaves as it is. -/
theorem doFreezeDir_keeps (z : Freeze.CDir ν κ) (b : Bool) : (if b then z.doFreezeDir else z).isAuth = z.isAuth ∧
    (if b then z.doFreezeDir else z).dirAuth = z.dirAuth ∧
    (if b then z.doFreezeDir else z).nestedAuthPins = z.nestedAuthPins ∧
    (if b then z.doFreezeDir else z).dirAuthPins = z.dirAuthPins := by
  have hfreeze : z.doFreezeDir.isAuth = z.isAuth ∧ z.doFreezeDir.dirAuth = z.dirAuth ∧
      z.doFreezeDir.nestedAuthPins = z.nestedAuthPins ∧ z.doFreezeDir.dirAuthPins = z.dirAuthPins := by
    rw [Freeze.CDir.doFreezeDir]
    split <;> exact ⟨rfl, rfl, rfl, rfl⟩
  cases b with
  | false => exact ⟨rfl, rfl, rfl, rfl⟩
  | true => exact hfreeze

omit [LinearOrder ν] in
/-- A dirfrag without items. -/
theorem held_empty (hi : d.items = ∅) (hchild : d.pins .child = 0) (hnest : d.freeze.nestedAuthPins = 0)
    (hdir : d.freeze.dirAuthPins = 0) : Held d where
  keyed {k dn} hk := by simp [hi] at hk
  dirPins {k dn} hk := by simp [hi] at hk
  child := by rw [hchild, hi, if_pos Std.ExtTreeMap.isEmpty_empty]
  nestedAuthPins := by rw [hnest, hi, Writes.total_empty]
  dirAuthPins := by rw [hdir, hi, Writes.total_empty]

/-- A new dirfrag, `init_fragment_pins` and `prepare_new_fragment`. -/
theorem Raw.prepare (h : Raw true d) (hw : d.freeze.waiters = .empty)
    (hr : d.isAuth = false → d.replicaMap.isEmpty = true) {pins : Pin → ℕ}
    (hown : ∀ {p}, p ≠ .child → pins p = d.ownPins p) :
    Sound 0 replay (CDir.prepareNewFragment { d with pins := pins } replay) := by
  obtain ⟨hauth, hdirAuth, -, -⟩ := doFreezeDir_keeps d.freeze (!replay && d.isAuth)
  rw [prepareNewFragment_eq]
  refine ⟨calm_prepare h.calm hw replay, fun {p} hp => (hown hp).trans ?_, fun hreplay ha => ?_,
    fun ha => hr (hauth.symm.trans ha)⟩
  · cases p with
    | child => exact absurd rfl hp
    | subtree => exact congrArg (fun a => (a != cdirAuthDefault).toNat) hdirAuth.symm
    | importbound => rfl
    | exportbound => rfl
    | sticky => rfl
    | replicated => rfl
    | dirty => rfl
    | other => rfl
  · have ha' : d.isAuth = true := hauth.symm.trans ha
    show (d.complete || !replay && d.isAuth) = true
    rw [hreplay, ha', Bool.not_false, Bool.and_self, Bool.or_true]

/-- One of the new dirfrags of a split. -/
theorem subfrag_ok (h : d.isAuth = false → d.replicaMap.isEmpty = true) (i : Diri) (replay : Bool) (frag : Frag) :
    ∃ f, d.subfrag i replay frag = .ok f ∧ f.frag = frag ∧ f.isAuth = d.isAuth ∧ f.items = ∅ ∧
      Sound 0 replay f ∧ Held f ∧ Counted f ∧ Summed f := by
  set z : Freeze.CDir ν κ := { Freeze.CDir.new d.isAuth with dirAuth := d.freeze.dirAuth } with hz
  have hcalm : Calm 0 true z := (calm_new d.isAuth).congr rfl
  set f₁ : CDir ν κ := { setKept (new frag d.isAuth) d with
    complete := d.complete
    replicaMap := d.replicaMap
    version := d.version
    freeze := z } with hf₁
  have hraw : Raw true f₁ := ⟨hcalm, fun _ => rfl, rfl⟩
  obtain ⟨pins, hpins, hchild, hown⟩ := hraw.initPins
  have hset : CDir.setDirAuth { f₁ with pins := pins } i d.freeze.dirAuth = .ok { f₁ with pins := pins } :=
    bind_ok.mpr ⟨z, setDirAuth_same i.surroundings z, rfl⟩
  have hsound : Sound 0 replay (CDir.prepareNewFragment { f₁ with pins := pins } replay) :=
    hraw.prepare rfl h hown
  obtain ⟨hauth, -, hnest, hdir⟩ := doFreezeDir_keeps z (!replay && z.isAuth)
  refine ⟨CDir.prepareNewFragment { f₁ with pins := pins } replay, ?_, ?_⟩
  · have hinit : { CDir.initFragmentPins { f₁ with version := 0 } with version := d.version } =
        { f₁ with pins := pins } := by
      rw [← hpins]
      simp only [initFragmentPins, getIf_eq]
      rfl
    rw [subfrag]
    exact bind_ok.mpr ⟨_, (congrArg (fun x : CDir ν κ => x.setDirAuth i d.freeze.dirAuth) hinit).trans hset, rfl⟩
  · rw [prepareNewFragment_eq] at hsound ⊢
    refine ⟨rfl, hauth, rfl, hsound, held_empty rfl hchild hnest hdir, ⟨rfl, rfl, rfl, rfl, rfl⟩, ⟨?_, ?_⟩⟩
    · exact (Writes.total_empty _).symm
    · exact (Writes.total_empty _).symm

end CDir

end CephMds.Refragment
