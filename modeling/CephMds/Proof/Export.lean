import CephMds.Model.Export

/-!
# A dirfrag is moved without loss

What the importer decodes is what the exporter has encoded
(`decodeImport_encodeExport`), and it takes the pins that go with it, once
each. The exporter gives up its pins, its flags and its load
(`finishExport_ok`).
-/

namespace CephMds.Export

open Checked Dentries StateBit

variable {β φ ω : Type}

namespace CDir

/-- The dirfrag `d` with what it takes over from `x`. -/
def takeOver (x d : CDir φ ω) : CDir φ ω where
  first := x.first
  fnode := x.fnode
  projectedFnodes := d.projectedFnodes
  dirtyOldRstat := x.dirtyOldRstat
  projectedVersion := x.fnode.version
  committingVersion := x.committedVersion
  committedVersion := x.committedVersion
  state := (d.state ∩ maskStateImportKept) ∪ (x.state ∩ maskStateExported)
  dirRep := x.dirRep
  dirRepBy := x.dirRepBy
  popMe := x.popMe
  popAuthSubtree := x.popAuthSubtree
  popAuthSubtreeNested := d.popAuthSubtreeNested + x.popAuthSubtree
  replicaMap := x.replicaMap
  replicaNonce := 0
  pins := fun p =>
    match p with
    | .dirty => d.pins .dirty + if dirty ∈ x.state then 1 else 0
    | .replicated => d.pins .replicated + if x.replicaMap.isEmpty then 0 else 1
    | p => d.pins p
  updated := d.updated

theorem dirty_mem_takeOver (x d : CDir φ ω) :
    dirty ∈ (d.state ∩ maskStateImportKept) ∪ (x.state ∩ maskStateExported) ↔ dirty ∈ x.state := by
  have hk : dirty ∉ maskStateImportKept := by decide
  have he : dirty ∈ maskStateExported := by decide
  simp [hk, he]

theorem _markDirty_of_mem {d : CDir φ ω} (h : dirty ∈ d.state) : d._markDirty = d := if_pos h

theorem decodeImport_encodeExport [DecidableEq φ] (enc : Encoders β φ ω) (lock : Lock) {x : CDir φ ω}
    (hx : x.projectedFnodes = 0) (d : CDir φ ω) : ∃ bl, x.encodeExport enc = .ok (bl, x.get .tempExporting) ∧
      d.decodeImport enc lock bl = .ok ((takeOver x d).markUpdated lock) := by
  refine ⟨_, by rw [encodeExport, hx]; rfl, ?_⟩
  simp only [decodeImport, Codec.take_encode, bind, Except.bind, pure, Except.pure, Except.ok.injEq]
  congr 1
  simp only [dirty_mem_takeOver]
  by_cases hd : dirty ∈ x.state <;> cases hr : x.replicaMap.isEmpty
  all_goals
    simp only [hd, if_true, if_false, Bool.not_true, Bool.not_false, Bool.false_eq_true, takeOver, get]
    try rw [_markDirty_of_mem ((dirty_mem_takeOver x d).mpr hd)]
    congr 1
    funext p
    cases p <;> simp [hr]

/-! ## The pins -/

/-- The pins of the authority are those of its state. -/
structure Pinned (d : CDir φ ω) : Prop where
  dirty : d.pins .dirty = if StateBit.dirty ∈ d.state then 1 else 0
  replicated : d.pins .replicated = if d.replicaMap.isEmpty then 0 else 1

/-- A replica is clean and has no replicas of its own. -/
structure Replica (d : CDir φ ω) : Prop where
  dirty : d.pins .dirty = 0
  replicated : d.pins .replicated = 0

/-- The exporter gives everything up. -/
def giveUp (x : CDir φ ω) : CDir φ ω :=
  { x with
    state := x.state ∩ maskStateExportKept
    popAuthSubtreeNested := x.popAuthSubtreeNested - x.popAuthSubtree
    popMe := 0
    popAuthSubtree := 0
    replicaMap := []
    dirtyOldRstat := []
    pins := fun p =>
      match p with
      | .dirty => 0
      | .replicated => 0
      | p => x.pins p }

theorem markClean_ok {x : CDir φ ω} (h : Pinned x) :
    x.markClean = .ok { x with state := x.state.erase dirty, pins := Function.update x.pins .dirty 0 } := by
  have hp := h.dirty
  rw [markClean]
  split
  · rename_i hd
    rw [if_pos hd] at hp
    rw [put, hp]
    rfl
  · rename_i hd
    rw [if_neg hd] at hp
    rw [pure_ok, Finset.erase_eq_of_notMem hd, ← hp, Function.update_eq_self]

theorem clearReplicaMap_ok {x : CDir φ ω} (h : x.pins .replicated = if x.replicaMap.isEmpty then 0 else 1) :
    x.clearReplicaMap = .ok { x with replicaMap := [], pins := Function.update x.pins .replicated 0 } := by
  rw [clearReplicaMap]
  split
  · rename_i he
    rw [if_pos he] at h
    rw [pure_ok, ← h, Function.update_eq_self, ← List.isEmpty_iff.mp he]
  · rename_i he
    rw [if_neg he] at h
    rw [put, h]
    rfl

theorem erase_inter_exportKept (s : Finset StateBit) :
    s.erase dirty ∩ maskStateExportKept = s ∩ maskStateExportKept := by
  have hk : dirty ∉ maskStateExportKept := by decide
  ext b
  simp only [Finset.mem_inter, Finset.mem_erase]
  constructor
  · rintro ⟨⟨-, hs⟩, hb⟩
    exact ⟨hs, hb⟩
  · rintro ⟨hs, hb⟩
    refine ⟨⟨?_, hs⟩, hb⟩
    rintro rfl
    exact hk hb

/-- What the exporter does after it has encoded. -/
theorem finish_ok {x : CDir φ ω} (h : Pinned x) :
    (do
      let d ← (x.get .tempExporting).markClean
      let d ← d.clearReplicaMap
      d.finishExport) = .ok x.giveUp := by
  have hget : Pinned (x.get .tempExporting) := ⟨h.dirty, h.replicated⟩
  rw [bind_ok]
  refine ⟨_, markClean_ok hget, ?_⟩
  rw [bind_ok]
  refine ⟨_, clearReplicaMap_ok h.replicated, ?_⟩
  simp only [finishExport, put, bind_ok, assert_ok, pure_ok]
  refine ⟨_, ⟨(), ?_, rfl⟩, ?_⟩
  · simp [get]
  · simp only [giveUp, get, erase_inter_exportKept]
    congr 1
    funext p
    cases p <;> simp

/-- Of the flags only a stale dirty dirfragtree is cleared. -/
theorem mem_markUpdated [DecidableEq φ] (lock : Lock) (d : CDir φ ω) (b : StateBit) :
    b ∈ (d.markUpdated lock).state ↔ b ∈ d.state ∧ (b = dirtyDft → lock.mix = true ∨ lock.stable = false) := by
  show b ∈ (if d.staleDirtyDft lock then d.state.erase dirtyDft else d.state) ↔ _
  split
  · rename_i hs
    simp only [staleDirtyDft, Bool.and_eq_true, Bool.not_eq_eq_eq_not, Bool.not_true, decide_eq_true_eq] at hs
    rw [Finset.mem_erase, hs.1.2, hs.2]
    simp [and_comm]
  · rename_i hs
    simp only [staleDirtyDft, Bool.and_eq_true, Bool.not_eq_eq_eq_not, Bool.not_true, decide_eq_true_eq,
      not_and, Bool.not_eq_true] at hs
    refine ⟨fun hb => ⟨hb, fun he => ?_⟩, fun hb => hb.1⟩
    cases hm : lock.mix with
    | true => exact .inl rfl
    | false => exact .inr (hs ⟨he ▸ hb, hm⟩)

end CDir

open CDir

/-! ## Migration -/

/-- The exporter `x` and the importer `y` have become `x'` and `y'`. -/
structure Moved (lock : Lock) (x y x' y' : Side φ ω) : Prop where
  first : y'.dir.first = x.dir.first
  fnode : y'.dir.fnode = x.dir.fnode
  dirtyOldRstat : y'.dir.dirtyOldRstat = x.dir.dirtyOldRstat ∧ x'.dir.dirtyOldRstat = []
  versions : y'.dir.committedVersion = x.dir.committedVersion ∧ y'.dir.committingVersion = x.dir.committedVersion ∧
    y'.dir.projectedVersion = x.dir.fnode.version
  dirRep : y'.dir.dirRep = x.dir.dirRep ∧ y'.dir.dirRepBy = x.dir.dirRepBy
  replicaMap : y'.dir.replicaMap = x.dir.replicaMap ∧ x'.dir.replicaMap = []
  flags : ∀ b ∈ maskStateExported, b ≠ dirtyDft → (b ∈ y'.dir.state ↔ b ∈ x.dir.state)
  dirtyDft : StateBit.dirtyDft ∈ y'.dir.state ↔
    StateBit.dirtyDft ∈ x.dir.state ∧ (lock.mix = true ∨ lock.stable = false)
  gone : ∀ b ∈ maskStateExported, b ∉ x'.dir.state
  importerPins : ∀ p, y'.dir.pins p = match p with
    | .dirty => if StateBit.dirty ∈ y'.dir.state then 1 else 0
    | .replicated => if y'.dir.replicaMap.isEmpty then 0 else 1
    | p => y.dir.pins p
  exporterPins : ∀ p, x'.dir.pins p = match p with
    | .dirty => 0
    | .replicated => 0
    | p => x.dir.pins p
  load : y'.dir.popMe = x.dir.popMe ∧ y'.dir.popAuthSubtree = x.dir.popAuthSubtree ∧
    y'.dir.popAuthSubtreeNested = y.dir.popAuthSubtreeNested + x.dir.popAuthSubtree ∧
    x'.dir.popMe = 0 ∧ x'.dir.popAuthSubtree = 0 ∧
    x'.dir.popAuthSubtreeNested = x.dir.popAuthSubtreeNested - x.dir.popAuthSubtree
  ancestors : y'.ancestors = y.ancestors.map (fun a =>
      ⟨a.popNested + x.dir.popAuthSubtree, a.popAuthSubtreeNested + x.dir.popAuthSubtree⟩) ∧
    x'.ancestors = x.ancestors.map (fun a =>
      ⟨a.popNested - x.dir.popAuthSubtree, a.popAuthSubtreeNested - x.dir.popAuthSubtree⟩)

/-- A dirfrag is exported and imported without loss. -/
theorem migrate_moved [DecidableEq φ] (enc : Encoders β φ ω) (lock : Lock) {x y : Side φ ω}
    (hp : x.dir.projectedFnodes = 0) (hx : Pinned x.dir) (hy : Replica y.dir) :
    ∃ x' y', migrate enc lock x y = .ok (x', y') ∧ Moved lock x y x' y' := by
  obtain ⟨bl, henc, hdec⟩ := decodeImport_encodeExport enc lock hp y.dir
  set d := (takeOver x.dir y.dir).markUpdated lock with hd
  refine ⟨⟨x.dir.giveUp, x.subtractExport.ancestors⟩, { y with dir := d }.addImport, ?_, ?_⟩
  · have hfinish := finish_ok hx
    simp only [bind_ok] at hfinish
    obtain ⟨d₁, h₁, d₂, h₂, h₃⟩ := hfinish
    simp only [migrate, Side.encodeExport, Side.decodeImport, Side.finishExport, Side.subtractExport, bind_ok, pure_ok,
      Prod.exists]
    exact ⟨bl, _, ⟨bl, _, henc, rfl⟩, _, ⟨d, hdec, rfl⟩, _, ⟨d₁, h₁, d₂, h₂, _, h₃, rfl⟩, rfl⟩
  have hflag : ∀ b ∈ maskStateExported,
      (b ∈ (y.dir.state ∩ maskStateImportKept) ∪ (x.dir.state ∩ maskStateExported) ↔ b ∈ x.dir.state) := by
    intro b hb
    have hk : ∀ b ∈ maskStateExported, b ∉ maskStateImportKept := by decide
    simp [hk b hb, hb]
  have hstate : ∀ b ∈ maskStateExported, (b ∈ d.state ↔ b ∈ x.dir.state ∧
      (b = StateBit.dirtyDft → lock.mix = true ∨ lock.stable = false)) := by
    intro b hb
    rw [hd, mem_markUpdated]
    exact and_congr_left' (hflag b hb)
  refine ⟨rfl, rfl, ⟨rfl, rfl⟩, ⟨rfl, rfl, rfl⟩, ⟨rfl, rfl⟩, ⟨rfl, rfl⟩, ?_, ?_, ?_, ?_, ?_, ?_, ?_⟩
  · intro b hb hne
    exact (hstate b hb).trans (by simp [hne])
  · exact (hstate _ (by decide)).trans (by simp)
  · intro b hb hmem
    have hk : ∀ b ∈ maskStateExported, b ∉ maskStateExportKept := by decide
    exact hk b hb (Finset.mem_inter.mp hmem).2
  · intro p
    have hdirty := hstate StateBit.dirty (by decide)
    cases p with
    | dirty =>
      show y.dir.pins .dirty + _ = _
      rw [hy.dirty, Nat.zero_add]
      exact if_congr (hdirty.trans (by simp)).symm rfl rfl
    | replicated =>
      show y.dir.pins .replicated + _ = _
      rw [hy.replicated, Nat.zero_add]
      rfl
    | tempExporting => rfl
    | other n => rfl
  · intro p
    cases p <;> rfl
  · exact ⟨rfl, rfl, rfl, rfl, rfl, rfl⟩
  · exact ⟨rfl, rfl⟩

/-! ## One migration -/

/-- A buffer whose elements are whole values. -/
inductive Chunk
  | snapid (x : Snapid)
  | fnode (x : Fnode ℕ)
  | oldRstat (x : List (Snapid × ℕ))
  | version (x : ℕ)
  | state (x : Finset StateBit)
  | dirRep (x : ℤ)
  | load (x : Load)
  | repBy (x : Finset ℤ)
  | replicaMap (x : List (ℕ × ℕ))

/-- The encoder of values that are chunks of their own. -/
def Codec.chunk {α : Type} (inj : α → Chunk) (prj : Chunk → Option α) (h : ∀ a, prj (inj a) = some a) :
    Codec Chunk α where
  encode a := [inj a]
  decode
    | [] => none
    | x :: rest => (prj x).map fun a => (a, rest)
  decode_encode a rest := by
    show (prj (inj a)).map (fun a => (a, rest)) = _
    rw [h]
    rfl

def chunks : Encoders Chunk ℕ ℕ where
  snapid := .chunk .snapid (fun | .snapid x => some x | _ => none) fun _ => rfl
  fnode := .chunk .fnode (fun | .fnode x => some x | _ => none) fun _ => rfl
  oldRstat := .chunk .oldRstat (fun | .oldRstat x => some x | _ => none) fun _ => rfl
  version := .chunk .version (fun | .version x => some x | _ => none) fun _ => rfl
  state := .chunk .state (fun | .state x => some x | _ => none) fun _ => rfl
  dirRep := .chunk .dirRep (fun | .dirRep x => some x | _ => none) fun _ => rfl
  load := .chunk .load (fun | .load x => some x | _ => none) fun _ => rfl
  repBy := .chunk .repBy (fun | .repBy x => some x | _ => none) fun _ => rfl
  replicaMap := .chunk .replicaMap (fun | .replicaMap x => some x | _ => none) fun _ => rfl

/-- A dirfrag that is dirty and replicated, and one that is neither. -/
def oneDir (auth : Bool) : CDir ℕ ℕ where
  first := 2
  fnode := ⟨if auth then 7 else 3, 1, 1, 1, 1, 0⟩
  projectedFnodes := 0
  dirtyOldRstat := []
  projectedVersion := if auth then 8 else 3
  committingVersion := if auth then 6 else 0
  committedVersion := if auth then 6 else 0
  state := if auth then {.auth, .dirty, .complete, .dirtyDft, .exporting, .frozenTree} else {.importing}
  dirRep := 0
  dirRepBy := ∅
  popMe := fun _ => if auth then 3 else 0
  popAuthSubtree := fun _ => if auth then 5 else 0
  popAuthSubtreeNested := fun _ => if auth then 9 else 0
  replicaMap := if auth then [(2, 1)] else []
  replicaNonce := 0
  pins
    | .dirty => auth.toNat
    | .replicated => auth.toNat
    | _ => 0
  updated := ∅

def oneSide (auth : Bool) : Side ℕ ℕ := ⟨oneDir auth, [⟨fun _ => 20, fun _ => 20⟩]⟩

/-- The dirfrag is moved while the dirfragtreelock is in `LOCK_MIX`. -/
theorem migrate_moved_one : ∃ x' y', migrate chunks ⟨true, true⟩ (oneSide true) (oneSide false) = .ok (x', y') ∧
    Moved ⟨true, true⟩ (oneSide true) (oneSide false) x' y' ∧ y'.dir.pins .dirty = 1 ∧ x'.dir.pins .dirty = 0 := by
  obtain ⟨x', y', h, hm⟩ := migrate_moved chunks ⟨true, true⟩ (x := oneSide true) (y := oneSide false) rfl
    ⟨rfl, rfl⟩ ⟨rfl, rfl⟩
  refine ⟨x', y', h, hm, ?_, hm.exporterPins .dirty⟩
  have hd := (hm.flags StateBit.dirty (by decide) (by decide)).mpr (by decide)
  rw [hm.importerPins .dirty]
  exact if_pos hd

/-- The flag of a dirty dirfragtree is not moved when the lock is stable. -/
theorem not_moved_dirtyDft : StateBit.dirtyDft ∈ maskStateExported ∧ StateBit.dirtyDft ∈ (oneSide true).dir.state ∧
    ∃ p, migrate chunks ⟨false, true⟩ (oneSide true) (oneSide false) = .ok p ∧
      StateBit.dirtyDft ∉ p.2.dir.state := by
  refine ⟨by decide, by decide, _, rfl, ?_⟩
  decide

end CephMds.Export
