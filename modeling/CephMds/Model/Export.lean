import CephMds.Framework.Check
import CephMds.Model.DentryKey

/-!
# Export and import of a dirfrag

`encode_export`, `finish_export` and `decode_import` of `CDir`, with
`mark_clean` and `clear_replica_map`, which the migrator calls before
`finish_export`, and `subtract_export` and `add_import` of the balancer. A
`Codec` is an encoder whose decoder inverts it; a buffer is a list of what the
encoders write, of type `β`. No time passes, so the counters of a load vector
are numbers. Of the log segment only the locks that are marked updated are
recorded.
-/

namespace CephMds.Export

open Checked Dentries

/-! ## Encoders -/

/-- An encoder with its decoder, which leaves what follows. -/
structure Codec (β α : Type) where
  encode : α → List β
  decode : List β → Option (α × List β)
  decode_encode : ∀ a rest, decode (encode a ++ rest) = some (a, rest)

/-- Decodes the next value, which has to be there. -/
def Codec.take {β α : Type} (c : Codec β α) (bl : List β) : Checked (α × List β) := deref (c.decode bl)

theorem Codec.take_encode {β α : Type} (c : Codec β α) (a : α) (rest : List β) :
    c.take (c.encode a ++ rest) = .ok (a, rest) := by
  rw [Codec.take, c.decode_encode]
  rfl

/-! ## Data -/

/-- The kinds of load, `META_POP_*`. -/
inductive LoadType
  | ird
  | iwr
  | readdir
  | fetch
  | store
  deriving DecidableEq

/-- `dirfrag_load_vec_t`. -/
abbrev Load := LoadType → ℚ

/-- The bits of `state`. -/
inductive StateBit
  | auth | dirty | notifyRef | rejoining | rejoinUndef
  | complete | frozenTree | freezingTree | frozenDir | freezingDir | committing | fetching
  | importBound | exportBound | exporting | importing | fragmenting | sticky | dnPinnedFrag
  | assimRstat | dirtyDft | badFrag
  deriving DecidableEq

open StateBit

/-- `MASK_STATE_EXPORTED`. -/
def maskStateExported : Finset StateBit := {complete, dirty, dirtyDft, badFrag}

/-- `MASK_STATE_IMPORT_KEPT`. -/
def maskStateImportKept : Finset StateBit := {importing, importBound, exportBound, frozenTree, sticky}

/-- `MASK_STATE_EXPORT_KEPT`. -/
def maskStateExportKept : Finset StateBit := {exporting, importBound, exportBound, frozenTree, frozenDir, sticky}

/-- The pins that are taken here, and the others by their number. -/
inductive Pin
  | dirty
  | replicated
  | tempExporting
  | other (n : ℕ)
  deriving DecidableEq

/-- `fnode_t`; the statistics are compared, and the rest is only carried. -/
structure Fnode (φ : Type) where
  version : ℕ
  rstat : φ
  accountedRstat : φ
  fragstat : φ
  accountedFragstat : φ
  rest : φ
  deriving DecidableEq

/-- The locks of the inode that may be marked updated. -/
inductive ScatterLock
  | nestlock
  | filelock
  | dirfragtreelock
  deriving DecidableEq

structure CDir (φ ω : Type) where
  first : Snapid
  fnode : Fnode φ
  projectedFnodes : ℕ
  dirtyOldRstat : List (Snapid × ω)
  projectedVersion : ℕ
  committingVersion : ℕ
  committedVersion : ℕ
  state : Finset StateBit
  dirRep : ℤ
  dirRepBy : Finset ℤ
  popMe : Load
  popAuthSubtree : Load
  popAuthSubtreeNested : Load
  replicaMap : List (ℕ × ℕ)
  replicaNonce : ℕ
  pins : Pin → ℕ
  /-- `mark_updated_scatterlock`. -/
  updated : Finset ScatterLock

/-- What is encoded. -/
structure Encoders (β φ ω : Type) where
  snapid : Codec β Snapid
  fnode : Codec β (Fnode φ)
  oldRstat : Codec β (List (Snapid × ω))
  version : Codec β ℕ
  state : Codec β (Finset StateBit)
  dirRep : Codec β ℤ
  load : Codec β Load
  repBy : Codec β (Finset ℤ)
  replicaMap : Codec β (List (ℕ × ℕ))

/-! ## The dirfrag -/

namespace CDir

variable {β φ ω : Type} (d : CDir φ ω)

def get (p : Pin) : CDir φ ω := { d with pins := Function.update d.pins p (d.pins p + 1) }

def put (p : Pin) : Checked (CDir φ ω) := do
  assert (0 < d.pins p)
  pure { d with pins := Function.update d.pins p (d.pins p - 1) }

/-- `CDir::encode_export`. -/
def encodeExport (enc : Encoders β φ ω) : Checked (List β × CDir φ ω) := do
  assert (d.projectedFnodes == 0)
  let bl := enc.snapid.encode d.first ++ (enc.fnode.encode d.fnode ++ (enc.oldRstat.encode d.dirtyOldRstat ++
    (enc.version.encode d.committedVersion ++ (enc.state.encode d.state ++ (enc.dirRep.encode d.dirRep ++
      (enc.load.encode d.popMe ++ (enc.load.encode d.popAuthSubtree ++ (enc.repBy.encode d.dirRepBy ++
        (enc.replicaMap.encode d.replicaMap ++ [])))))))))
  pure (bl, d.get .tempExporting)

/-- `CDir::mark_clean`. -/
def markClean : Checked (CDir φ ω) :=
  if dirty ∈ d.state then { d with state := d.state.erase dirty }.put .dirty else pure d

/-- `clear_replica_map`. -/
def clearReplicaMap : Checked (CDir φ ω) :=
  if d.replicaMap.isEmpty then pure d
  else do
    let d ← d.put .replicated
    pure { d with replicaMap := [] }

/-- `CDir::finish_export`. -/
def finishExport : Checked (CDir φ ω) := do
  let d ← { d with
    state := d.state ∩ maskStateExportKept
    popAuthSubtreeNested := d.popAuthSubtreeNested - d.popAuthSubtree
    popMe := 0
    popAuthSubtree := 0 }.put .tempExporting
  pure { d with dirtyOldRstat := [] }

/-- The state of the dirfragtreelock of the importer. -/
structure Lock where
  mix : Bool
  stable : Bool

/-- `CDir::_mark_dirty`, of a dirfrag that is dirty or becomes so. -/
def _markDirty : CDir φ ω := if dirty ∈ d.state then d else { d with state := insert dirty d.state }.get .dirty

variable [DecidableEq φ]

/-- A dirty dirfragtree that the lock shows to be stale. -/
def staleDirtyDft (lock : Lock) : Bool := dirtyDft ∈ d.state && !lock.mix && lock.stable

/-- "Did we import some dirty scatterlock data?" -/
def markUpdated (lock : Lock) : CDir φ ω :=
  { d with
    updated := d.updated ∪
      (if !d.dirtyOldRstat.isEmpty || d.fnode.rstat != d.fnode.accountedRstat then {.nestlock} else ∅) ∪
      (if d.fnode.fragstat != d.fnode.accountedFragstat then {.filelock} else ∅) ∪
      (if dirtyDft ∈ d.state && !d.staleDirtyDft lock then {.dirfragtreelock} else ∅)
    state := if d.staleDirtyDft lock then d.state.erase dirtyDft else d.state }

/-- `CDir::decode_import`. -/
def decodeImport (enc : Encoders β φ ω) (lock : Lock) (bl : List β) : Checked (CDir φ ω) := do
  let (first, bl) ← enc.snapid.take bl
  let (fnode, bl) ← enc.fnode.take bl
  let (dirtyOldRstat, bl) ← enc.oldRstat.take bl
  let d := { d with
    first := first
    fnode := fnode
    dirtyOldRstat := dirtyOldRstat
    projectedVersion := fnode.version }
  let (committedVersion, bl) ← enc.version.take bl
  let (s, bl) ← enc.state.take bl
  let d := { d with
    committedVersion := committedVersion
    committingVersion := committedVersion
    state := (d.state ∩ maskStateImportKept) ∪ (s ∩ maskStateExported) }
  let d := if dirty ∈ d.state then (d.get .dirty)._markDirty else d
  let (dirRep, bl) ← enc.dirRep.take bl
  let (popMe, bl) ← enc.load.take bl
  let (popAuthSubtree, bl) ← enc.load.take bl
  let (dirRepBy, bl) ← enc.repBy.take bl
  let (replicaMap, _) ← enc.replicaMap.take bl
  let d := { d with
    dirRep := dirRep
    popMe := popMe
    popAuthSubtree := popAuthSubtree
    popAuthSubtreeNested := d.popAuthSubtreeNested + popAuthSubtree
    dirRepBy := dirRepBy
    replicaMap := replicaMap }
  let d := if !replicaMap.isEmpty then d.get .replicated else d
  pure ({ d with replicaNonce := 0 }.markUpdated lock)

end CDir

/-! ## The load -/

/-- The counters of an ancestor that include what is below it. -/
structure Nested where
  popNested : Load
  popAuthSubtreeNested : Load

/-- A dirfrag with its ancestors, the nearest first. -/
structure Side (φ ω : Type) where
  dir : CDir φ ω
  ancestors : List Nested

variable {β φ ω : Type}

/-- `MDBalancer::subtract_export`. -/
def Side.subtractExport (x : Side φ ω) : Side φ ω :=
  { x with ancestors := x.ancestors.map fun a =>
    ⟨a.popNested - x.dir.popAuthSubtree, a.popAuthSubtreeNested - x.dir.popAuthSubtree⟩ }

/-- `MDBalancer::add_import`. -/
def Side.addImport (x : Side φ ω) : Side φ ω :=
  { x with ancestors := x.ancestors.map fun a =>
    ⟨a.popNested + x.dir.popAuthSubtree, a.popAuthSubtreeNested + x.dir.popAuthSubtree⟩ }

/-! ## Migration -/

/-- The exporter encodes. -/
def Side.encodeExport (enc : Encoders β φ ω) (x : Side φ ω) : Checked (List β × Side φ ω) := do
  let x := x.subtractExport
  let (bl, d) ← x.dir.encodeExport enc
  pure (bl, { x with dir := d })

/-- The importer decodes. -/
def Side.decodeImport [DecidableEq φ] (enc : Encoders β φ ω) (lock : CDir.Lock) (bl : List β) (y : Side φ ω) :
    Checked (Side φ ω) := do
  let d ← y.dir.decodeImport enc lock bl
  pure { y with dir := d }.addImport

/-- The exporter finishes. -/
def Side.finishExport (x : Side φ ω) : Checked (Side φ ω) := do
  let d ← x.dir.markClean
  let d ← d.clearReplicaMap
  let d ← d.finishExport
  pure { x with dir := d }

/-- The migration of a dirfrag: the exporter and the importer after it. -/
def migrate [DecidableEq φ] (enc : Encoders β φ ω) (lock : CDir.Lock) (x y : Side φ ω) :
    Checked (Side φ ω × Side φ ω) := do
  let (bl, x) ← x.encodeExport enc
  let y ← y.decodeImport enc lock bl
  let x ← x.finishExport
  pure (x, y)

end CephMds.Export
