import CephMds.Framework.Totals
import CephMds.Model.Refragment
import CephMds.Proof.DentryKey
import CephMds.Proof.Freeze.Accounting

/-!
# A dentry is stolen

`Held` says of a dirfrag that its items have their own keys and that `PIN_CHILD`
and the nested auth pins are those of its items, `Counted` that its counters are,
`Summed` that its statistics are. `steal_dentry` takes a dentry out
of a dirfrag that is `Held` and adds it to one that is all of this
(`stealDentry_eq`); of both it changes nothing else (`frame`).
-/

namespace CephMds.Refragment

open Checked Dentries Writes Stat

/-! ## What a dentry counts for -/

namespace Dentry

def isNull (dn : Dentry) : Bool :=
  match dn.linkage with
  | .null => true
  | _ => false

/-- A kind of dentries. -/
def isKind (head null : Bool) (dn : Dentry) : Bool := dn.isHead == head && dn.isNull == null

/-- The auth pins of the dentry and below it. -/
def cumAuthPins (dn : Dentry) : ℤ := dn.authPins + dn.nestedAuthPins

/-- A file or a directory, if the dentry is a head dentry with an inode. -/
def fragCount (dn : Dentry) : FragCount :=
  if dn.isHead then
    match dn.linkage with
    | .null => 0
    | .primary inode => if inode.isDir then (0, 1) else (1, 0)
    | .remote _ dType => if dType == dtDir then (0, 1) else (1, 0)
  else 0

/-- The inode of a primary head dentry. -/
def headInode (dn : Dentry) : Option CInode :=
  match dn.linkage with
  | .primary inode => if dn.isHead then some inode else none
  | _ => none

/-- What the inode has accounted, if the dentry is a primary head dentry. -/
def nestCount (dn : Dentry) : NestCount :=
  match dn.headInode with
  | some inode => inode.projectedRstat.count
  | none => 0

/-- The recursive ctime that it has accounted. -/
def rctime (dn : Dentry) : ℕ :=
  match dn.headInode with
  | some inode => inode.projectedRstat.rctime
  | none => 0

end Dentry

namespace CDir

variable {ν κ : Type}

/-! ## What a dirfrag has of its items -/

structure Held (d : CDir ν κ) : Prop where
  keyed {k : Key} {dn : Dentry} : d.items[k]? = some dn → dn.key = k
  dirPins {k : Key} {dn : Dentry} : d.items[k]? = some dn → dn.dirAuthPins ≤ dn.authPins + dn.nestedAuthPins
  child : d.pins .child = if d.items.isEmpty then 0 else 1
  nestedAuthPins : d.freeze.nestedAuthPins = total Dentry.cumAuthPins d.items
  dirAuthPins : d.freeze.dirAuthPins = total (fun dn => (dn.dirAuthPins : ℤ)) d.items

structure Counted (d : CDir ν κ) : Prop where
  headItems : d.numHeadItems = tally (Dentry.isKind true false) d.items
  headNull : d.numHeadNull = tally (Dentry.isKind true true) d.items
  snapItems : d.numSnapItems = tally (Dentry.isKind false false) d.items
  snapNull : d.numSnapNull = tally (Dentry.isKind false true) d.items
  dirty : d.numDirty = tally Dentry.dirty d.items

structure Summed (d : CDir ν κ) : Prop where
  fragstat : d.fnode.fragstat.count = total Dentry.fragCount d.items
  rstat : d.fnode.rstat.count = total Dentry.nestCount d.items

/-- The time stamps are what counting the items makes of them: no modification time, and the latest
recursive ctime. -/
structure Stamped (d : CDir ν κ) : Prop where
  mtime : d.fnode.fragstat.mtime = 0
  rctime (t : ℕ) : d.fnode.rstat.rctime ≤ t ↔ ∀ (k : Key) (dn : Dentry), d.items[k]? = some dn → dn.rctime ≤ t

/-- Nothing is about to freeze. -/
def Quiet (d : CDir ν κ) : Prop := d.freeze.freezingDir = false ∧ d.freeze.freezingTree = false

/-- The dirfrag without what `steal_dentry` changes. -/
def frame (d : CDir ν κ) : CDir ν κ :=
  { d with
    items := ∅
    numHeadItems := 0
    numHeadNull := 0
    numSnapItems := 0
    numSnapNull := 0
    numDirty := 0
    fnode.fragstat.count := 0
    fnode.rstat.rctime := 0
    fnode.rstat.count := 0
    dirtyRstatInodes := []
    pins := Function.update d.pins .child 0
    freeze.nestedAuthPins := 0
    freeze.dirAuthPins := 0
    freeze.calls := [] }

variable {d old : CDir ν κ} {i : Diri} {k : Key} {dn : Dentry}

/-! ## The counters -/

@[simp] theorem countEntry_frame (d : CDir ν κ) (b : Bool) : (d.countEntry b).frame = d.frame := rfl

theorem countInode_frame (d : CDir ν κ) (inode : CInode) : (d.countInode inode).frame = d.frame := by
  rw [countInode]
  split <;> rfl

theorem countDentry_frame (d : CDir ν κ) (dn : Dentry) : (d.countDentry dn).frame = d.frame := by
  rw [countDentry]
  cases dn.linkage with
  | null => cases dn.isHead <;> rfl
  | remote ino dType => cases dn.isHead <;> rfl
  | primary inode =>
    cases dn.isHead
    · rfl
    · exact countInode_frame _ inode

/-- The rest of what `countDentry` leaves as it is. -/
theorem countDentry_keeps (d : CDir ν κ) (dn : Dentry) : (d.countDentry dn).items = d.items ∧
    (d.countDentry dn).pins = d.pins ∧ (d.countDentry dn).freeze = d.freeze ∧
    (d.countDentry dn).numDirty = d.numDirty := by
  have hinode : ∀ (d : CDir ν κ) inode, (d.countInode inode).items = d.items ∧ (d.countInode inode).pins = d.pins ∧
      (d.countInode inode).freeze = d.freeze ∧ (d.countInode inode).numDirty = d.numDirty := by
    intro d inode
    rw [countInode]
    split <;> exact ⟨rfl, rfl, rfl, rfl⟩
  rw [countDentry]
  cases dn.linkage with
  | null => cases dn.isHead <;> exact ⟨rfl, rfl, rfl, rfl⟩
  | remote ino dType => cases dn.isHead <;> exact ⟨rfl, rfl, rfl, rfl⟩
  | primary inode =>
    cases dn.isHead
    · exact ⟨rfl, rfl, rfl, rfl⟩
    · exact hinode _ inode

/-- The counters and the statistics after a dentry. -/
theorem countDentry_counts (d : CDir ν κ) (dn : Dentry) :
    (d.countDentry dn).numHeadItems = d.numHeadItems + (Dentry.isKind true false dn).toNat ∧
    (d.countDentry dn).numHeadNull = d.numHeadNull + (Dentry.isKind true true dn).toNat ∧
    (d.countDentry dn).numSnapItems = d.numSnapItems + (Dentry.isKind false false dn).toNat ∧
    (d.countDentry dn).numSnapNull = d.numSnapNull + (Dentry.isKind false true dn).toNat ∧
    (d.countDentry dn).fnode.fragstat.count = d.fnode.fragstat.count + dn.fragCount ∧
    (d.countDentry dn).fnode.rstat.count = d.fnode.rstat.count + dn.nestCount := by
  simp only [countDentry, Dentry.isKind, Dentry.isNull, Dentry.fragCount, Dentry.nestCount, Dentry.headInode]
  cases dn.linkage with
  | null => cases dn.isHead <;> simp
  | remote ino dType => cases dn.isHead <;> simp [countEntry]
  | primary inode =>
    cases dn.isHead
    · simp
    · cases hd : inode.dirtyRstat <;> simp [countInode, countEntry, NestInfo.add, hd]

/-- The time stamps after a dentry. -/
theorem countDentry_stamps (d : CDir ν κ) (dn : Dentry) :
    (d.countDentry dn).fnode.fragstat.mtime = d.fnode.fragstat.mtime ∧
    (d.countDentry dn).fnode.rstat.rctime = max d.fnode.rstat.rctime dn.rctime := by
  simp only [countDentry, Dentry.rctime, Dentry.headInode]
  cases dn.linkage with
  | null => cases dn.isHead <;> simp
  | remote ino dType => cases dn.isHead <;> simp [countEntry]
  | primary inode =>
    cases dn.isHead
    · simp
    · cases hd : inode.dirtyRstat <;> simp [countInode, countEntry, NestInfo.add, hd]

theorem dropDirtyRstat_eq (d : CDir ν κ) (dn : Dentry) :
    ∃ inos, d.dropDirtyRstat dn = { d with dirtyRstatInodes := inos } := by
  rw [dropDirtyRstat]
  cases dn.linkage with
  | null => exact ⟨d.dirtyRstatInodes, rfl⟩
  | remote ino dType => exact ⟨d.dirtyRstatInodes, rfl⟩
  | primary inode =>
    dsimp only
    split
    · exact ⟨_, rfl⟩
    · exact ⟨d.dirtyRstatInodes, rfl⟩

/-! ## The step -/

/-- The dirfrag with one dentry more. -/
def gain (d : CDir ν κ) (dn : Dentry) (calls : List Freeze.InodeCall) : CDir ν κ :=
  let x := CDir.countDentry { d with items := d.items.insert dn.key dn, pins := Function.update d.pins .child 1 } dn
  { x with
    numDirty := d.numDirty + dn.dirty.toNat
    freeze := { d.freeze with
      nestedAuthPins := d.freeze.nestedAuthPins + dn.cumAuthPins
      dirAuthPins := d.freeze.dirAuthPins + dn.dirAuthPins
      calls := calls } }

/-- The dirfrag with one dentry less. Its counters are not kept up. -/
def lose (d : CDir ν κ) (dn : Dentry) (calls : List Freeze.InodeCall) : CDir ν κ :=
  let x := CDir.dropDirtyRstat { d with
    items := d.items.erase dn.key
    pins := Function.update d.pins .child (if (d.items.erase dn.key).isEmpty then 0 else 1) } dn
  { x with
    freeze := { d.freeze with
      nestedAuthPins := d.freeze.nestedAuthPins - dn.cumAuthPins
      dirAuthPins := d.freeze.dirAuthPins - dn.dirAuthPins
      calls := calls } }

theorem adjustNestedAuthPins_ok (inc dirinc : ℤ) (hq : Quiet d) (h0 : inc ≠ 0)
    (h1 : 0 ≤ d.freeze.nestedAuthPins + inc) (h2 : 0 ≤ d.freeze.dirAuthPins + dirinc) :
    ∃ calls, d.adjustNestedAuthPins i inc dirinc = .ok { d with freeze := { d.freeze with
      nestedAuthPins := d.freeze.nestedAuthPins + inc
      dirAuthPins := d.freeze.dirAuthPins + dirinc
      calls := calls } } := by
  set x := d.freeze.adjusted inc dirinc with hx
  have hfinish : x.maybeFinishFreeze i.surroundings (fun y => y.authUnpin i.surroundings .self) = .ok x := by
    have hdir : x.freezingDir = false := hq.1
    have htree : x.freezingTree = false := hq.2
    simp only [Freeze.CDir.maybeFinishFreeze, Freeze.CDir.finishFreezingDir, Freeze.CDir.finishFreezingTree, hdir, htree,
      Bool.false_eq_true, ite_false, pure_bind, ite_self]
    rfl
  have hcall : ∀ c, ∃ calls, x.adjustCall c inc = { x with calls := calls } := by
    intro c
    rw [Freeze.CDir.adjustCall]
    split
    · split
      · exact ⟨_, rfl⟩
      · split
        · exact ⟨_, rfl⟩
        · exact ⟨x.calls, rfl⟩
    · exact ⟨x.calls, rfl⟩
  obtain ⟨calls, hcalls⟩ := hcall (x.authPins + x.nestedAuthPins)
  refine ⟨calls, ?_⟩
  simp only [adjustNestedAuthPins, Freeze.CDir.adjustNestedAuthPins, bind_ok, assert_ok, pure_ok, decide_eq_true_eq]
  exact ⟨_, ⟨(), h0, (), h1, (), h2, x, hfinish, rfl⟩, by
    rw [← Freeze.CDir.getCumAuthPins] at hcalls
    show ({ d with freeze := x.adjustCall x.getCumAuthPins inc } : CDir ν κ) = _
    rw [hcalls, hx]
    rfl⟩

theorem moveAuthPins_ok (i : Diri) (d old : CDir ν κ) (dn : Dentry) (hq : Quiet d) (hqo : Quiet old)
    (hdap : dn.dirAuthPins ≤ dn.authPins + dn.nestedAuthPins)
    (h1 : 0 ≤ d.freeze.nestedAuthPins) (h2 : 0 ≤ d.freeze.dirAuthPins)
    (h3 : dn.cumAuthPins ≤ old.freeze.nestedAuthPins) (h4 : (dn.dirAuthPins : ℤ) ≤ old.freeze.dirAuthPins) :
    ∃ calls calls', d.moveAuthPins i old dn = .ok
      ({ d with freeze := { d.freeze with
          nestedAuthPins := d.freeze.nestedAuthPins + dn.cumAuthPins
          dirAuthPins := d.freeze.dirAuthPins + dn.dirAuthPins
          calls := calls } },
        { old with freeze := { old.freeze with
          nestedAuthPins := old.freeze.nestedAuthPins - dn.cumAuthPins
          dirAuthPins := old.freeze.dirAuthPins - dn.dirAuthPins
          calls := calls' } }) := by
  have hcum : ((dn.authPins + dn.nestedAuthPins : ℕ) : ℤ) = dn.cumAuthPins := by
    rw [Dentry.cumAuthPins, Nat.cast_add]
  by_cases hpins : dn.authPins ≠ 0 ∨ dn.nestedAuthPins ≠ 0
  · have hne : ((dn.authPins + dn.nestedAuthPins : ℕ) : ℤ) ≠ 0 := by omega
    obtain ⟨calls, hd⟩ := adjustNestedAuthPins_ok (i := i) ((dn.authPins + dn.nestedAuthPins : ℕ) : ℤ) dn.dirAuthPins
      hq hne (by omega) (by omega)
    obtain ⟨calls', ho⟩ := adjustNestedAuthPins_ok (i := i) (-((dn.authPins + dn.nestedAuthPins : ℕ) : ℤ))
      (-dn.dirAuthPins) hqo (neg_ne_zero.mpr hne) (by omega) (by omega)
    refine ⟨calls, calls', ?_⟩
    rw [moveAuthPins, if_pos hpins]
    simp only [bind_ok, assert_ok, pure_ok, decide_eq_true_eq]
    refine ⟨(), hdap, _, hd, _, ho, ?_⟩
    rw [hcum]
    rfl
  · -- Then the dentry has no auth pins of any kind.
    have h0 : dn.authPins = 0 ∧ dn.nestedAuthPins = 0 := by omega
    have hdir : dn.dirAuthPins = 0 := by omega
    refine ⟨d.freeze.calls, old.freeze.calls, ?_⟩
    rw [moveAuthPins, if_neg hpins, ← hcum, hdir, h0.1, h0.2]
    simp

/-- `PIN_CHILD` of the new dirfrag. -/
theorem getChild_eq (hc : Counted d) (hpin : d.pins .child = if d.items.isEmpty then 0 else 1) (dn : Dentry) :
    (d.insertItem dn).getChild =
      { d with items := d.items.insert dn.key dn, pins := Function.update d.pins .child 1 } := by
  have hsize := size_eq_tally Dentry.isHead Dentry.isNull d.items
  have hany : (d.insertItem dn).getNumAny = d.items.size := by
    show d.numHeadItems + d.numHeadNull + d.numSnapItems + d.numSnapNull = _
    rw [hsize, hc.headItems, hc.headNull, hc.snapItems, hc.snapNull]
    push_cast
    rfl
  rw [getChild, hany]
  rw [Std.ExtTreeMap.isEmpty_eq_size_beq_zero] at hpin
  by_cases h0 : d.items.size = 0
  · rw [if_pos (by simp [h0]), get]
    rw [if_pos (by simp [h0])] at hpin
    show ({ d with items := _, pins := Function.update d.pins .child (d.pins .child + 1) } : CDir ν κ) = _
    rw [hpin]
    rfl
  · rw [if_neg (by simpa using h0)]
    rw [if_neg (by simpa using h0)] at hpin
    rw [← hpin, Function.update_eq_self]
    rfl

/-- `PIN_CHILD` of the old dirfrag. -/
theorem putChild_eq (hpin : d.pins .child = 1) (dn : Dentry) : (d.eraseItem dn).putChild = .ok { d with
    items := d.items.erase dn.key
    pins := Function.update d.pins .child (if (d.items.erase dn.key).isEmpty then 0 else 1) } := by
  rw [putChild]
  show (if (d.items.erase dn.key).isEmpty then (d.eraseItem dn).put .child else pure (d.eraseItem dn)) = _
  split
  · have hone : (d.eraseItem dn).pins .child = 1 := hpin
    simp only [put, bind_ok, assert_ok, pure_ok, hone]
    exact ⟨(), rfl, rfl⟩
  · rw [← hpin, Function.update_eq_self]
    rfl

theorem cumAuthPins_nonneg (dn : Dentry) : 0 ≤ dn.cumAuthPins := by
  rw [Dentry.cumAuthPins]
  omega

theorem Held.le_nested (h : Held d) (hk : d.items[k]? = some dn) : dn.cumAuthPins ≤ d.freeze.nestedAuthPins := by
  rw [h.nestedAuthPins, total_erase _ hk]
  have := total_nonneg (f := Dentry.cumAuthPins) (d.items.erase k) cumAuthPins_nonneg
  omega

theorem Held.le_dir (h : Held d) (hk : d.items[k]? = some dn) : (dn.dirAuthPins : ℤ) ≤ d.freeze.dirAuthPins := by
  rw [h.dirAuthPins, total_erase _ hk]
  have := total_nonneg (f := fun dn : Dentry => (dn.dirAuthPins : ℤ)) (d.items.erase k) fun dn => Int.natCast_nonneg _
  omega

theorem Held.nonneg (h : Held d) : 0 ≤ d.freeze.nestedAuthPins ∧ 0 ≤ d.freeze.dirAuthPins := by
  rw [h.nestedAuthPins, h.dirAuthPins]
  exact ⟨total_nonneg _ cumAuthPins_nonneg, total_nonneg _ fun dn => Int.natCast_nonneg _⟩

theorem Held.child_of_getElem? (h : Held d) (hk : d.items[k]? = some dn) : d.pins .child = 1 := by
  rw [h.child, if_neg]
  intro hempty
  rw [Std.ExtTreeMap.isEmpty_iff] at hempty
  rw [hempty] at hk
  simp at hk

/-- `steal_dentry` does what it should. -/
theorem stealDentry_eq (hd : Held d) (hc : Counted d) (hq : Quiet d) (ho : Held old) (hqo : Quiet old)
    (hk : old.items[k]? = some dn) : ∃ calls calls',
      d.stealDentry i old k = .ok (d.gain dn calls, old.lose dn calls') := by
  have hkey := ho.keyed hk
  subst hkey
  have hput := putChild_eq (ho.child_of_getElem? hk) dn
  have hget := getChild_eq hc hd.child dn
  obtain ⟨inos, hdrop⟩ := dropDirtyRstat_eq { old with
    items := old.items.erase dn.key
    pins := Function.update old.pins .child (if (old.items.erase dn.key).isEmpty then 0 else 1) } dn
  obtain ⟨-, -, hfreeze, hdirty⟩ := countDentry_keeps { d with
    items := d.items.insert dn.key dn
    pins := Function.update d.pins .child 1 } dn
  obtain ⟨calls, calls', hmove⟩ := moveAuthPins_ok i
    (CDir.countDentry { d with items := d.items.insert dn.key dn, pins := Function.update d.pins .child 1 } dn)
    (CDir.dropDirtyRstat { old with
      items := old.items.erase dn.key
      pins := Function.update old.pins .child (if (old.items.erase dn.key).isEmpty then 0 else 1) } dn) dn
    (by rw [Quiet, hfreeze]; exact hq) (by rw [hdrop]; exact hqo) (ho.dirPins hk) (by rw [hfreeze]; exact hd.nonneg.1)
    (by rw [hfreeze]; exact hd.nonneg.2) (by rw [hdrop]; exact ho.le_nested hk) (by rw [hdrop]; exact ho.le_dir hk)
  refine ⟨calls, calls', ?_⟩
  rw [stealDentry, hk, deref_some_bind]
  refine bind_ok.mpr ⟨_, hput, bind_ok.mpr ⟨_, by rw [hget]; exact hmove, ?_⟩⟩
  rw [gain, lose, hdrop, hfreeze]
  refine congrArg Except.ok (Prod.ext ?_ rfl)
  have hdirty' : (CDir.countDentry { d with
    items := d.items.insert dn.key dn
    pins := Function.update d.pins .child 1 } dn).numDirty = d.numDirty := hdirty
  generalize CDir.countDentry { d with
    items := d.items.insert dn.key dn
    pins := Function.update d.pins .child 1 } dn = x at hdirty'
  rw [countDirty]
  cases dn.dirty with
  | false =>
    show { x with freeze := _ } = { x with numDirty := d.numDirty + (0 : ℤ), freeze := _ }
    rw [add_zero, ← hdirty']
  | true =>
    show { x with numDirty := x.numDirty + 1, freeze := _ } = { x with numDirty := d.numDirty + (1 : ℤ), freeze := _ }
    rw [hdirty']

/-! ## What the two dirfrags are afterwards -/

variable {calls : List Freeze.InodeCall}

theorem gain_items (d : CDir ν κ) (dn : Dentry) : (d.gain dn calls).items = d.items.insert dn.key dn :=
  (countDentry_keeps { d with items := _, pins := _ } dn).1

theorem gain_pins (d : CDir ν κ) (dn : Dentry) : (d.gain dn calls).pins = Function.update d.pins .child 1 :=
  (countDentry_keeps { d with items := _, pins := _ } dn).2.1

theorem gain_frame (d : CDir ν κ) (dn : Dentry) : (d.gain dn calls).frame = d.frame := by
  obtain ⟨-, -, hfreeze, -⟩ := countDentry_keeps { d with
    items := d.items.insert dn.key dn
    pins := Function.update d.pins .child 1 } dn
  have hframe := countDentry_frame { d with
    items := d.items.insert dn.key dn
    pins := Function.update d.pins .child 1 } dn
  have hself : CDir.frame { d with items := d.items.insert dn.key dn, pins := Function.update d.pins .child 1 } =
      d.frame := by
    simp only [frame, Function.update_idem]
  refine Eq.trans ?_ (hframe.trans hself)
  simp only [frame, gain, hfreeze]

theorem lose_eq (d : CDir ν κ) (dn : Dentry) (calls : List Freeze.InodeCall) : ∃ inos, d.lose dn calls = { d with
    items := d.items.erase dn.key
    pins := Function.update d.pins .child (if (d.items.erase dn.key).isEmpty then 0 else 1)
    dirtyRstatInodes := inos
    freeze := { d.freeze with
      nestedAuthPins := d.freeze.nestedAuthPins - dn.cumAuthPins
      dirAuthPins := d.freeze.dirAuthPins - dn.dirAuthPins
      calls := calls } } := by
  obtain ⟨inos, hdrop⟩ := dropDirtyRstat_eq { d with
    items := d.items.erase dn.key
    pins := Function.update d.pins .child (if (d.items.erase dn.key).isEmpty then 0 else 1) } dn
  exact ⟨inos, by rw [lose, hdrop]⟩

theorem lose_items (d : CDir ν κ) (dn : Dentry) : (d.lose dn calls).items = d.items.erase dn.key := by
  obtain ⟨inos, h⟩ := lose_eq d dn calls
  rw [h]

theorem lose_frame (d : CDir ν κ) (dn : Dentry) : (d.lose dn calls).frame = d.frame := by
  obtain ⟨inos, h⟩ := lose_eq d dn calls
  rw [h]
  simp only [frame, Function.update_idem]

theorem Held.gain (h : Held d) (hk : d.items[dn.key]? = none) (hdap : dn.dirAuthPins ≤ dn.authPins + dn.nestedAuthPins) :
    Held (d.gain dn calls) where
  keyed {k x} hx := by
    rw [gain_items, getElem?_insert] at hx
    split at hx
    · rename_i heq
      cases hx
      exact heq.symm
    · exact h.keyed hx
  dirPins {k x} hx := by
    rw [gain_items, getElem?_insert] at hx
    split at hx
    · cases hx
      exact hdap
    · exact h.dirPins hx
  child := by
    rw [gain_pins, gain_items, Function.update_self, if_neg]
    intro hempty
    have hself := getElem?_insert d.items dn.key dn.key dn
    rw [Std.ExtTreeMap.isEmpty_iff.mp hempty, if_pos rfl] at hself
    simp at hself
  nestedAuthPins := by
    show d.freeze.nestedAuthPins + dn.cumAuthPins = _
    rw [gain_items, total_insert _ hk, h.nestedAuthPins]
  dirAuthPins := by
    show d.freeze.dirAuthPins + dn.dirAuthPins = _
    rw [gain_items, total_insert _ hk, h.dirAuthPins]

theorem tally_gain (hk : d.items[dn.key]? = none) (p : Dentry → Bool) :
    ((tally p (d.gain dn calls).items : ℕ) : ℤ) = (tally p d.items : ℤ) + ((p dn).toNat : ℤ) := by
  rw [gain_items, tally_insert p hk]
  cases p dn <;> simp

theorem Counted.gain (h : Counted d) (hk : d.items[dn.key]? = none) : Counted (d.gain dn calls) := by
  obtain ⟨h₁, h₂, h₃, h₄, -⟩ := countDentry_counts { d with
    items := d.items.insert dn.key dn
    pins := Function.update d.pins .child 1 } dn
  refine ⟨h₁.trans ?_, h₂.trans ?_, h₃.trans ?_, h₄.trans ?_, ?_⟩
  · rw [tally_gain hk, ← h.headItems]
  · rw [tally_gain hk, ← h.headNull]
  · rw [tally_gain hk, ← h.snapItems]
  · rw [tally_gain hk, ← h.snapNull]
  · rw [tally_gain hk, ← h.dirty]
    rfl

theorem Summed.gain (h : Summed d) (hk : d.items[dn.key]? = none) : Summed (d.gain dn calls) := by
  obtain ⟨-, -, -, -, hfrag, hnest⟩ := countDentry_counts { d with
    items := d.items.insert dn.key dn
    pins := Function.update d.pins .child 1 } dn
  refine ⟨hfrag.trans ?_, hnest.trans ?_⟩
  · rw [gain_items, total_insert _ hk, ← h.fragstat]
  · rw [gain_items, total_insert _ hk, ← h.rstat]

theorem Stamped.gain (h : Stamped d) (hk : d.items[dn.key]? = none) : Stamped (d.gain dn calls) := by
  obtain ⟨hmtime, hrctime⟩ := countDentry_stamps { d with
    items := d.items.insert dn.key dn
    pins := Function.update d.pins .child 1 } dn
  refine ⟨hmtime.trans h.mtime, fun t => ?_⟩
  have hmax : (d.gain dn calls).fnode.rstat.rctime = max d.fnode.rstat.rctime dn.rctime := hrctime
  rw [hmax, max_le_iff, h.rctime, gain_items]
  constructor
  · rintro ⟨hold, hnew⟩ k x hx
    rw [getElem?_insert] at hx
    split at hx
    · exact Option.some.inj hx ▸ hnew
    · exact hold k x hx
  · intro hall
    refine ⟨fun k x hx => hall k x ?_, hall dn.key dn ?_⟩
    · rw [getElem?_insert, if_neg, hx]
      rintro rfl
      exact Option.some_ne_none x (hx.symm.trans hk)
    · rw [getElem?_insert, if_pos rfl]

theorem Held.lose (h : Held d) (hk : d.items[dn.key]? = some dn) : Held (d.lose dn calls) where
  keyed {k x} hx := by
    rw [lose_items, getElem?_erase] at hx
    split at hx
    · cases hx
    · exact h.keyed hx
  dirPins {k x} hx := by
    rw [lose_items, getElem?_erase] at hx
    split at hx
    · cases hx
    · exact h.dirPins hx
  child := by
    obtain ⟨inos, heq⟩ := lose_eq d dn calls
    rw [heq]
    exact Function.update_self (Pin.child) _ d.pins
  nestedAuthPins := by
    show d.freeze.nestedAuthPins - dn.cumAuthPins = _
    rw [lose_items, h.nestedAuthPins, total_erase _ hk, add_sub_cancel_right]
  dirAuthPins := by
    show d.freeze.dirAuthPins - dn.dirAuthPins = _
    rw [lose_items, h.dirAuthPins, total_erase _ hk, add_sub_cancel_right]

theorem quiet_of_frame {x : CDir ν κ} (h : x.frame = d.frame) (hq : Quiet d) : Quiet x :=
  ⟨(congrArg (fun y : CDir ν κ => y.freeze.freezingDir) h).trans hq.1,
    (congrArg (fun y : CDir ν κ => y.freeze.freezingTree) h).trans hq.2⟩

end CDir

end CephMds.Refragment
