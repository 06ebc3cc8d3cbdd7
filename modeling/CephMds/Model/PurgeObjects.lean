import CephMds.Framework.Striping

/-!
# The objects of a file that is purged

What `MDCache::purge_stray` and `MDCache::truncate_stray` ask for, of a file:
the ranges of its data objects, from the layout and the largest size. The
objects in old pools and those of the metadata are left out, and so is what
follows in the stray directory.
-/

namespace CephMds.PurgeObjects

/-- `ceph_file_layout`. -/
structure Layout where
  flStripeUnit : UInt32
  flStripeCount : UInt32
  flObjectSize : UInt32

/-- Objects of whole stripe units. -/
structure Layout.Striped (l : Layout) : Prop where
  unit_pos : 0 < l.flStripeUnit.toNat
  count_pos : 0 < l.flStripeCount.toNat
  size_pos : 0 < l.flObjectSize.toNat
  unit_dvd_size : l.flStripeUnit.toNat ∣ l.flObjectSize.toNat

/-- A file: `client_ranges` by the end of each range. -/
structure File where
  layout : Layout
  striped : layout.Striped
  size : UInt64
  maxSizeEver : UInt64
  clientRanges : List UInt64

/-- `inode_t::get_max_size`. -/
def File.getMaxSize (f : File) : UInt64 := f.clientRanges.foldl (fun max last => if last > max then last else max) 0

/-- `to`. -/
def File.upTo (f : File) : UInt64 :=
  let upTo := f.getMaxSize
  let upTo := max f.size upTo
  max f.maxSizeEver upTo

def Layout.period (l : Layout) : UInt64 := l.flObjectSize.toUInt64 * l.flStripeCount.toUInt64

/-- A request to the objects of the file. -/
inductive Request
  /-- `Filer::purge_range`. -/
  | purgeRange (first num : UInt64)
  /-- `Filer::zero`. -/
  | zero (off len : UInt64)
  /-- `Objecter::remove`, of the object with the backtrace. -/
  | remove (object : UInt64)
  deriving DecidableEq

/-- `purge_stray`, for a file. -/
def purgeStray (f : File) : List Request :=
  let period := f.layout.period
  let upTo := f.upTo
  let subs :=
    if upTo ≠ 0 ∧ period ≠ 0 then
      let num := (upTo + period - 1) / period
      [.purgeRange 0 num]
    else []
  -- The backtrace, if it was not purged.
  if subs.isEmpty then [.remove 0] else subs

/-- `truncate_stray`. -/
def truncateStray (f : File) : List Request :=
  let period := f.layout.period
  let upTo := f.upTo
  let purge :=
    if period ≠ 0 ∧ upTo > period then
      let num := (upTo - 1) / period
      [.purgeRange 1 num]
    else []
  -- The object with the backtrace is kept.
  let zero := if period ≠ 0 ∧ upTo > 0 then [.zero 0 period] else []
  purge ++ zero

/-! ## What is reached -/

/-- The layout as the object store reads it. -/
def File.striping (f : File) : Striping where
  unit := f.layout.flStripeUnit.toNat
  count := f.layout.flStripeCount.toNat
  size := f.layout.flObjectSize.toNat
  unit_pos := f.striped.unit_pos
  count_pos := f.striped.count_pos
  size_pos := f.striped.size_pos
  unit_dvd_size := f.striped.unit_dvd_size

/-- The objects that a request removes, or zeroes. -/
def Request.objects (st : Striping) : Request → Set ℕ
  | .purgeRange first num => {o | first.toNat ≤ o ∧ o < first.toNat + num.toNat}
  | .zero off len => {o | ∃ x, off.toNat ≤ x ∧ x < off.toNat + len.toNat ∧ st.object x = o}
  | .remove object => {object.toNat}

/-- All objects that hold a byte of the file are reached. -/
def File.Reached (f : File) (rs : List Request) : Prop :=
  ∀ x < f.upTo.toNat, ∃ r ∈ rs, f.striping.object x ∈ r.objects f.striping

end CephMds.PurgeObjects
