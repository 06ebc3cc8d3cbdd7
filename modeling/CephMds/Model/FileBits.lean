import CephMds.Model.Caps
import Mathlib

/-!
# What the client takes from the attributes of an MDS

`Client::update_inode_file_bits`, with the parts of an `Inode` that it reads
and writes. Its warnings and its calls of the object cacher change no part of
the inode: the calls are kept in `invalidated`, the warnings left out.
-/

namespace CephMds.FileBits

open Caps

abbrev Byte := UInt8

/-- `utime_t`: seconds and nanoseconds, in the order of its operators. -/
abbrev Utime := ℕ ×ₗ ℕ

/-- `CEPH_INLINE_NONE`. -/
def cephInlineNone : ℕ := 2 ^ 64 - 1

/-- The caps with which the client keeps its own times. -/
def timeCaps : Mask := {fileExcl, fileWr, fileBuffer, authExcl, xattrExcl}

structure Inode where
  isFile : Bool
  truncateSeq : ℕ
  truncateSize : ℕ
  size : ℕ
  reportedSize : ℕ
  /-- `oset.truncate_seq`. -/
  osetTruncateSeq : ℕ
  /-- `oset.truncate_size`. -/
  osetTruncateSize : ℕ
  timeWarpSeq : ℕ
  ctime : Utime
  mtime : Utime
  atime : Utime
  inlineVersion : ℕ
  inlineData : List Byte
  /-- The calls of `_invalidate_inode_cache`, with their offset and length. -/
  invalidated : List (ℕ × ℤ)

/-- The attributes of a message. -/
structure Update where
  truncateSeq : ℕ
  truncateSize : ℕ
  size : ℕ
  timeWarpSeq : ℕ
  ctime : Utime
  mtime : Utime
  atime : Utime
  inlineVersion : ℕ
  inlineData : List Byte

namespace Inode

/-- "inline_version > in->inline_version". -/
def updateInline (i : Inode) (u : Update) : Inode :=
  if i.inlineVersion < u.inlineVersion then
    { i with inlineData := u.inlineData, inlineVersion := u.inlineVersion }
  else i

/-- "truncate_seq != in->truncate_seq", with the size from before. -/
def updateTruncateSeq (i : Inode) (u : Update) (priorSize : ℕ) : Inode :=
  if u.truncateSeq ≠ i.truncateSeq then
    { i with
      truncateSeq := u.truncateSeq
      osetTruncateSeq := u.truncateSeq
      invalidated :=
        if u.size < priorSize then i.invalidated ++ [(u.truncateSize, (priorSize : ℤ) - u.truncateSize)]
        else i.invalidated }
  else i

/-- "truncate inline data". -/
def truncateInline (i : Inode) (u : Update) : Inode :=
  if i.inlineVersion < cephInlineNone then { i with inlineData := i.inlineData.take u.size } else i

def updateSize (i : Inode) (u : Update) : Inode :=
  if i.truncateSeq < u.truncateSeq ∨ u.truncateSeq = i.truncateSeq ∧ i.size < u.size then
    let priorSize := i.size
    let i := { i with size := u.size, reportedSize := u.size }
    (i.updateTruncateSeq u priorSize).truncateInline u
  else i

def updateTruncateSize (i : Inode) (u : Update) : Inode :=
  if i.truncateSeq ≤ u.truncateSeq ∧ i.truncateSize ≠ u.truncateSize ∧ i.isFile then
    { i with truncateSize := u.truncateSize, osetTruncateSize := u.truncateSize }
  else i

def takeCtime (i : Inode) (u : Update) : Inode := if i.ctime < u.ctime then { i with ctime := u.ctime } else i
def takeMtime (i : Inode) (u : Update) : Inode := if i.mtime < u.mtime then { i with mtime := u.mtime } else i
def takeAtime (i : Inode) (u : Update) : Inode := if i.atime < u.atime then { i with atime := u.atime } else i

/-- "be careful with size, mtime, atime". -/
def updateTimes (i : Inode) (u : Update) (issued : Mask) : Inode :=
  if (issued ∩ timeCaps).Nonempty then
    let i := i.takeCtime u
    if i.timeWarpSeq < u.timeWarpSeq then
      { i with mtime := u.mtime, atime := u.atime, timeWarpSeq := u.timeWarpSeq }
    else if u.timeWarpSeq = i.timeWarpSeq then (i.takeMtime u).takeAtime u
    else i
  else if i.timeWarpSeq ≤ u.timeWarpSeq then
    { i with ctime := u.ctime, mtime := u.mtime, atime := u.atime, timeWarpSeq := u.timeWarpSeq }
  else i

/-- `update_inode_file_bits`. -/
def updateInodeFileBits (i : Inode) (u : Update) (issued : Mask) : Inode :=
  let i := i.updateInline u
  let i := i.updateSize u
  let i := i.updateTruncateSize u
  i.updateTimes u issued

end Inode

end CephMds.FileBits
