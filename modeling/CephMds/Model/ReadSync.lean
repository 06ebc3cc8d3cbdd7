import CephMds.Framework.Check
import Mathlib

/-!
# Synchronous reads of the client

`Client::_read` on its synchronous path (no inline data, no cap to cache) and
`Client::_read_sync`. A file is its bytes. The objects are read by the filer:
what it returns for the k-th read of a call is any answer that `Honest`
allows. `in->truncate_size` and the snapshot are its business; that of the
file position, the caps and errors of the filer and of `_getattr` is left out.
-/

namespace CephMds.ReadSync

open Checked

abbrev Byte := UInt8

/-- The conversion to `int`. -/
@[irreducible] def toInt (x : ℤ) : ℤ := (x + 2 ^ 31) % 2 ^ 32 - 2 ^ 31

/-- The conversion to `int64_t`. -/
@[irreducible] def toInt64 (x : ℤ) : ℤ := (x + 2 ^ 63) % 2 ^ 64 - 2 ^ 63

@[irreducible] def toUnsigned (x : ℤ) : ℕ := (x % 2 ^ 32).toNat

@[irreducible] def toUInt64 (x : ℤ) : ℕ := (x % 2 ^ 64).toNat

/-- The result of `Filer::read_trunc` for the k-th read, of a number of bytes
at a position. It has none on `ENOENT`. -/
abbrev Filer := ℕ → ℕ → ℕ → Option (List Byte)

/-- An answer is a beginning of the bytes that were asked for, and the rest
of these is zero. -/
def Filer.Honest (filer : Filer) (file : List Byte) : Prop :=
  ∀ k pos n, ∃ rest, (file.drop pos).take n = (filer k pos n).getD [] ++ rest ∧ ∀ b ∈ rest, b = 0

/-- The locals of `_read_sync`. -/
structure Sync where
  pos : ℕ
  left : ℤ
  read : ℤ
  bl : List Byte
  /-- The reads of the call so far. -/
  reads : ℕ

/-- After a short read: "zero up to known EOF", and whether to check the end of the file. -/
def zeroFill (inSize : ℕ) (s : Sync) : Sync × Bool :=
  if s.pos < inSize then
    let some := min (toInt64 (inSize - s.pos)) s.left
    let s := { s with
      bl := s.bl ++ List.replicate (toUnsigned some) 0
      read := toInt (s.read + some)
      pos := toUInt64 (s.pos + some)
      left := toInt (s.left - some) }
    (s, s.left ≠ 0)
  else (s, true)

/-- The loop of `_read_sync`, with `checkeof`. -/
def readSyncLoop (filer : Filer) (inSize : ℕ) : ℕ → Sync → Checked (Sync × Bool)
  | 0, _ => throw .fuel
  | n + 1, s =>
    if s.left ≤ 0 then return (s, false)
    else
      let tbl := (filer s.reads s.pos s.left.toNat).getD []
      let t := { s with
        read := toInt (s.read + tbl.length)
        pos := s.pos + tbl.length
        left := toInt (s.left - tbl.length)
        bl := s.bl ++ tbl
        reads := s.reads + 1 }
      if tbl.length < s.left then return zeroFill inSize t
      else readSyncLoop filer inSize n t

/-- `_read_sync`. -/
def readSync (filer : Filer) (inSize n : ℕ) (off len : ℕ) (bl : List Byte) (reads : ℕ) : Checked (Sync × Bool) :=
  readSyncLoop filer inSize n ⟨off, toInt len, 0, bl, reads⟩

/-- `_read` from `retry`: the bytes, or an error. `trueSize` is what
`_getattr(CEPH_STAT_CAP_SIZE)` sets the size of the inode to. -/
def readLoop (filer : Filer) (trueSize : ℕ) : ℕ → ℕ → ℕ → ℕ → List Byte → ℕ → Checked (Option (List Byte))
  | 0, _, _, _, _, _ => throw .fuel
  | n + 1, inSize, offset, size, bl, reads => do
    let (s, checkeof) ← readSync filer inSize (n + 2) offset size bl reads
    if s.read < 0 then return none
    else if checkeof then
      let offset := toUInt64 (offset + s.read)
      let size := toUInt64 (size - s.read)
      if offset < trueSize then readLoop filer trueSize n trueSize offset size s.bl s.reads
      else return some s.bl
    else return some s.bl

/-- `_read` at an explicit offset. -/
def read (filer : Filer) (trueSize n : ℕ) (inSize offset size : ℕ) : Checked (Option (List Byte)) :=
  readLoop filer trueSize n inSize offset size [] 0

end CephMds.ReadSync
