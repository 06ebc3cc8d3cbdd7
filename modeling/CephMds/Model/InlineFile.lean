import CephMds.Framework.Padded
import CephMds.Model.ReadSync

/-!
# Files with inline data

`Client::_write` and `Client::_read` of a file whose inline data is known to
the client, with all the caps that they want, as far as their inline paths go.
Lengths that are given to a `bufferlist` are `unsigned`. Left out are errors of
`_getattr` and `get_caps`, the return value and the times.
-/

namespace CephMds.InlineFile

open ReadSync (Byte toInt64 toUnsigned toUInt64)

structure Inode where
  size : ℕ
  maxSize : ℕ
  inlineData : List Byte
  deriving DecidableEq

structure Fh where
  pos : ℤ
  writable : Bool
  /-- `O_APPEND`. -/
  append : Bool
  deriving DecidableEq

structure Env where
  maxFilesize : ℕ
  osdmapFull : Bool
  /-- `is_quota_bytes_exceeded` of the inode, for a number of new bytes. -/
  quotaBytesExceeded : ℕ → Bool
  clientMaxInlineSize : ℕ
  cephInlineMaxSize : ℕ

inductive Errno
  | efbig
  | enospc
  | ebadf
  | edquot
  deriving DecidableEq, Repr

inductive Outcome
  | error (e : Errno)
  /-- `get_caps` waits for a greater `max_size`. -/
  | waits
  /-- `uninline_data`, and a write to objects. -/
  | uninlines
  | written (i : Inode) (f : Fh)
  deriving DecidableEq

/-- "use/adjust fd pos?": the handle after it, and the offset. -/
def Fh.resolve (f : Fh) (i : Inode) (offset : ℤ) (size : ℕ) : Fh × ℤ :=
  if offset < 0 then
    let pos := if f.append then (i.size : ℤ) else f.pos
    ({ f with pos := toInt64 (pos + size) }, pos)
  else (f, offset)

/-- The test of `get_caps` that makes it wait for `max_size`. -/
def Inode.waitsForMaxSize (i : Inode) (endoff : ℤ) : Bool := decide (0 ≤ endoff ∧ toInt64 i.maxSize < endoff)

/-- The inline data after a write. -/
def splice (inlineData : List Byte) (offset : ℤ) (endoff : ℕ) (buf : List Byte) : List Byte :=
  let len := inlineData.length
  let bl := if endoff < len then buf ++ inlineData.drop endoff else buf
  let head :=
    if offset < len then inlineData.take offset.toNat
    else if len < offset then inlineData ++ List.replicate (toUnsigned (offset - len)) 0
    else inlineData
  head ++ bl

/-- `_write`. -/
def write (env : Env) (f : Fh) (i : Inode) (offset : ℤ) (buf : List Byte) : Outcome :=
  let endoff := toUInt64 (offset + buf.length)
  if env.maxFilesize < endoff then .error .efbig
  else if env.osdmapFull then .error .enospc
  else if !f.writable then .error .ebadf
  else if i.size < endoff ∧ env.quotaBytesExceeded (endoff - i.size) then .error .edquot
  else if i.waitsForMaxSize (toInt64 endoff) then .waits
  else if env.clientMaxInlineSize < endoff ∨ env.cephInlineMaxSize < endoff then .uninlines
  else
    let r := f.resolve i offset buf.length
    let total := toUInt64 (buf.length + r.2)
    .written
      { i with
        inlineData := splice i.inlineData r.2 endoff buf
        size := if i.size < total then total else i.size } r.1

/-- `_read`. -/
def read (f : Fh) (i : Inode) (offset : ℤ) (size : ℕ) : List Byte :=
  let offset := if offset < 0 then f.pos else offset
  let len := i.inlineData.length
  let endoff := min (toUInt64 (offset + size)) i.size
  if offset < len then
    if endoff ≤ len then (i.inlineData.drop offset.toNat).take (endoff - offset.toNat)
    else i.inlineData.drop offset.toNat ++ List.replicate (toUnsigned (endoff - len)) 0
  else if toUInt64 offset < endoff then List.replicate (toUnsigned (endoff - offset)) 0
  else []

end CephMds.InlineFile
