import CephMds.Framework.Check
import Mathlib

/-!
# The keys of dentries

`dentry_key_t`: the name and the last snapshot of a dentry, with its order, its
encoding as a key of the directory object and the way back
(`decode_helper`). The dentries of a fragment are a map by these keys, in
which `CDir::lookup` searches.
-/

namespace CephMds.Dentries

open Checked

/-- A `char`, compared as unsigned. -/
abbrev Byte := Fin 256

/-- `snapid_t`. -/
abbrev Snapid := Fin (2 ^ 64)

instance byteNeZero : NeZero 256 := ⟨by decide⟩

instance snapidNeZero : NeZero (2 ^ 64) := ⟨by decide⟩

/-- `CEPH_NOSNAP`. -/
def cephNosnap : Snapid := ⟨2 ^ 64 - 2, by decide⟩

/-- `dentry_key_t`. -/
structure Key where
  name : List Byte
  snapid : Snapid
  deriving DecidableEq

/-- "Order by name, then snap". -/
instance : LinearOrder Key :=
  LinearOrder.lift' (fun k : Key => toLex (k.name, k.snapid)) fun k k' h => by
    cases k
    cases k'
    simpa using h

instance keyTransOrd : Std.TransOrd Key := inferInstance

instance bytesTransOrd : Std.TransOrd (List Byte) := inferInstance

/-! ## Encoding -/

def underscore : Byte := 95

/-- The text `head`. -/
def head : List Byte := [104, 101, 97, 100]

def hexDigit (d : ℕ) : Byte := Fin.ofNat 256 (if d < 10 then 48 + d else 87 + d)

/-- `%llx`. -/
def hex (n : ℕ) : List Byte := if n = 0 then [hexDigit 0] else (Nat.digits 16 n).reverse.map hexDigit

def Key.encode (k : Key) : List Byte :=
  k.name ++ underscore :: if k.snapid ≠ cephNosnap then hex k.snapid else head

/-- What `snprintf` leaves in a buffer, which ends with a 0. -/
def snprintf (size : ℕ) (text : List Byte) : List Byte := text.take (size - 1)

/-- A C string ends at the first 0. -/
def cString (s : List Byte) : List Byte := s.takeWhile (· ≠ 0)

/-- `encode` with the buffer that the snapshot is printed to, and the name in memory. -/
def Key.encodeBuffered (k : Key) : List Byte :=
  cString k.name ++ underscore :: snprintf 20 (if k.snapid ≠ cephNosnap then hex k.snapid else head)

/-! ## Decoding -/

/-- The value of a hexadecimal digit. -/
def digitValue (b : Byte) : Option ℕ :=
  if 48 ≤ b ∧ b ≤ 57 then some (b - 48)
  else if 97 ≤ b ∧ b ≤ 102 then some (b - 87)
  else if 65 ≤ b ∧ b ≤ 70 then some (b - 55)
  else none

/-- The digits at the beginning. -/
def scanDigits : ℕ → List Byte → ℕ
  | acc, [] => acc
  | acc, b :: bs =>
    match digitValue b with
    | none => acc
    | some d => scanDigits (16 * acc + d) bs

def isSpace (b : Byte) : Bool := b = 32 ∨ 9 ≤ b ∧ b ≤ 13

/-- `0x` before the digits is skipped. -/
def skipPrefix : List Byte → List Byte
  | 48 :: b :: bs => if b = 120 ∨ b = 88 then bs else 48 :: b :: bs
  | bs => bs

/-- `sscanf` with `%llx`: spaces, a sign and the prefix are skipped, and what is
too large becomes the largest value. -/
def scanHex (s : List Byte) : Snapid :=
  let value (bs : List Byte) : Snapid := ⟨min (scanDigits 0 (skipPrefix bs)) (2 ^ 64 - 1), by omega⟩
  match s.dropWhile isSpace with
  | 43 :: bs => value bs
  | 45 :: bs => - value bs
  | bs => value bs

/-- `decode_helper`. -/
def decodeHelper (key : List Byte) : Checked Key :=
  let after := (key.reverse.takeWhile (· ≠ underscore)).reverse
  match key.reverse.dropWhile (· ≠ underscore) with
  | [] => throw .assert
  | _ :: nm => pure ⟨nm.reverse, if after = head then cephNosnap else scanHex after⟩

/-! ## Lookup -/

/-- `CDir::lookup` in the items of a fragment, whose dentries begin at `first`. -/
def lookup {β : Type} (first : β → Snapid) (items : Std.ExtTreeMap Key β) (name : List Byte) (snap : Snapid) :
    Option (Key × β) :=
  (items.toList.find? fun p => !decide (p.1 < ⟨name, snap⟩)).filter fun p =>
    p.1.name = name ∧ first p.2 ≤ snap

end CephMds.Dentries
