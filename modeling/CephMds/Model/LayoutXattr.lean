import CephMds.Model.DentryKey

/-!
# Setting a layout

The grammar `keys_and_values` and `Server::parse_layout_vxattr`: a layout is set
by fields, `layout.object_size` and the like, or by several at once. A text is
read from its beginning; what the grammar does not take is left. The map of the
keys keeps the first value of a key. The maps of the cluster are an argument.
-/

namespace CephMds.LayoutXattr

/-! ## keys_and_values -/

instance charsTransOrd : Std.TransOrd (List Char) := inferInstance

def isKeyStart (c : Char) : Bool := c.isAlpha || c = '_'

def isWord (c : Char) : Bool := c.isAlphanum || c = '_'

/-- A key and its value. -/
abbrev Pair := List Char × List Char

/-- `pair`, with the rest of the text. -/
def pair : List Char → Option (Pair × List Char)
  | [] => none
  | c :: s =>
    if isKeyStart c then
      match s.dropWhile isWord with
      | '=' :: s' =>
        let value := s'.takeWhile isWord
        if value.isEmpty then none else some ((c :: s.takeWhile isWord, value), s'.dropWhile isWord)
      | _ => none
    else none

/-- Further pairs, each behind a blank. -/
def morePairs : ℕ → List Char → List Pair × List Char
  | fuel + 1, ' ' :: s =>
    match pair s with
    | some (p, rest) =>
      let r := morePairs fuel rest
      (p :: r.1, r.2)
    | none => ([], ' ' :: s)
  | _, s => ([], s)

/-- `query`. -/
def query (s : List Char) : Option (List Pair × List Char) :=
  match pair s with
  | some (p, rest) =>
    let r := morePairs rest.length rest
    some (p :: r.1, r.2)
  | none => none

/-- The map that receives the result. -/
def receive (ps : List Pair) : Std.ExtTreeMap (List Char) (List Char) :=
  ps.foldl (fun m p => m.insertIfNew p.1 p.2) ∅

/-! ## Layouts -/

/-- `ceph_file_layout`. -/
structure Layout where
  flStripeUnit : UInt32
  flStripeCount : UInt32
  flObjectSize : UInt32
  flPgPool : UInt32
  deriving DecidableEq

/-- A multiple of 64 KiB that is not zero. -/
def isAligned (n : UInt32) : Bool := n ≠ 0 && n % 65536 = 0

/-- `ceph_file_layout_is_valid`. -/
def Layout.isValid (l : Layout) : Bool :=
  isAligned l.flStripeUnit && isAligned l.flObjectSize && l.flObjectSize % l.flStripeUnit = 0 && l.flStripeCount ≠ 0

/-- What is asked of the `OSDMap` and the `MDSMap`. -/
structure Maps where
  lookupPgPoolName : List Char → ℤ
  isDataPool : UInt32 → Bool

inductive Error
  | einval
  | enoent
  deriving DecidableEq

/-! ## parse_layout_vxattr -/

/-- The number that some digits stand for. -/
def ofDigits (s : List Char) : Option UInt32 :=
  if !s.isEmpty && s.all Char.isDigit && Nat.ofDigitChars 10 s 0 < 2 ^ 32 then some (.ofNat (Nat.ofDigitChars 10 s 0))
  else none

/-- `boost::lexical_cast<unsigned>`. -/
def lexicalCast : List Char → Option UInt32
  | '-' :: s => (ofDigits s).map fun n => -n
  | '+' :: s => ofDigits s
  | s => ofDigits s

/-- The key `object_size`. -/
def objectSize : List Char := ['o', 'b', 'j', 'e', 'c', 't', '_', 's', 'i', 'z', 'e']

/-- The key `pool`. -/
def pool : List Char := ['p', 'o', 'o', 'l']

/-- The key `stripe_count`. -/
def stripeCount : List Char := ['s', 't', 'r', 'i', 'p', 'e', '_', 'c', 'o', 'u', 'n', 't']

/-- The key `stripe_unit`. -/
def stripeUnit : List Char := ['s', 't', 'r', 'i', 'p', 'e', '_', 'u', 'n', 'i', 't']

/-- Sets a field to a number. -/
def setNumber (value : List Char) (set : UInt32 → Layout) : Except Error Layout :=
  match lexicalCast value with
  | some n => .ok (set n)
  | none => .error .einval

/-- Sets the field `layout.<key>`. -/
def setField (c : Maps) (layout : Layout) (key value : List Char) : Except Error Layout :=
  if key = objectSize then setNumber value fun n => { layout with flObjectSize := n }
  else if key = stripeUnit then setNumber value fun n => { layout with flStripeUnit := n }
  else if key = stripeCount then setNumber value fun n => { layout with flStripeCount := n }
  else if key = pool then
    match lexicalCast value with
    | some n => .ok { layout with flPgPool := n }
    | none =>
      if c.lookupPgPoolName value < 0 then .error .enoent
      else .ok { layout with flPgPool := .ofInt (c.lookupPgPoolName value) }
  else .error .einval

/-- The tests at the end. -/
def check (c : Maps) (layout : Layout) : Except Error Layout :=
  if !layout.isValid then .error .einval
  else if !c.isDataPool layout.flPgPool then .error .einval
  else .ok layout

/-- `parse_layout_vxattr`, of one field. -/
def parseLayoutField (c : Maps) (layout : Layout) (p : Pair) : Except Error Layout := do
  let layout ← setField c layout p.1 p.2
  check c layout

/-- `parse_layout_vxattr`, of `layout`. -/
def parseLayoutVxattr (c : Maps) (value : List Char) (layout : Layout) : Except Error Layout :=
  match query value with
  | none => .error .einval
  | some (ps, left) =>
    if left ≠ [] then .error .einval
    else do
      let layout ← (receive ps).toList.foldlM (parseLayoutField c) layout
      check c layout

end CephMds.LayoutXattr
