import Mathlib
import CephMds.Framework.Check

/-!
# Metavariables of the configuration

`md_config_t::expand_all_meta` and `expand_meta`, which replace references
`$x` and `${x}` in the string options by metavariables and by the values of
options, in place. Texts are lists of characters. The messages about loops and
the result `found_meta` are left out.
-/

namespace CephMds.ConfigMeta

open Checked

abbrev Text := List Char

/-- The values of the string options, by name. -/
abbrev Values := Text → Text

/-- The type of an option: `OPT_STR`, or another, with what `_get_val` prints. -/
inductive OptType
  | str
  | other (val : Text)
  deriving DecidableEq

/-- What `md_config_t` has, but for the values of the string options. -/
structure Config where
  cluster : Text
  /-- Of `name`: `get_type_name`, `to_cstr` and `get_id`. -/
  type : Text
  name : Text
  id : Text
  pid : Text
  cctid : Text
  /-- `config_optionsp`. -/
  options : AList fun _ : Text => OptType

/-- What a name stands for. -/
inductive Meaning
  | text (t : Text)
  | option (name : Text)
  deriving DecidableEq

/-- The characters that are not among `valid_chars` end a name. -/
def isValid (ch : Char) : Bool := ('a'.val ≤ ch.val && ch.val ≤ 'z'.val) || ch == '_'

/-- The name of a variable, from behind the dollar sign, and what is left from `endpos` on. -/
def parseVar : Text → Text × Text
  | '{' :: s =>
    match s.dropWhile isValid with
    | '}' :: rest => (s.takeWhile isValid, rest)
    | _ => ([], s)
  | s => (s.takeWhile isValid, s.dropWhile isValid)

namespace Config

variable (c : Config)

/-- `CONF_METAVARIABLES`, with what they stand for. `host` is an option. -/
def metavariables (vals : Values) : List (Text × Text) :=
  [("cluster".toList, c.cluster), ("type".toList, c.type), ("name".toList, c.name),
    ("host".toList, vals "host".toList), ("num".toList, c.id), ("id".toList, c.id), ("pid".toList, c.pid),
    ("cctid".toList, c.cctid)]

def find (vals : Values) (var : Text) : Option Meaning :=
  if var = [] then none
  else
    match (c.metavariables vals).lookup var with
    | some t => some (.text t)
    | none =>
      match c.options.lookup var with
      | some .str => some (.option var)
      | some (.other t) => some (.text t)
      | none => none

/-- The loop of `expand_meta`, with what is left of `val`, and `out`; it takes at least one character a turn. -/
def scan (expand : Text → Values → Checked Values) : ℕ → Text → Text → Values → Checked (Text × Values)
  | _, [], out, vals => pure (out, vals)
  | 0, _ :: _, _, _ => throw .fuel
  | n + 1, ch :: s, out, vals =>
    if ch ≠ '$' then scan expand n s (out ++ [ch]) vals
    else
      match c.find vals (parseVar s).1 with
      | some (.text t) => scan expand n (parseVar s).2 (out ++ t) vals
      | some (.option name) => do
        let vals ← expand name vals
        scan expand n (parseVar s).2 (out ++ vals name) vals
      | none => scan expand n s (out ++ [ch]) vals

/-- `expand_meta`, of the option `opt`. -/
def expandMeta : ℕ → List Text → Text → Values → Checked Values
  | 0, _, _, _ => throw .fuel
  | n + 1, stack, opt, vals =>
    if '$' ∉ vals opt then pure vals
    else if opt ∈ stack then pure vals
    else do
      let (out, vals) ← c.scan (expandMeta n (opt :: stack)) (vals opt).length (vals opt) [] vals
      pure (Function.update vals opt out)

/-- The string options, in the order of the table. -/
def strings : List Text := (c.options.entries.filter fun e => e.2 = .str).map Sigma.fst

instance (opt : Text) : Decidable (opt ∈ c.strings) := inferInstanceAs (Decidable (opt ∈ (_ : List Text)))

/-- `expand_all_meta`. A name is at most once on the stack. -/
def expandAllMeta (vals : Values) : Checked Values :=
  c.strings.foldlM (fun vals opt => c.expandMeta (c.strings.length + 1) [] opt vals) vals

end Config

end CephMds.ConfigMeta
