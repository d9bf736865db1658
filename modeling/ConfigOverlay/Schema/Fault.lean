import ConfigOverlay.Number.Basic
import ConfigOverlay.Text.Visible
import ConfigOverlay.Tree.Basic

/-!
# Why a tree does not fit a schema

A fault of binding names the rule that a value breaks. What was found is told by kind, and by value
for scalars.
-/

namespace ConfigOverlay.Schema

/-- What stands where something else was expected. -/
inductive Found where
  | null
  | bool (value : Bool)
  | number (value : Number)
  | text (value : String)
  | sequence
  | map

/-- What a tree without atoms shows to a reader that expects something else. -/
def Found.ofTree (t : Tree) : Found :=
  match t.unwrap with
  | .null => .null
  | .bool b => .bool b
  | .number n => .number n
  | .text s => .text s
  | .array _ => .sequence
  | _ => .map

def Found.message : Found → String
  | .null => "null"
  | .bool b => s!"boolean `{b}`"
  | .number n =>
    let kind := if n.isInt then "integer" else "floating point"
    s!"{kind} `{String.ofList n.text}`"
  | .text s => s!"string {Text.quoted s}"
  | .sequence => "sequence"
  | .map => "map"

/-- Why a tree does not fit. -/
inductive Fault where
  | missingField (name : String)
  | unknownField (name : String) (expected : List String)
  | unknownVariant (name : String) (expected : List String)
  | invalidType (found : Found) (expected : String)
  | invalidValue (found : Found) (expected : String)
  | invalidLength (length : Nat) (expected : String)
  /-- A reason in words, from a target that reads trees by itself. -/
  | other (reason : String)

/-- Names a reader can choose from, the last two joined by a word. -/
def oneOf : List String → String
  | [a] => s!"`{a}`"
  | [a, b] => s!"`{a}` or `{b}`"
  | names => "one of " ++ String.intercalate ", " (names.map fun n => s!"`{n}`")

/-- A number of elements in words. -/
def elements (n : Nat) : String := if n = 1 then "1 element" else s!"{n} elements"

def Fault.message : Fault → String
  | .missingField name => s!"missing field `{name}`"
  | .unknownField name [] => s!"unknown field `{name}`, there are no fields"
  | .unknownField name expected => s!"unknown field `{name}`, expected {oneOf expected}"
  | .unknownVariant name [] => s!"unknown variant `{name}`, there are no variants"
  | .unknownVariant name expected => s!"unknown variant `{name}`, expected {oneOf expected}"
  | .invalidType found expected => s!"invalid type: {found.message}, expected {expected}"
  | .invalidValue found expected => s!"invalid value: {found.message}, expected {expected}"
  | .invalidLength n expected => s!"invalid length {n}, expected {expected}"
  | .other reason => reason

/-- Why a value has no tree. -/
inductive UnbindFault where
  | keyMustBeString
  | numberOutOfRange
  /-- A reason in words, from a value that makes trees by itself. -/
  | other (reason : String)
deriving DecidableEq

def UnbindFault.message : UnbindFault → String
  | .keyMustBeString => "key must be a string"
  | .numberOutOfRange => "number out of range"
  | .other reason => reason

end ConfigOverlay.Schema
