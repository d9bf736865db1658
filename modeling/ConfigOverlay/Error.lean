import ConfigOverlay.Document.Format
import ConfigOverlay.KeyPath.Basic
import ConfigOverlay.Schema.Fault

/-!
# Errors

Every way in which compiling, loading or replaying can fail, as a cause. An error at an argument
wraps its cause together with the argument and the whole list it stands in. Errors name arguments
by their flags and factories by their identifiers.
-/

namespace ConfigOverlay

/-! ## Flags -/

/-- The flag of an overlay argument; a plain assignment counts as `--set`. -/
inductive Flag where
  | set
  | setJson
  | setFromFile
  | setFromFn
  | fromFile
  | fromFn
deriving DecidableEq, Repr

/-- How the flag is written. -/
def Flag.name : Flag → String
  | .set => "--set"
  | .setJson => "--set-json"
  | .setFromFile => "--set-from-file"
  | .setFromFn => "--set-from-fn"
  | .fromFile => "--from-file"
  | .fromFn => "--from-fn"

/-! ## Identifiers

An identifier is a non-empty text of visible ASCII characters, so it can stand in an argument
without quoting. -/

namespace Identifier

/-- What is wrong with an identifier. -/
inductive Fault where
  | empty
  | unprintable
deriving DecidableEq, Repr

def Fault.message : Fault → String
  | .empty => "identifier is empty"
  | .unprintable => "identifiers must be printable ASCII without whitespace"

/-- The visible characters of ASCII. -/
def isGraphic (c : Char) : Bool := 0x21 ≤ c.toNat && c.toNat ≤ 0x7e

/-- What is wrong with a text as an identifier, if anything is. -/
def fault? (id : String) : Option Fault :=
  if id.toList.isEmpty then some .empty
  else if id.toList.all isGraphic then none
  else some .unprintable

end Identifier

/-! ## Errors -/

/-- Why an operation failed. -/
inductive Error where
  /-- The argument at a place of a list failed. -/
  | invalidArgument (index : Nat) (argument : String) (arguments : List String) (source : Error)
  | notAssignment
  | unknownFlag (flag : String)
  | invalidPath (path : String) (fault : KeyPath.Fault)
  | invalidJson (text : String) (error : Json.SyntaxError)
  /-- A whole tree past the first argument, where only the first may be one. -/
  | misplacedWholeTree (flag : Flag)
  | notAnObject (flag : Flag) (kind : Kind)
  | tooDeep (depth : Nat)
  | unreadableFile (path : String) (fault : FileFault)
  | malformedDocument (path : String) (fault : DocumentFault)
  | unknownIdentifier (id : String)
  | duplicateIdentifier (id : String)
  | invalidIdentifier (id : String) (fault : Identifier.Fault)
  | unknownKey (key : String)
  | unknownKeys (keys : List String)
  | bind (fault : Schema.Fault)
  | unbind (fault : Schema.UnbindFault)
  /-- A required setting has no value. -/
  | missingSetting (key : String)
  /-- The overlay replaces the root, which no path names. -/
  | unrepresentableRoot

namespace Error

instance : Inhabited Error := ⟨.notAssignment⟩

/-- The innermost error. -/
def cause : Error → Error
  | .invalidArgument _ _ _ source => source.cause
  | e => e

/-- The wording of an error. -/
def message : Error → String
  | .invalidArgument index argument arguments source =>
    s!"Invalid argument #{index} '{argument}': {source.message}\n  in: " ++
      String.intercalate " " arguments
  | .notAssignment => "Not an assignment: expected `key.path=value`"
  | .unknownFlag flag =>
    s!"Unrecognized flag '{flag}'. Only --set, --set-json, --set-from-file, --set-from-fn, " ++
      "--from-file and --from-fn may start with '-'; use `--set=-key=value` for keys starting " ++
      "with '-'"
  | .invalidPath path fault => s!"Invalid key path '{path}': {fault.message}"
  | .invalidJson text error => s!"Invalid JSON value '{text}': {error.message}"
  | .misplacedWholeTree flag => s!"{flag.name} is only allowed as the first argument"
  | .notAnObject flag kind => s!"{flag.name} needs an object at the top level, got {kind.name}"
  | .tooDeep depth => s!"Value nests {depth} levels deep (limit is {maxDepth})"
  | .unreadableFile path fault => s!"Failed to read {path}: {fault.message}"
  | .malformedDocument path fault => s!"Failed to parse {path}: {fault.message}"
  | .unknownIdentifier id => s!"Unknown identifier '{id}'"
  | .duplicateIdentifier id => s!"Identifier '{id}' is already registered"
  | .invalidIdentifier id fault => s!"Invalid identifier '{id}': {fault.message}"
  | .unknownKey key => s!"Unknown key '{key}'"
  | .unknownKeys keys => "Unknown keys in configuration: " ++ String.intercalate ", " keys
  | .bind fault => s!"Cannot bind configuration: {fault.message}"
  | .unbind fault => s!"Cannot convert value to a configuration tree: {fault.message}"
  | .missingSetting key =>
    s!"Configuration error: required configuration value is missing: '{key}'"
  | .unrepresentableRoot =>
    "Overlay replaces the whole tree and cannot be written as key assignments"

/-- How an error is listed among unknown keys: an unknown key by the key alone. -/
def listed : Error → String
  | .unknownKey key => key
  | e => e.message

/-- The error of the argument at a place of a list. -/
def atArgument (index : Nat) (argument : String) (arguments : List String) (e : Error) : Error :=
  .invalidArgument index argument arguments e

end Error

end ConfigOverlay
