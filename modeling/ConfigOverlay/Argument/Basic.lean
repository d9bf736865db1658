import ConfigOverlay.Error

/-!
# Overlay arguments

An argument assigns one value at a key path or supplies a whole tree:

| form                           | value                                  |
|--------------------------------|----------------------------------------|
| `a.b=VALUE`, `--set=a.b=VALUE` | JSON if it can be, else the text       |
| `--set-json=a.b=JSON`          | JSON                                   |
| `--set-from-file=a.b=PATH`     | the document at `PATH`                 |
| `--set-from-fn=a.b=ID`         | what the factory `ID` makes            |
| `--from-file=PATH`             | the document at `PATH`, as whole tree  |
| `--from-fn=ID`                 | what the factory `ID` makes, likewise  |

`--set-from-py-fn=` and `--from-py-fn=` are other spellings of the two factory flags. The canonical
text of an argument has one spelling for each form; it needs `--set=` only before a path that
starts with a dash.
-/

namespace ConfigOverlay

/-- An overlay argument. -/
inductive Argument where
  | assign (path : KeyPath) (value : String)
  | assignJson (path : KeyPath) (value : String)
  | assignFile (path : KeyPath) (file : String)
  | assignFactory (path : KeyPath) (id : String)
  | wholeFile (file : String)
  | wholeFactory (id : String)
deriving DecidableEq, Repr

namespace Argument

/-- The flag of the form. -/
def flag : Argument → Flag
  | .assign .. => .set
  | .assignJson .. => .setJson
  | .assignFile .. => .setFromFile
  | .assignFactory .. => .setFromFn
  | .wholeFile .. => .fromFile
  | .wholeFactory .. => .fromFn

/-- Whether the argument supplies a whole tree. -/
def isWholeTree : Argument → Bool
  | .wholeFile _ | .wholeFactory _ => true
  | _ => false

/-- The path an argument assigns at. -/
def path? : Argument → Option KeyPath
  | .assign path _ | .assignJson path _ | .assignFile path _ | .assignFactory path _ => some path
  | .wholeFile _ | .wholeFactory _ => none

/-! ## Reading -/

/-- The text before and after the first equals sign. -/
def splitEquals : List Char → Option (List Char × List Char)
  | [] => none
  | c :: cs =>
    if c = '=' then some ([], cs)
    else (splitEquals cs).map fun (before, after) => (c :: before, after)

/-- A path, an equals sign and the text after it. -/
def readAssignment (cs : List Char) : Except Error (KeyPath × String) :=
  match splitEquals cs with
  | none => .error .notAssignment
  | some (key, value) =>
    match KeyPath.parse key with
    | .ok path => .ok (path, String.ofList value)
    | .error fault => .error (.invalidPath (String.ofList key) fault)

/-- What follows the flag of a form: an assignment, or the text of a whole-tree form. -/
inductive Form where
  | assignment (make : KeyPath → String → Argument)
  | whole (make : String → Argument)

/-- Every spelling of a flag with the form it announces. -/
def spellings : List (String × Form) := [
  ("--set=", .assignment .assign),
  ("--set-json=", .assignment .assignJson),
  ("--set-from-file=", .assignment .assignFile),
  ("--set-from-fn=", .assignment .assignFactory),
  ("--set-from-py-fn=", .assignment .assignFactory),
  ("--from-file=", .whole .wholeFile),
  ("--from-fn=", .whole .wholeFactory),
  ("--from-py-fn=", .whole .wholeFactory)]

/-- The form that a text starts with, and the text after its flag. -/
def findForm? (cs : List Char) : List (String × Form) → Option (Form × List Char)
  | [] => none
  | (spelling, form) :: rest =>
    match spelling.toList.isPrefixOf? cs with
    | some after => some (form, after)
    | none => findForm? cs rest

/-- The argument that a form makes of the text after its flag. -/
def Form.read (cs : List Char) : Form → Except Error Argument
  | .assignment make => do
    let (path, value) ← readAssignment cs
    return make path value
  | .whole make => .ok (make (String.ofList cs))

/-- Read an argument. A text that starts with a dash is a flag, and no assignment. -/
def parse (text : String) : Except Error Argument :=
  let cs := text.toList
  match findForm? cs spellings with
  | some (form, rest) => form.read rest
  | none =>
    if cs.head? = some '-' then
      let flag := match splitEquals cs with
        | some (before, _) => before
        | none => cs
      .error (.unknownFlag (String.ofList flag))
    else (Form.assignment .assign).read cs

/-! ## Writing -/

/-- A path, an equals sign and a text. -/
def assignment (path : KeyPath) (value : String) : String := path.display ++ "=" ++ value

/-- An assignment behind `--set=` where its path could be taken for a flag. -/
def guarded (path : KeyPath) (value : String) : String :=
  if path.display.toList.head? = some '-' then "--set=" ++ assignment path value
  else assignment path value

/-- The canonical text. -/
def display : Argument → String
  | .assign path value => guarded path value
  | .assignJson path value => "--set-json=" ++ assignment path value
  | .assignFile path file => "--set-from-file=" ++ assignment path file
  | .assignFactory path id => "--set-from-fn=" ++ assignment path id
  | .wholeFile file => "--from-file=" ++ file
  | .wholeFactory id => "--from-fn=" ++ id

end Argument

end ConfigOverlay
