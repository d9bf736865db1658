import ConfigOverlay.FileSystem
import ConfigOverlay.Json.Fault

/-!
# Document formats

The format of a document follows the extension of its file name: JSON and TOML by name, in any
case, and YAML for everything else. A name has an extension when it holds a dot that is not its
first character.
-/

namespace ConfigOverlay

/-- The language of a document. -/
inductive DocumentFormat where
  | json
  | toml
  | yaml
deriving DecidableEq, Repr

def DocumentFormat.name : DocumentFormat → String
  | .json => "Json"
  | .toml => "Toml"
  | .yaml => "Yaml"

/-- Why a document cannot be understood. -/
inductive DocumentFault where
  | json (error : Json.SyntaxError)
  | toml
  | yaml
deriving DecidableEq, Repr

def DocumentFault.message : DocumentFault → String
  | .json error => error.message
  | .toml => "<toml error>"
  | .yaml => "<yaml error>"

namespace DocumentFormat

/-- The last name of a path, if it names a file or directory. -/
def fileName? (path : String) : Option String :=
  match ((FileSystem.names path).filter fun n => n ≠ "" ∧ n ≠ ".").getLast? with
  | some ".." => none
  | name => name

/-- What follows the last dot of a name that has one past its first character. -/
def extension? (name : String) : Option (List Char) :=
  let ext := (name.toList.reverse.takeWhile (· ≠ '.')).reverse
  if ext.length + 1 < name.length then some ext else none

/-- The format of the document at a path. -/
def ofPath (path : String) : DocumentFormat :=
  match (fileName? path).bind extension? with
  | some ext =>
    match ext.map Char.toLower with
    | ['j', 's', 'o', 'n'] => .json
    | ['t', 'o', 'm', 'l'] => .toml
    | _ => .yaml
  | none => .yaml

end DocumentFormat

end ConfigOverlay
