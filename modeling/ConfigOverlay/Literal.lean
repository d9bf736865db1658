import ConfigOverlay.Error
import ConfigOverlay.Json.Reader

/-!
# Values written in arguments

The value of a strict assignment is JSON. The value of a plain assignment is JSON if it can be, and
its own text otherwise, unless it looks structured: a text with a bracket, a brace or a quote was
meant to be JSON, and what is wrong with it is reported.
-/

namespace ConfigOverlay.Literal

/-- The characters that announce structure. -/
def structuredChars : List Char := ['[', ']', '{', '}', '"']

/-- Whether a text was meant to be structured. -/
def looksStructured (text : String) : Bool := text.toList.any structuredChars.contains

/-- The value of a strict assignment. -/
def parseJson (text : String) : Except Error Tree :=
  (Json.parse text).mapError (.invalidJson text)

/-- The value of a plain assignment. -/
def parseScalar (text : String) : Except Error Tree :=
  match Json.parse text with
  | .ok t => .ok t
  | .error e => if looksStructured text then .error (.invalidJson text e) else .ok (.text text)

end ConfigOverlay.Literal
