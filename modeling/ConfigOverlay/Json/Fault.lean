/-!
# What is wrong with a JSON text, and where

A fault names the rule that the text breaks and how many bytes follow the byte it was noticed at.
The place is found from that count afterwards: lines start at one, and the column counts the bytes
of the line up to and including the byte looked at.
-/

namespace ConfigOverlay.Json

/-- The rule of the JSON grammar that a text breaks. -/
inductive Reason where
  | endInList
  | endInObject
  | endInString
  | endInValue
  | expectedColon
  | expectedListCommaOrEnd
  | expectedObjectCommaOrEnd
  | expectedWord
  | expectedValue
  | invalidEscape
  | invalidNumber
  | numberOutOfRange
  | controlCharacter
  | keyMustBeString
  | loneSurrogate
  | unexpectedEndOfHexEscape
  | trailingComma
  | trailingCharacters
  | nestingLimit
deriving DecidableEq, Repr

/-- The wording of a reason. -/
def Reason.message : Reason → String
  | .endInList => "EOF while parsing a list"
  | .endInObject => "EOF while parsing an object"
  | .endInString => "EOF while parsing a string"
  | .endInValue => "EOF while parsing a value"
  | .expectedColon => "expected `:`"
  | .expectedListCommaOrEnd => "expected `,` or `]`"
  | .expectedObjectCommaOrEnd => "expected `,` or `\x7d`"
  | .expectedWord => "expected ident"
  | .expectedValue => "expected value"
  | .invalidEscape => "invalid escape"
  | .invalidNumber => "invalid number"
  | .numberOutOfRange => "number out of range"
  | .controlCharacter => "control character (\\u0000-\\u001F) found while parsing a string"
  | .keyMustBeString => "key must be a string"
  | .loneSurrogate => "lone leading surrogate in hex escape"
  | .unexpectedEndOfHexEscape => "unexpected end of hex escape"
  | .trailingComma => "trailing comma"
  | .trailingCharacters => "trailing characters"
  | .nestingLimit => "recursion limit exceeded"

/-- How many bytes characters take in UTF-8. -/
def byteCount : List Char → Nat
  | [] => 0
  | c :: cs => c.utf8Size + byteCount cs

/-- A broken rule, and the number of bytes after the place where it shows. -/
structure Fault where
  reason : Reason
  unread : Nat
deriving DecidableEq, Repr

/-- A fault that shows before any of the remaining characters. -/
def Fault.before (reason : Reason) (rest : List Char) : Fault := ⟨reason, byteCount rest⟩

/-- A fault that shows at the first byte of the remaining characters, or at the end of the text. -/
def Fault.on (reason : Reason) (rest : List Char) : Fault := ⟨reason, byteCount rest - 1⟩

/-- A place in a text. -/
structure Position where
  line : Nat
  column : Nat
deriving DecidableEq, Repr

/-- The place after so many bytes of a text, from a given place on. -/
def Position.advance (p : Position) : Nat → List Char → Position
  | _, [] => p
  | n, c :: cs =>
    if n = 0 then p
    else if c = '\n' then Position.advance ⟨p.line + 1, 0⟩ (n - 1) cs
    else if n < c.utf8Size then ⟨p.line, p.column + n⟩
    else Position.advance ⟨p.line, p.column + c.utf8Size⟩ (n - c.utf8Size) cs

/-- A broken rule and its place in the text. -/
structure SyntaxError where
  reason : Reason
  position : Position
deriving DecidableEq, Repr

/-- The place of a fault in the text it was found in. -/
def Fault.locate (fault : Fault) (text : List Char) : SyntaxError :=
  ⟨fault.reason, Position.advance ⟨1, 0⟩ (byteCount text - fault.unread) text⟩

/-- The wording of a syntax error. -/
def SyntaxError.message (e : SyntaxError) : String :=
  s!"{e.reason.message} at line {e.position.line} column {e.position.column}"

end ConfigOverlay.Json
