import ConfigOverlay.Document.Toml.Lexeme
import ConfigOverlay.Document.Toml.Scalar
import ConfigOverlay.Document.Toml.Table

/-!
# Values of TOML

Scalars, arrays and inline tables. An array may spread over lines and end with a comma, an inline
table may not. Collections nest through an allowance, so the recursion follows it.
-/

namespace ConfigOverlay.Toml

/-- How many collections may nest, and how many names a key may have. -/
def maxNesting : Nat := 79

/-- Reads a value and answers with the characters after it. -/
abbrev ValueReader := List Char → Option (Tree × List Char)

/-- The items of an array up to its bracket. The fuel bounds their number. -/
def items? (value : ValueReader) : Nat → List Char → Option (List Tree × List Char)
  | 0, _ => none
  | fuel + 1, cs =>
    match skipLines false cs with
    | ']' :: rest => some ([], rest)
    | cs => do
      let (x, rest) ← value cs
      match skipLines false rest with
      | ']' :: rest => return ([x], rest)
      | ',' :: rest =>
        let (xs, rest) ← items? value fuel rest
        return (x :: xs, rest)
      | _ => none

/-- A key with its value. -/
def pair? (value : ValueReader) (cs : List Char) : Option ((KeyPath × Tree) × List Char) := do
  let (path, rest) ← key? maxNesting cs
  match rest with
  | '=' :: rest =>
    let (x, rest) ← value (skipBlanks rest)
    return ((path, x), rest)
  | _ => none

/-- The pairs of an inline table up to its brace. The fuel bounds their number. -/
def pairs? (value : ValueReader) : Nat → List Char → Option (List (KeyPath × Tree) × List Char)
  | 0, _ => none
  | fuel + 1, cs => do
    let (p, rest) ← pair? value cs
    match skipBlanks rest with
    | '}' :: rest => return ([p], rest)
    | ',' :: rest =>
      let (ps, rest) ← pairs? value fuel rest
      return (p :: ps, rest)
    | _ => none

/-- An inline table after its brace. -/
def inlineTable? (value : ValueReader) (cs : List Char) : Option (Tree × List Char) :=
  match skipBlanks cs with
  | '}' :: rest => some (.empty, rest)
  | cs => do
    let (pairs, rest) ← pairs? value (cs.length + 1) cs
    return (.object (fieldTrees (← fill? pairs [])), rest)

/-- Whether a scalar without quotes goes on at a character. -/
def continuesScalar (c : Char) : Bool := !(isBlank c || c = '\n' || ['#', ',', ']', '}'].contains c)

/-- A value. -/
def value? : Nat → ValueReader
  | allowance, cs =>
    match cs with
    | [] => none
    | c :: rest =>
      if c = '[' || c = '{' then
        match allowance with
        | 0 => none
        | allowance + 1 =>
          if c = '[' then
            (items? (value? allowance) (rest.length + 1) rest).map fun (xs, rest) =>
              (.array xs, rest)
          else inlineTable? (value? allowance) rest
      else if c = '"' || c = '\'' then (text? cs).map fun (s, rest) => (.text s, rest)
      else do
        let t ← scalarTree? (cs.takeWhile continuesScalar)
        return (t, cs.dropWhile continuesScalar)

end ConfigOverlay.Toml
