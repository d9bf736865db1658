import ConfigOverlay.Number.Digits

/-!
# Lexemes of TOML

Blanks, comments, texts in quotes and keys. Line breaks are line feeds here, because a text is
brought to that form before it is read.
-/

namespace ConfigOverlay.Toml

/-- Blanks within a line. -/
def isBlank (c : Char) : Bool := c = ' ' || c = '\t'

/-- The characters that comments and texts in quotes may hold as they are. -/
def isPlain (c : Char) : Bool :=
  c = '\t' || (' ' ≤ c && c ≤ '~') || 0x80 ≤ c.toNat

/-- Drop leading blanks. -/
def skipBlanks : List Char → List Char := List.dropWhile isBlank

/-- Drop blanks, line breaks and comments. -/
def skipLines (inComment : Bool) : List Char → List Char
  | [] => []
  | c :: cs =>
    if c = '\n' then skipLines false cs
    else if inComment && isPlain c then skipLines true cs
    else if isBlank c then skipLines false cs
    else if c = '#' then skipLines true cs
    else c :: cs

/-- What follows a line whose rest holds nothing but blanks and a comment. -/
def endOfLine? (cs : List Char) : Option (List Char) :=
  let rest := match skipBlanks cs with
    | '#' :: rest => rest.dropWhile isPlain
    | rest => rest
  match rest with
  | [] => some []
  | c :: rest => if c = '\n' then some rest else none

/-! ## Texts in quotes -/

/-- The escapes of one letter. -/
def letterEscapes : List (Char × Char) := [
  ('b', '\x08'), ('t', '\t'), ('n', '\n'), ('f', '\x0c'), ('r', '\r'), ('"', '"'), ('\\', '\\')]

/-- The character of an escape after its backslash. -/
def escape? : List Char → Option (Char × List Char)
  | [] => none
  | c :: cs =>
    let coded := fun width : Nat =>
      if cs.length < width then none
      else (codePoint? (cs.take width)).map fun e => (e, cs.drop width)
    if c = 'u' then coded 4
    else if c = 'U' then coded 8
    else (letterEscapes.lookup c).map fun e => (e, cs)

/-- The rest after a backslash that ends its line: blanks and line breaks up to the next character
are not part of the text. -/
def joinedLine? (cs : List Char) : Option (List Char) :=
  match skipBlanks cs with
  | '\n' :: rest => some (rest.dropWhile fun c => isBlank c || c = '\n')
  | _ => none

/-- How a text in quotes is written: with which quote, and whether over several lines. Escapes
count between double quotes only. -/
structure Quoting where
  quote : Char
  long : Bool

/-- The characters up to the closing quote, or to the last three of up to five when the text is
long. The fuel bounds the number of steps. -/
def quotedBody? (style : Quoting) : Nat → List Char → Option (List Char × List Char)
  | 0, _ | _ + 1, [] => none
  | fuel + 1, c :: cs =>
    let more := fun (c : Char) (cs : List Char) =>
      (quotedBody? style fuel cs).map fun (s, rest) => (c :: s, rest)
    if c = style.quote then
      if !style.long then some ([], cs)
      else
        let run := ((c :: cs).takeWhile (· = c)).length
        if run < 3 then more c cs
        else some (List.replicate (min run 5 - 3) c, (c :: cs).drop (min run 5))
    else if c = '\\' && style.quote = '"' then
      match style.long, joinedLine? cs with
      | true, some rest => quotedBody? style fuel rest
      | _, _ => do
        let (e, rest) ← escape? cs
        more e rest
    else if isPlain c || (style.long && c = '\n') then more c cs
    else none

/-- A text in quotes on one line. -/
def shortText? : List Char → Option (String × List Char)
  | [] => none
  | c :: cs =>
    if c = '"' || c = '\'' then
      (quotedBody? ⟨c, false⟩ (cs.length + 1) cs).map fun (s, rest) => (String.ofList s, rest)
    else none

/-- A text in quotes. Three quotes open a long one, whose first line break is dropped when it
follows them at once. -/
def text? (cs : List Char) : Option (String × List Char) :=
  let long := fun (c : Char) (cs : List Char) =>
    let body := match cs with
      | '\n' :: rest => rest
      | _ => cs
    (quotedBody? ⟨c, true⟩ (body.length + 1) body).map fun (s, rest) => (String.ofList s, rest)
  match cs with
  | '"' :: '"' :: '"' :: rest => long '"' rest
  | '\'' :: '\'' :: '\'' :: rest => long '\'' rest
  | _ => shortText? cs

/-! ## Keys -/

/-- The characters of a key without quotes. -/
def isBare (c : Char) : Bool := c.isAlphanum || c = '-' || c = '_'

/-- One name of a key. -/
def name? (cs : List Char) : Option (String × List Char) :=
  match shortText? cs with
  | some found => some found
  | none =>
    let bare := cs.takeWhile isBare
    if bare.isEmpty then none else some (String.ofList bare, cs.dropWhile isBare)

/-- The names of a key, with dots between them, and the rest after the blanks that follow. The fuel
bounds how many there may be. -/
def key? : Nat → List Char → Option (List String × List Char)
  | 0, _ => none
  | fuel + 1, cs => do
    let (name, rest) ← name? (skipBlanks cs)
    match skipBlanks rest with
    | '.' :: rest =>
      let (names, rest) ← key? fuel rest
      return (name :: names, rest)
    | rest => return ([name], rest)

end ConfigOverlay.Toml
