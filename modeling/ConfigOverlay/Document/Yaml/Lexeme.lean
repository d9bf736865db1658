import ConfigOverlay.Number.Digits

/-!
# Characters and scalars of YAML

The way to the next token, and the texts of plain and quoted scalars. A scalar may run over several
lines: what lies between two of its words is collected as a gap, and a gap across lines is folded.
Lines and columns are counted along the way, because the structure of a document is told by them.
-/

namespace ConfigOverlay.Yaml

/-! ## Characters -/

/-- Blanks within a line. -/
def isSpace (c : Char) : Bool := c = ' ' || c = '\t'

/-- The ends of lines, once the line feed stands for all of its variants. -/
def isBreak (c : Char) : Bool := c = '\n' || c = '\u2028' || c = '\u2029'

/-- Blanks and line breaks. -/
def isGap (c : Char) : Bool := isSpace c || isBreak c

/-- Whether the characters start with a blank or a line break, or are at their end. -/
def atGap : List Char → Bool
  | [] => true
  | c :: _ => isGap c

/-- Whether a character may stand in a document. -/
def isPrintable (c : Char) : Bool :=
  let n := c.toNat
  n = 0x09 || n = 0x0A || n = 0x0D || (0x20 ≤ n && n ≤ 0x7E) || n = 0x85 ||
    (0xA0 ≤ n && n ≠ 0xFFFE && n ≠ 0xFFFF)

/-- The characters with a line feed for every carriage return, next line, and pair of carriage
return and line feed. -/
def unifyBreaks : List Char → List Char
  | [] => []
  | '\r' :: '\n' :: cs => '\n' :: unifyBreaks cs
  | c :: cs => (if c = '\r' || c = '\u0085' then '\n' else c) :: unifyBreaks cs

/-- The characters that structure flow collections. -/
def flowIndicators : List Char := [',', '[', ']', '{', '}']

/-- The characters that a plain scalar cannot start with. -/
def indicators : List Char :=
  [',', '[', ']', '{', '}', '#', '&', '*', '!', '|', '>', '\'', '"', '%', '@', '\x60']

/-! ## Places -/

/-- A line and a column, counted from zero. -/
structure Place where
  line : Nat
  column : Nat
  /-- How many bytes lie before the place in its line. -/
  offset : Nat

/-- The place where a text starts. -/
def Place.start : Place := ⟨0, 0, 0⟩

/-- The place behind a character. -/
def Place.after (a : Place) (c : Char) : Place :=
  if isBreak c then ⟨a.line + 1, 0, 0⟩ else ⟨a.line, a.column + 1, a.offset + c.utf8Size⟩

/-- The remaining characters and the place of the first. -/
structure Cursor extends Place where
  rest : List Char

/-- Whether three characters of one kind stand at the start of a line, on their own. -/
def startsMarker (mark : Char) (a : Place) (cs : List Char) : Bool :=
  a.column = 0 && cs.take 3 = [mark, mark, mark] && atGap (cs.drop 3)

/-- Whether a marker of documents stands here. -/
def atMarker (a : Place) (cs : List Char) : Bool := startsMarker '-' a cs || startsMarker '.' a cs

/-- Go on to the next token, past blanks, comments, line breaks and a byte order mark at the start
of a line. Tabs are refused where a key may start, which is after every line break in block
structure; the answer tells whether one may. -/
def seekFrom (flow : Bool) : Bool → Bool → Place → List Char → Cursor × Bool
  | _, keys, a, [] => (⟨a, []⟩, keys)
  | comment, keys, a, c :: cs =>
    let skipped :=
      comment || c = ' ' || (c = '\t' && (flow || !keys)) || (c = '\ufeff' && a.column = 0)
    if isBreak c then seekFrom flow false (keys || !flow) (a.after c) cs
    else if skipped then seekFrom flow comment keys (a.after c) cs
    else if c = '#' then seekFrom flow true keys (a.after c) cs
    else (⟨a, c :: cs⟩, keys)

/-! ## Gaps -/

/-- What lies between two words of a scalar. -/
inductive Gap where
  /-- Blanks within a line. -/
  | within (spaces : List Char)
  /-- Line breaks: the first, unless it was escaped, and the further ones. -/
  | across (first : Option Char) (more : List Char)

/-- No gap. -/
def Gap.none : Gap := .within []

/-- Whether the next character stands right behind the last. -/
def Gap.isNone : Gap → Bool
  | .within spaces => spaces.isEmpty
  | .across _ _ => false

/-- Whether the next word stands on another line. -/
def Gap.crosses : Gap → Bool
  | .within _ => false
  | .across _ _ => true

/-- The gap with one more blank or line break. Blanks next to a line break do not count. -/
def Gap.add (c : Char) : Gap → Gap
  | .within spaces => if isBreak c then .across (some c) [] else .within (spaces ++ [c])
  | .across first more => if isBreak c then .across first (more ++ [c]) else .across first more

/-- The text of a gap. A single line feed is a blank, and the first of several is left out; other
line breaks stand for themselves. -/
def Gap.text : Gap → List Char
  | .within spaces => spaces
  | .across (some '\n') [] => [' ']
  | .across (some '\n') more => more
  | .across first more => first.toList ++ more

/-! ## Plain scalars -/

/-- Whether a plain scalar can start here. -/
def startsPlain (flow : Bool) : List Char → Bool
  | [] => false
  | c :: cs =>
    if c = '-' then !atGap cs
    else if c = '?' || c = ':' then !flow && !atGap cs
    else !indicators.contains c && !isGap c

/-- A colon right before the structure of a flow collection, where no plain scalar may end. -/
def endsInColon : List Char → Bool
  | ':' :: c :: _ => c = '?' || flowIndicators.contains c
  | _ => false

/-- The rest of a plain scalar after a gap: its text, whether line breaks follow it, and the
position after these. It ends before a colon that ends a key, a comment, a marker of documents, a
line that starts left of `indent`, and in a flow collection before its structure. A tab left of
`indent` is refused. -/
def plainFrom? (flow : Bool) (indent : Nat) :
    Gap → Place → List Char → Option (List Char × Bool × Cursor)
  | gap, a, [] => some ([], gap.crosses, ⟨a, []⟩)
  | gap, a, c :: cs =>
    let outside := gap.crosses && a.column < indent
    if isGap c then
      if c = '\t' && outside then none
      else plainFrom? flow indent (gap.add c) (a.after c) cs
    else if flow && endsInColon (c :: cs) then none
    else
      let ends :=
        (c = ':' && atGap cs) || (c = '#' && !gap.isNone) || atMarker a (c :: cs) ||
          (if flow then flowIndicators.contains c else outside)
      if ends then some ([], gap.crosses, ⟨a, c :: cs⟩)
      else
        (plainFrom? flow indent .none (a.after c) cs).map fun (s, ended) =>
          (gap.text ++ c :: s, ended)

/-! ## Quoted scalars -/

/-- The escapes of one letter. -/
def letterEscapes : List (Char × Char) := [
  ('0', '\x00'), ('a', '\x07'), ('b', '\x08'), ('t', '\t'), ('\t', '\t'), ('n', '\n'),
  ('v', '\x0b'), ('f', '\x0c'), ('r', '\r'), ('e', '\x1b'), (' ', ' '), ('"', '"'), ('/', '/'),
  ('\\', '\\'), ('N', '\u0085'), ('_', '\u00a0'), ('L', '\u2028'), ('P', '\u2029')]

/-- The character of an escape, and how many characters it takes after its backslash. -/
def escape? : List Char → Option (Char × Nat)
  | [] => none
  | c :: cs =>
    let coded := fun width : Nat =>
      let digits := cs.take width
      if digits.length < width then none
      else (codePoint? digits).map fun e => (e, width + 1)
    if c = 'x' then coded 2
    else if c = 'u' then coded 4
    else if c = 'U' then coded 8
    else (letterEscapes.lookup c).map fun e => (e, 1)

/-- The rest of a quoted scalar after a gap, with some characters to pass over first, which belong
to an escape: its text and the position after its closing quote. Between single quotes a quote is
written twice; between double quotes a backslash starts an escape, and at the end of a line it joins
the line to the next. -/
def quotedFrom? (quote : Char) : Nat → Gap → Place → List Char → Option (List Char × Cursor)
  | _, _, _, [] => none
  | skip + 1, gap, a, c :: cs => quotedFrom? quote skip gap (a.after c) cs
  | 0, gap, a, c :: cs =>
    let go := fun (skip : Nat) (gap : Gap) (word : List Char) =>
      (quotedFrom? quote skip gap (a.after c) cs).map fun (s, p) => (word ++ s, p)
    if isGap c then go 0 (gap.add c) []
    else if atMarker a (c :: cs) then none
    else if c = quote then
      if quote = '\'' && cs.head? = some quote then go 1 .none (gap.text ++ [quote])
      else some (gap.text, ⟨a.after c, cs⟩)
    else if quote = '"' && c = '\\' then
      if cs.head?.any isBreak then go 1 (.across none []) gap.text
      else do
        let (e, width) ← escape? cs
        go width .none (gap.text ++ [e])
    else go 0 .none (gap.text ++ [c])

/-- The text of the quoted scalar that starts with a quote, and the position after it. -/
def quoted? (quote : Char) (a : Place) (cs : List Char) : Option (List Char × Cursor) :=
  quotedFrom? quote 0 .none (a.after quote) cs

end ConfigOverlay.Yaml
