import ConfigOverlay.Document.Yaml.Lexeme

/-!
# Tokens of YAML

In block structure the column of a token says where it belongs, so the tokens carry that structure:
a block collection begins at the first token in a column of its own and ends before the first token
left of that column. Within flow collections, between brackets or braces, columns mean nothing.

A scalar is known to be a key by the colon behind it, which stands on its line. Anchors, aliases,
tags, directives and literal blocks are refused.
-/

namespace ConfigOverlay.Yaml

inductive Token where
  /-- A block sequence begins. -/
  | blockSequence
  /-- A block mapping begins. -/
  | blockMapping
  /-- The innermost block collection ends. -/
  | blockEnd
  /-- The mark of an item of a block sequence. -/
  | entry
  /-- A key follows. -/
  | key
  /-- The value of a key follows. -/
  | value
  /-- A scalar without quotes. -/
  | plain (text : List Char)
  /-- A scalar between quotes. -/
  | quoted (text : List Char)
  | flowSequence
  | flowSequenceEnd
  | flowMapping
  | flowMappingEnd
  | comma
  | documentStart
  | documentEnd
deriving DecidableEq

/-- What the tokens so far say about the next one. -/
structure Layout where
  /-- The columns of the open block collections, innermost first. -/
  columns : List Nat
  /-- How many flow collections are open. -/
  depth : Nat
  /-- Whether a key may start here; in block structure, a collection too. -/
  keys : Bool

namespace Layout

/-- The layout at the start of a text. -/
def start : Layout := ⟨[], 0, true⟩

/-- Within a flow collection. -/
def inFlow (s : Layout) : Bool := s.depth ≠ 0

/-- The column that a scalar must reach to go on in another line. -/
def indent (s : Layout) : Nat :=
  match s.columns with
  | [] => 0
  | column :: _ => column + 1

/-- Whether a token stands in the column of the innermost block collection. -/
def isAligned (s : Layout) (a : Place) : Bool := !s.inFlow && s.columns.head? = some a.column

/-- End the block collections that a test on their columns picks, from the innermost on. -/
def endBlocks (s : Layout) (ends : Nat → Bool) : List Token × Layout :=
  if s.inFlow then ([], s)
  else
    let columns := s.columns.dropWhile ends
    (List.replicate (s.columns.length - columns.length) .blockEnd, { s with columns := columns })

/-- Begin a block collection at a column, unless it goes on there. -/
def beginBlock (s : Layout) (token : Token) (column : Nat) : List Token × Layout :=
  if s.inFlow || column < s.indent then ([], s)
  else ([token], { s with columns := column :: s.columns })

/-- A token of one character, and whether a key may start after it. -/
def mark (s : Layout) (token : Token) (keys : Bool) (a : Place) (c : Char) (cs : List Char) :
    Option (List Token × Layout × Cursor) :=
  some ([token], { s with keys := keys }, ⟨a.after c, cs⟩)

/-- The mark of an item, a key or a value, which may begin a block collection. -/
def blockMark (s : Layout) (collection token : Token) (a : Place) (c : Char) (cs : List Char) :
    Option (List Token × Layout × Cursor) :=
  if !s.inFlow && !s.keys then none
  else
    let (begins, s) := s.beginBlock collection a.column
    some (begins ++ [token], { s with keys := !s.inFlow }, ⟨a.after c, cs⟩)

/-- How many bytes may lie between the start of a key and its colon. -/
def maxKeyBytes : Nat := 1024

/-- The position after the colon that makes a scalar a key, given where the scalar starts and what
follows it. -/
def colon? (s : Layout) (a : Place) (p : Cursor) : Option Cursor :=
  let blanks := p.rest.takeWhile isSpace
  let b : Place := blanks.foldl .after p.toPlace
  match p.rest.drop blanks.length with
  | ':' :: cs =>
    if (s.inFlow || atGap cs) && b.line = a.line && b.offset ≤ a.offset + maxKeyBytes then
      some ⟨b.after ':', cs⟩
    else none
  | _ => none

/-- The tokens of a scalar, which is a key if a key may start here and a colon follows. What stands
in the column of a block collection must be a key. -/
def scalar? (s : Layout) (a : Place) (token : Token) (breaks : Bool) (p : Cursor) :
    Option (List Token × Layout × Cursor) :=
  match if s.keys then s.colon? a p else none with
  | some p =>
    let (begins, s) := s.beginBlock .blockMapping a.column
    some (begins ++ [.key, token, .value], { s with keys := false }, p)
  | none =>
    if s.keys && s.isAligned a then none
    else some ([token], { s with keys := breaks }, p)

/-- The tokens at a position that is not at the end. -/
def next? (s : Layout) (a : Place) (c : Char) (cs : List Char) :
    Option (List Token × Layout × Cursor) :=
  let marker := fun token : Token =>
    let (ends, s) := s.endBlocks fun _ => true
    some (ends ++ [token], { s with keys := false }, ⟨((a.after c).after c).after c, cs.drop 2⟩)
  let openFlow := fun token : Token =>
    if s.keys && s.isAligned a then none
    else { s with depth := s.depth + 1 }.mark token true a c cs
  let closeFlow := fun token : Token =>
    if s.inFlow then { s with depth := s.depth - 1 }.mark token false a c cs else none
  if startsMarker '-' a (c :: cs) then marker .documentStart
  else if startsMarker '.' a (c :: cs) then marker .documentEnd
  else if c = '[' then openFlow .flowSequence
  else if c = '{' then openFlow .flowMapping
  else if c = ']' then closeFlow .flowSequenceEnd
  else if c = '}' then closeFlow .flowMappingEnd
  else if c = ',' then if s.inFlow then s.mark .comma true a c cs else none
  else if c = '-' && atGap cs then
    if s.inFlow then none else s.blockMark .blockSequence .entry a c cs
  else if c = '?' && (s.inFlow || atGap cs) then s.blockMark .blockMapping .key a c cs
  else if c = ':' && (s.inFlow || atGap cs) then s.blockMark .blockMapping .value a c cs
  else if c = '\'' || c = '"' then do
    let (text, p) ← quoted? c a cs
    s.scalar? a (.quoted text) false p
  else if startsPlain s.inFlow (c :: cs) then do
    let (text, breaks, p) ← plainFrom? s.inFlow s.indent .none a (c :: cs)
    s.scalar? a (.plain text) breaks p
  else none

/-- The tokens from a position on. The fuel bounds their number. -/
def tokensFrom? : Nat → Layout → Cursor → Option (List Token)
  | 0, _, _ => none
  | fuel + 1, s, p =>
    let (p, keys) := seekFrom s.inFlow false s.keys p.toPlace p.rest
    let s := { s with keys := keys }
    match p.rest with
    | [] => some (s.endBlocks fun _ => true).1
    | c :: cs => do
      let (ends, s) := s.endBlocks (p.column < ·)
      let (tokens, s, p) ← s.next? p.toPlace c cs
      let more ← tokensFrom? fuel s p
      return ends ++ tokens ++ more

end Layout

/-- The tokens of a text. -/
def tokens? (cs : List Char) : Option (List Token) :=
  Layout.tokensFrom? (cs.length + 1) .start ⟨.start, cs⟩

end ConfigOverlay.Yaml
