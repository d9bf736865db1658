import ConfigOverlay.Document.Yaml.Scalar
import ConfigOverlay.Document.Yaml.Token

/-!
# Documents of YAML

The tree of a document is read from its tokens. An item, a key or a value that is left out is null,
a key is the text of a scalar, and the last of several values of a key counts. Collections nest
through an allowance, and the loops over their entries take the reader of nested nodes as an
argument.
-/

namespace ConfigOverlay.Yaml

/-- How many collections may nest. -/
def maxNesting : Nat := 128

/-- Reads the node at the head of some tokens. -/
abbrev NodeReader := List Token → Option (Tree × List Token)

/-- Whether a node starts with a token. -/
def Token.startsNode : Token → Bool
  | .plain _ | .quoted _ | .blockSequence | .blockMapping | .flowSequence | .flowMapping => true
  | _ => false

/-- Whether a node starts here. -/
def startsNode (ts : List Token) : Bool := ts.head?.any Token.startsNode

/-! ## Entries -/

/-- The node that starts here, or null. -/
def nodeOrNull? (node : NodeReader) : NodeReader := fun ts =>
  if startsNode ts then node ts else some (.null, ts)

/-- The text of the key that starts here, which is empty when it is left out. -/
def keyText? : List Token → Option (String × List Token)
  | .plain text :: ts | .quoted text :: ts => some (String.ofList text, ts)
  | ts => if startsNode ts then none else some ("", ts)

/-- The value of a key: null without a mark of its own. The items of a sequence may stand in the
column of the key. -/
def value? (node : NodeReader) : NodeReader
  | .value :: .entry :: ts => node (.entry :: ts)
  | .value :: ts => nodeOrNull? node ts
  | ts => some (.null, ts)

/-- A key and its value. -/
def field? (node : NodeReader) (ts : List Token) : Option ((String × Tree) × List Token) := do
  let (key, ts) ← keyText? ts
  let (value, ts) ← value? node ts
  return ((key, value), ts)

/-- The items of a sequence, as long as there are marks. The fuel bounds their number. -/
def items? (node : NodeReader) : Nat → List Token → Option (List Tree × List Token)
  | fuel + 1, .entry :: ts => do
    let (x, ts) ← nodeOrNull? node ts
    let (xs, ts) ← items? node fuel ts
    return (x :: xs, ts)
  | 0, .entry :: _ => none
  | _, ts => some ([], ts)

/-- The fields of a mapping, as long as there are keys. The fuel bounds their number. -/
def fields? (node : NodeReader) : Nat → List Token → Option (List (String × Tree) × List Token)
  | fuel + 1, .key :: ts => do
    let (f, ts) ← field? node ts
    let (fs, ts) ← fields? node fuel ts
    return (f :: fs, ts)
  | 0, .key :: _ => none
  | _, ts => some ([], ts)

/-- Entries between commas up to a closing token; a comma may follow the last. The fuel bounds their
number. -/
def separated? {α : Type} (close : Token) (entry : List Token → Option (α × List Token)) :
    Nat → List Token → Option (List α × List Token)
  | 0, _ => none
  | fuel + 1, ts =>
    if ts.head? = some close then some ([], ts.drop 1)
    else do
      let (x, ts) ← entry ts
      match ts with
      | .comma :: ts =>
        let (xs, ts) ← separated? close entry fuel ts
        return (x :: xs, ts)
      | t :: ts => if t = close then return ([x], ts) else none
      | [] => none

/-- An entry of a flow mapping, in which a scalar alone is a key. -/
def flowField? (node : NodeReader) : List Token → Option ((String × Tree) × List Token)
  | .key :: ts => field? node ts
  | .plain text :: ts | .quoted text :: ts => some ((String.ofList text, .null), ts)
  | _ => none

/-- The tokens after the end of a block collection. -/
def afterBlock? {α : Type} : α × List Token → Option (α × List Token)
  | (x, .blockEnd :: ts) => some (x, ts)
  | _ => none

/-! ## Nodes -/

/-- The node at the head of some tokens. Marks without a beginning are a sequence in the column of
its key, and a key without one is a pair in a flow sequence, a mapping of its own. -/
def node? : Nat → NodeReader
  | _, .plain text :: ts => (plainTree? text).map fun t => (t, ts)
  | _, .quoted text :: ts => some (.text (String.ofList text), ts)
  | allowance + 1, .blockSequence :: ts => do
    let (xs, ts) ← afterBlock? (← items? (node? allowance) ts.length ts)
    return (.array xs, ts)
  | allowance + 1, .entry :: ts => do
    let (xs, ts) ← items? (node? allowance) (ts.length + 1) (.entry :: ts)
    return (.array xs, ts)
  | allowance + 1, .blockMapping :: ts => do
    let (fs, ts) ← afterBlock? (← fields? (node? allowance) ts.length ts)
    return (.object (Fields.ofPairs fs), ts)
  | allowance + 1, .flowSequence :: ts => do
    let (xs, ts) ← separated? .flowSequenceEnd (node? allowance) (ts.length + 1) ts
    return (.array xs, ts)
  | allowance + 1, .flowMapping :: ts => do
    let (fs, ts) ← separated? .flowMappingEnd (flowField? (node? allowance)) (ts.length + 1) ts
    return (.object (Fields.ofPairs fs), ts)
  | allowance + 1, .key :: ts => do
    if !startsNode ts then none
    let (f, ts) ← field? (node? allowance) ts
    return (.object [f], ts)
  | _, _ => none

/-! ## Documents -/

/-- The tree of the only document among some tokens. It may start with a marker, and then be empty;
end markers alone may follow. Without any token the tree is null. -/
def document? (ts : List Token) : Option Tree := do
  let (t, ts) ← match ts with
    | [] => some (.null, [])
    | .documentStart :: ts => nodeOrNull? (node? maxNesting) ts
    | ts => node? maxNesting ts
  if ts.all (· = .documentEnd) then return t else none

/-- The tree of a text that holds one document; a text without any is null. -/
def parse? (text : String) : Option Tree := do
  if !text.toList.all isPrintable then none
  document? (← tokens? (unifyBreaks text.toList))

end ConfigOverlay.Yaml
