import ConfigOverlay.Document.Toml.Value

/-!
# Documents of TOML

A document is a list of statements: headers, each of which opens a section, and pairs, which
belong to the section they stand in. The pairs before the first header belong to the root.
-/

namespace ConfigOverlay.Toml

/-- A header. -/
inductive Header where
  | table (path : KeyPath)
  /-- One more element of an array of tables. -/
  | element (path : KeyPath)
deriving DecidableEq, Repr

/-- A statement of a document. -/
inductive Statement where
  | header (header : Header)
  | pair (path : KeyPath) (value : Tree)

/-- The statement that starts here; nothing else may stand on its last line. -/
def statement? (cs : List Char) : Option (Statement × List Char) :=
  match cs with
  | '[' :: '[' :: rest => do
    match ← key? maxNesting rest with
    | (path, ']' :: ']' :: rest) => return (.header (.element path), ← endOfLine? rest)
    | _ => none
  | '[' :: rest => do
    match ← key? maxNesting rest with
    | (path, ']' :: rest) => return (.header (.table path), ← endOfLine? rest)
    | _ => none
  | _ => do
    let ((path, value), rest) ← pair? (value? maxNesting) cs
    return (.pair path value, ← endOfLine? rest)

/-- The statements of a text. The fuel bounds their number. -/
def statements? : Nat → List Char → Option (List Statement)
  | 0, _ => none
  | fuel + 1, cs =>
    match skipLines false cs with
    | [] => some []
    | cs => do
      let (s, rest) ← statement? cs
      return s :: (← statements? fuel rest)

/-- The pairs before the first header, and every header with the pairs of its section. -/
def sections : List Statement →
    List (KeyPath × Tree) × List (Header × List (KeyPath × Tree))
  | [] => ([], [])
  | .pair path value :: rest =>
    let (pairs, later) := sections rest
    ((path, value) :: pairs, later)
  | .header h :: rest =>
    let (pairs, later) := sections rest
    ([], (h, pairs) :: later)

/-- Define what a section says. -/
def define? (root : Entries) : Header × List (KeyPath × Tree) → Option Entries
  | (.table path, pairs) => do
    modify? (openTable? (← path.getLast?) pairs) path.dropLast root
  | (.element path, pairs) => do
    modify? (appendTable? (← path.getLast?) pairs) path.dropLast root

/-- A text whose line breaks are all line feeds. -/
def unifyBreaks : List Char → List Char
  | [] => []
  | '\r' :: '\n' :: cs => '\n' :: unifyBreaks cs
  | c :: cs => c :: unifyBreaks cs

/-- The object that a text defines. -/
def parse? (text : String) : Option Tree := do
  let cs := match text.toList with
    | '\ufeff' :: cs => cs
    | cs => cs
  let (pairs, later) := sections (← statements? (cs.length + 1) (unifyBreaks cs))
  let root ← later.foldlM define? (← fill? pairs [])
  return .object (fieldTrees root)

end ConfigOverlay.Toml
