import ConfigOverlay.Error
import ConfigOverlay.Json.Writer

/-!
# Documents and typed values

A *document* is what a tree stands for without its atoms. Typed values are read from documents and
written to documents, so binding a tree reads a value from the document of the tree, and unbinding
a value gives the tree of the document that the value is written to.

A tree is itself a typed value. It is written through a *serializer*, which says what a format
makes of each kind of value once it has made something of the members.
-/

namespace ConfigOverlay

namespace Json

/-- A document. -/
inductive Value where
  | null
  | bool (value : Bool)
  | number (value : Number)
  | text (value : String)
  | array (items : List Value)
  | object (fields : List (String × Value))

namespace Value

mutual

/-- The document of a tree. Atoms stand for their content. -/
def ofTree : Tree → Value
  | .null => .null
  | .bool b => .bool b
  | .number n => .number n
  | .text s => .text s
  | .array xs => .array (ofItems xs)
  | .object fs => .object (Fields.ofPairs (ofFields fs))
  | .atom t => ofTree t

def ofItems : List Tree → List Value
  | [] => []
  | x :: xs => ofTree x :: ofItems xs

def ofFields : List (String × Tree) → List (String × Value)
  | [] => []
  | (k, x) :: fs => (k, ofTree x) :: ofFields fs

end

mutual

/-- The tree of a document. -/
def toTree : Value → Tree
  | .null => .null
  | .bool b => .bool b
  | .number n => .number n
  | .text s => .text s
  | .array vs => .array (toItems vs)
  | .object fs => .object (Fields.ofPairs (toFields fs))

def toItems : List Value → List Tree
  | [] => []
  | v :: vs => toTree v :: toItems vs

def toFields : List (String × Value) → List (String × Tree)
  | [] => []
  | (k, v) :: fs => (k, toTree v) :: toFields fs

end

end Value

/-! ## Serializers -/

/-- What a format makes of each kind of value. The members of a container were made before. -/
structure Serializer (ω : Type) where
  null : ω
  bool (value : Bool) : ω
  number (value : Number) : ω
  text (value : String) : ω
  array (items : List ω) : ω
  object (fields : List (String × ω)) : ω

namespace Serializer

/-- Documents as a format. -/
def document : Serializer Value where
  null := .null
  bool := .bool
  number := .number
  text := .text
  array := .array
  object fs := .object (Fields.ofPairs fs)

/-- Compact JSON texts as a format. -/
def compact : Serializer (List Char) where
  null := ['n', 'u', 'l', 'l']
  bool b := if b then ['t', 'r', 'u', 'e'] else ['f', 'a', 'l', 's', 'e']
  number := Number.text
  text := quote
  array items := '[' :: List.intercalate [','] items ++ [']']
  object fs := '{' :: List.intercalate [','] (fs.map fun f => quote f.1 ++ ':' :: f.2) ++ ['}']

end Serializer

end Json

namespace Tree

open Json

mutual

/-- What a format makes of a tree. Atoms are written as their content. -/
def serialize {ω : Type} (s : Serializer ω) : Tree → ω
  | .null => s.null
  | .bool b => s.bool b
  | .number n => s.number n
  | .text t => s.text t
  | .array xs => s.array (serializeItems s xs)
  | .object fs => s.object (serializeFields s fs)
  | .atom t => serialize s t

def serializeItems {ω : Type} (s : Serializer ω) : List Tree → List ω
  | [] => []
  | x :: xs => serialize s x :: serializeItems s xs

def serializeFields {ω : Type} (s : Serializer ω) : List (String × Tree) → List (String × ω)
  | [] => []
  | (k, x) :: fs => (k, serialize s x) :: serializeFields s fs

end

/-! ## Binding and unbinding -/

variable {α : Type}

/-- The typed value that a tree stands for, from the reader of its type. -/
def bindWith (read : Value → Except Schema.Fault α) (t : Tree) : Except Error α :=
  (read (.ofTree t)).mapError .bind

/-- The tree of a typed value, from the writer of its type. -/
def unbindWith (write : α → Except Schema.UnbindFault Value) (a : α) : Except Error Tree :=
  ((write a).map Value.toTree).mapError .unbind

/-- A document is read as the tree it stands for. -/
def readDocument (v : Value) : Except Schema.Fault Tree := .ok v.toTree

/-- A tree is written to a document. -/
def writeDocument (t : Tree) : Except Schema.UnbindFault Value := .ok (t.serialize .document)

end Tree

end ConfigOverlay
