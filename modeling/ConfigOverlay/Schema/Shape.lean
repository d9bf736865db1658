import ConfigOverlay.Schema.Fault

/-!
# Shapes of typed values

A shape says which trees stand for values of a type. Binding a tree to a shape answers with the
tree of the value: the declared fields in declaration order, defaults filled in, integers widened
where floating-point numbers are declared. It fails with the first fault in the order of the tree;
fields that are missing are reported only after everything present was found to fit.

A record can also be written as an array of its fields in order.
-/

namespace ConfigOverlay.Schema

mutual

/-- The shape of a typed value. -/
inductive Shape where
  /-- Any tree, as it is. -/
  | any
  | bool
  | text
  /-- An integer of a named type, between two bounds. -/
  | integer (type : String) (low high : Int)
  /-- A floating-point number of a named type. -/
  | float (type : String)
  | list (item : Shape)
  /-- Values under arbitrary keys, in increasing order of the keys. -/
  | dictionary (value : Shape)
  /-- Named fields; a closed record refuses other keys, an open one passes over them. -/
  | record (type : String) (closed : Bool) (fields : List Field)
  /-- An object whose field `tag` chooses one of several records. -/
  | tagged (type tag : String) (cases : List Case)

/-- A field of a record, with the value it has when it is missing. -/
inductive Field where
  | mk (name : String) (shape : Shape) (default : Option Tree)

/-- One of the records of a tagged object: its tag, its name in messages and its fields. -/
inductive Case where
  | mk (tag type : String) (fields : List Field)

end

def Field.name : Field → String
  | .mk name _ _ => name

def Field.default : Field → Option Tree
  | .mk _ _ default => default

def Case.tag : Case → String
  | .mk tag _ _ => tag

/-! ## Number types -/

def Shape.uint8 : Shape := .integer "u8" 0 (2 ^ 8 - 1)
def Shape.uint16 : Shape := .integer "u16" 0 (2 ^ 16 - 1)
def Shape.uint32 : Shape := .integer "u32" 0 (2 ^ 32 - 1)
def Shape.size : Shape := .integer "usize" 0 (2 ^ 64 - 1)
def Shape.int32 : Shape := .integer "i32" (-2 ^ 31) (2 ^ 31 - 1)
def Shape.int64 : Shape := .integer "i64" (-2 ^ 63) (2 ^ 63 - 1)
def Shape.binary64 : Shape := .float "f64"

/-! ## Scalars -/

/-- The fault of a tree that is of the wrong kind. -/
def mismatch (expected : String) (t : Tree) : Fault := .invalidType (.ofTree t) expected

def bindBool : Tree → Except Fault Tree
  | .bool b => .ok (.bool b)
  | t => .error (mismatch "a boolean" t)

def bindText : Tree → Except Fault Tree
  | .text s => .ok (.text s)
  | t => .error (mismatch "a string" t)

def bindInteger (type : String) (low high : Int) : Tree → Except Fault Tree
  | .number (.int n h) =>
    if low ≤ n ∧ n ≤ high then .ok (.number (.int n h))
    else .error (.invalidValue (.number (.int n h)) type)
  | t => .error (mismatch type t)

/-- The floating-point number nearest to an integer; the integers of a tree are all in reach. -/
def widen (n : Int) : Binary64 := (Binary64.ofRatio? (n < 0) n.natAbs 1).getD .zero

def bindFloat (type : String) : Tree → Except Fault Tree
  | .number (.float x) => .ok (.number (.float x))
  | .number (.int n _) => .ok (.number (.float (widen n)))
  | t => .error (mismatch type t)

/-! ## Records -/

/-- The values found for the fields of a record, by name. -/
abbrev Bound := List (String × Tree)

/-- The record in declaration order; the first field with neither value nor default is missing. -/
def assemble (bound : Bound) : List Field → Except Fault (List (String × Tree))
  | [] => .ok []
  | .mk name _ default :: fields =>
    match Fields.get? name bound with
    | some t => return (name, t) :: (← assemble bound fields)
    | none =>
      match default with
      | some t => return (name, t) :: (← assemble bound fields)
      | none => throw (.missingField name)

/-- Fields in increasing order of their keys. -/
def sortFields (fs : List (String × Tree)) : List (String × Tree) :=
  fs.foldl (fun sorted f => Fields.insertSorted f.1 f.2 sorted) []

/-- The fault of an array that ends before the field of an index. -/
def tooShort (type : String) (size index : Nat) : Fault :=
  .invalidLength index s!"{type} with {elements size}"

/-- The case of a tag, from a tree that should name it. -/
def chooseCase (cases : List Case) : Tree → Except Fault String
  | .text s =>
    let tags := cases.map Case.tag
    if tags.contains s then .ok s else .error (.unknownVariant s tags)
  | t => .error (mismatch "variant identifier" t)

mutual

/-- The tree of the value that a tree without atoms stands for. -/
def Shape.bind : Shape → Tree → Except Fault Tree
  | .any, t => .ok t
  | .bool, t => bindBool t
  | .text, t => bindText t
  | .integer type low high, t => bindInteger type low high t
  | .float type, t => bindFloat type t
  | .list item, t =>
    match t with
    | .array xs => return .array (← xs.mapM item.bind)
    | t => throw (mismatch "a sequence" t)
  | .dictionary value, t =>
    match t with
    | .object fs =>
      return .object (sortFields (← fs.mapM fun (k, x) => return (k, ← value.bind x)))
    | t => throw (mismatch "a map" t)
  | .record type closed fields, t =>
    match t with
    | .object fs => do
      let bound ← fs.filterMapM fun (k, x) =>
        match bindField fields k x with
        | some outcome => return some (k, ← outcome)
        | none =>
          if closed then throw (.unknownField k (fields.map Field.name)) else return none
      return .object (← assemble bound fields)
    | .array xs => do
      let bound ← bindElements ("struct " ++ type) fields.length 0 fields xs
      if fields.length < xs.length then
        throw (.invalidLength xs.length "fewer elements in array")
      return .object bound
    | t => throw (mismatch ("struct " ++ type) t)
  | .tagged type tag cases, t =>
    match t with
    | .object fs => do
      match Fields.get? tag fs with
      | none => throw (.missingField tag)
      | some t =>
        let chosen ← chooseCase cases t
        return .object ((tag, .text chosen) :: (← bindCase type chosen cases (Fields.erase tag fs)))
    | .array [] => throw (.missingField tag)
    | .array (t :: xs) => do
      let chosen ← chooseCase cases t
      return .object ((tag, .text chosen) :: (← bindCaseElements type chosen cases xs))
    | t => throw (mismatch ("internally tagged enum " ++ type) t)

/-- The value of the field of a name, if one is declared. -/
def bindField : List Field → String → Tree → Option (Except Fault Tree)
  | [], _, _ => none
  | .mk name shape _ :: fields, k, t =>
    if k = name then some (shape.bind t) else bindField fields k t

/-- The values of fields given in order, from an index on. -/
def bindElements (type : String) (size : Nat) :
    Nat → List Field → List Tree → Except Fault (List (String × Tree))
  | _, [], _ => .ok []
  | index, .mk name shape _ :: fields, x :: xs => do
    let t ← shape.bind x
    return (name, t) :: (← bindElements type size (index + 1) fields xs)
  | index, .mk name _ default :: fields, [] =>
    match default with
    | some t => return (name, t) :: (← bindElements type size (index + 1) fields [])
    | none => throw (tooShort type size index)

/-- The fields of the chosen case of a tagged object. -/
def bindCase (type chosen : String) :
    List Case → List (String × Tree) → Except Fault (List (String × Tree))
  | [], _ => throw (.unknownVariant chosen [])
  | .mk tag _ fields :: cases, fs =>
    if chosen = tag then do
      let bound ← fs.filterMapM fun (k, x) =>
        match bindField fields k x with
        | some outcome => return some (k, ← outcome)
        | none => return none
      assemble bound fields
    else bindCase type chosen cases fs

/-- The fields of the chosen case, given in order. -/
def bindCaseElements (type chosen : String) :
    List Case → List Tree → Except Fault (List (String × Tree))
  | [], _ => throw (.unknownVariant chosen [])
  | .mk tag name fields :: cases, xs =>
    if chosen = tag then do
      let bound ← bindElements s!"struct variant {type}::{name}" fields.length 0 fields xs
      if fields.length < xs.length then
        throw (.invalidLength xs.length s!"{elements fields.length} in sequence")
      return bound
    else bindCaseElements type chosen cases xs

end

/-! ## Keys that are passed over

Open records pass over keys they do not declare. These are the paths of such keys in a tree, in the
order of the tree. Below a tagged object nothing is reported. -/

mutual

/-- The paths of the keys that binding passes over. -/
def Shape.unknownKeys : Shape → Tree → List (List String)
  | .list item, .array xs =>
    xs.zipIdx.flatMap fun (x, index) => (item.unknownKeys x).map (toString index :: ·)
  | .dictionary value, .object fs =>
    fs.flatMap fun (k, x) => (value.unknownKeys x).map (k :: ·)
  | .record _ _ fields, .object fs =>
    fs.flatMap fun (k, x) =>
      match fieldUnknownKeys fields k x with
      | some paths => paths.map (k :: ·)
      | none => [[k]]
  | .record _ _ fields, .array xs => elementUnknownKeys 0 fields xs
  | _, _ => []

/-- The passed-over keys below the field of a name, if one is declared. -/
def fieldUnknownKeys : List Field → String → Tree → Option (List (List String))
  | [], _, _ => none
  | .mk name shape _ :: fields, k, t =>
    if k = name then some (shape.unknownKeys t) else fieldUnknownKeys fields k t

/-- The passed-over keys below fields given in order. -/
def elementUnknownKeys : Nat → List Field → List Tree → List (List String)
  | index, .mk _ shape _ :: fields, x :: xs =>
    (shape.unknownKeys x).map (toString index :: ·) ++ elementUnknownKeys (index + 1) fields xs
  | _, _, _ => []

end

end ConfigOverlay.Schema
