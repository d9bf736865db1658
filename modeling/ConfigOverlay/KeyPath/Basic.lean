/-!
# Key paths

A key path leads from the root of a tree through objects, one key per segment. Its written form
joins the segments with dots. A written segment is not empty and holds neither a dot nor an equals
sign, so exactly the paths of such *addressable* keys can be written and read back.
-/

namespace ConfigOverlay

/-- A path through objects; the empty path is the root. -/
abbrev KeyPath := List String

/-- Whether a key can be a segment of a written path. -/
def isAddressable (key : String) : Bool :=
  let cs := key.toList
  !cs.isEmpty && !cs.contains '.' && !cs.contains '='

namespace KeyPath

/-- What is wrong with a path. -/
inductive Fault where
  | emptyKey
  | emptySegment
  | equalsSign
  | unaddressable
deriving DecidableEq, Repr

def Fault.message : Fault → String
  | .emptyKey => "empty key"
  | .emptySegment => "empty segment"
  | .equalsSign => "segments cannot contain '='"
  | .unaddressable => "key cannot be written as a path segment"

/-- The written form. -/
def display (path : KeyPath) : String :=
  String.ofList (List.intercalate ['.'] (path.map String.toList))

/-- What is wrong with a piece as a segment. -/
def segmentFault? (piece : List Char) : Option Fault :=
  if piece.isEmpty then some .emptySegment
  else if piece.contains '=' then some .equalsSign
  else none

/-- Read a written path; of several faulty segments the first is reported. -/
def parse (text : List Char) : Except Fault KeyPath :=
  if text.isEmpty then .error .emptyKey
  else
    let pieces := text.splitOn '.'
    match pieces.findSome? segmentFault? with
    | some fault => .error fault
    | none => .ok (pieces.map String.ofList)

end KeyPath

end ConfigOverlay
