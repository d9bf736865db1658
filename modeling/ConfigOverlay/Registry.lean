import ConfigOverlay.Error
import ConfigOverlay.Tree.Basic

/-!
# Registries of value factories

Arguments name factories by identifier, and a registry is all they can reach. It keeps its
factories in increasing order of their identifiers and refuses an identifier that is malformed or
taken. A factory may answer differently from call to call, so it is a function of the number of
calls before, and a registry is a state that counts them.
-/

namespace ConfigOverlay

/-- A factory and the calls made to it. -/
structure Factory where
  /-- The answer after so many calls. -/
  make : Nat → Except Error Tree
  calls : Nat

namespace Factory

/-- A factory that was not called yet. -/
def new (make : Nat → Except Error Tree) : Factory := ⟨make, 0⟩

/-- A factory that always makes the same tree; values are made without atoms. -/
def constant (t : Tree) : Factory := new fun _ => .ok t.erase

/-- The factory after one more call. -/
def called (f : Factory) : Factory := { f with calls := f.calls + 1 }

end Factory

/-- Factories by identifier. -/
structure Registry where
  factories : Fields Factory

namespace Registry

def empty : Registry := ⟨[]⟩

/-- The identifiers in order. -/
def ids (r : Registry) : List String := r.factories.keys

/-- Whether an identifier is registered. -/
def contains (r : Registry) (id : String) : Bool := r.ids.contains id

/-- Register a factory under a well-formed, free identifier. -/
def register (r : Registry) (id : String) (f : Factory) : Except Error Registry :=
  match Identifier.fault? id with
  | some fault => .error (.invalidIdentifier id fault)
  | none =>
    if r.contains id then .error (.duplicateIdentifier id)
    else .ok ⟨r.factories.insertSorted id f⟩

/-- Run the factory of an identifier once, and count that call. -/
def resolve (r : Registry) (id : String) : Except Error Tree × Registry :=
  match r.factories.get? id with
  | some f => (f.make f.calls, ⟨r.factories.set id f.called⟩)
  | none => (.error (.unknownIdentifier id), r)

/-- A registry as a list of its identifiers. -/
def display (r : Registry) : String :=
  "Registry \x7b ids: [" ++ String.intercalate ", " (r.ids.map Text.quoted) ++ "] \x7d"

end Registry

end ConfigOverlay
