import ConfigOverlay.Tree.Basic

/-!
# Equality of trees

`Tree.same` is equality of configuration: the order of an object's keys does not matter, the order
of an array's items does, an integer never equals a floating-point number, and an atom equals only
an atom.
-/

namespace ConfigOverlay.Tree

mutual

/-- Equality that ignores the order of keys. -/
def same : Tree → Tree → Bool
  | .null, .null => true
  | .bool a, .bool b => a == b
  | .number a, .number b => a.same b
  | .text a, .text b => a == b
  | .array xs, .array ys => sameItems xs ys
  | .object fs, .object gs => fs.length == gs.length && within gs fs
  | .atom a, .atom b => same a b
  | _, _ => false

def sameItems : List Tree → List Tree → Bool
  | [], [] => true
  | x :: xs, y :: ys => same x y && sameItems xs ys
  | _, _ => false

/-- Every field of the second list has an equal field in the first. -/
def within (gs : List (String × Tree)) : List (String × Tree) → Bool
  | [] => true
  | (k, x) :: fs =>
    (match Fields.get? k gs with
      | some y => same x y
      | none => false) && within gs fs

end

end ConfigOverlay.Tree
