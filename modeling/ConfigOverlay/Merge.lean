import ConfigOverlay.Policy

/-!
# Merging an overlay into a base

Objects merge key by key: shared keys keep their position in the base, new keys follow in the
order of the overlay. Arrays merge item by item, and the longer one gives the tail. Every other
pair takes the overlay, an atom as its content. So merging adds and overwrites, and only an atom
can remove.

Below `maxDepth` levels, and where the policy holds, the overlay wins as it is.
-/

namespace ConfigOverlay.Tree

mutual

/-- Merge at a depth. -/
def mergeAt (p : Policy) (depth : Nat) (base overlay : Tree) : Tree :=
  if overlay.isAtom then overlay.unwrap
  else if maxDepth ≤ depth || p base overlay then overlay
  else match base, overlay with
    | .object fs, .object gs =>
      .object (mergeFields p (depth + 1) gs fs ++ gs.filter fun g => !Fields.has g.1 fs)
    | .array xs, .array ys => .array (mergeItems p (depth + 1) xs ys)
    | _, _ => overlay

/-- The fields of a base, each merged with the overlay's field of the same key. -/
def mergeFields (p : Policy) (depth : Nat) (gs : List (String × Tree)) :
    List (String × Tree) → List (String × Tree)
  | [] => []
  | (k, x) :: fs =>
    (k, match Fields.get? k gs with
      | some y => mergeAt p depth x y
      | none => x) :: mergeFields p depth gs fs

/-- Two lists of items merged in step. -/
def mergeItems (p : Policy) (depth : Nat) : List Tree → List Tree → List Tree
  | [], ys => ys
  | x :: xs, [] => x :: xs
  | x :: xs, y :: ys => mergeAt p depth x y :: mergeItems p depth xs ys

end

/-- Merge an overlay into a base under a policy. -/
def mergeWith (p : Policy) (base overlay : Tree) : Tree := mergeAt p 0 base overlay

/-- Merge an overlay into a base. -/
def merge (base overlay : Tree) : Tree := mergeWith .never base overlay

end ConfigOverlay.Tree
