import ConfigOverlay.KeyPath.Assign

/-!
# Editing plain trees in place

Edits that walk plain objects and leave a tree alone when there is nothing to edit. Atoms are not
looked into.
-/

namespace ConfigOverlay.Tree

/-- Change the subtree at a path, if there is one. -/
def modifyAt (f : Tree → Tree) : KeyPath → Tree → Tree
  | [], t => f t
  | k :: path, .object fs =>
    match Fields.get? k fs with
    | some x => .object (Fields.set k (modifyAt f path x) fs)
    | none => .object fs
  | _ :: _, t => t

/-- Remove the last key of a path, keeping the order of the others. The root stays. -/
def removeAt (path : KeyPath) (t : Tree) : Tree :=
  match path.getLast? with
  | none => t
  | some k =>
    t.modifyAt (fun
      | .object fs => .object (Fields.erase k fs)
      | x => x) path.dropLast

/-- Append an item to the array at a path. -/
def pushAt (path : KeyPath) (item : Tree) : Tree → Tree :=
  modifyAt (fun
    | .array xs => .array (xs ++ [item])
    | x => x) path

/-- Drop the last item of the array at a path. -/
def popAt (path : KeyPath) : Tree → Tree :=
  modifyAt (fun
    | .array xs => .array xs.dropLast
    | x => x) path

end ConfigOverlay.Tree
