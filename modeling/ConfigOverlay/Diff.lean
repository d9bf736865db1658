import ConfigOverlay.Merge

/-!
# The overlay that leads from one tree to another

`diffWith p source target` is an overlay that merges into `source`, under the same policy, to
`target`. It mentions only what changes. Merging cannot remove, so where the target drops a key or
shortens an array the whole subtree becomes an atom, and so it does where the policy calls the
pair, or the overlay built for it, indivisible.
-/

namespace ConfigOverlay.Tree

/-- The overlay built for a pair, or the target as an atom when merging would not look inside. -/
def settle (p : Policy) (source target overlay : Tree) : Tree :=
  if !overlay.isAtom && p source overlay then target.asAtom else overlay

mutual

/-- The overlay at a depth. -/
def diffAt (p : Policy) (depth : Nat) (source target : Tree) : Tree :=
  if target.isAtom then target
  else match source with
    | .object fs =>
      if maxDepth ≤ depth || p (.object fs) target then target.asAtom
      else match target with
        | .object gs =>
          if (Fields.keys fs).all fun k => Fields.has k gs then
            let added := gs.filter fun g => !Fields.has g.1 fs
            settle p (.object fs) target (.object (added ++ diffFields p (depth + 1) gs fs))
          else target.asAtom
        | _ => target
    | .array xs =>
      if maxDepth ≤ depth || p (.array xs) target then target.asAtom
      else match target with
        | .array ys =>
          if ys.length < xs.length then target.asAtom
          else settle p (.array xs) target (.array (diffItems p (depth + 1) xs ys))
        | _ => target
    | _ => target

/-- The changed fields among the shared ones, in the order of the source. -/
def diffFields (p : Policy) (depth : Nat) (gs : List (String × Tree)) :
    List (String × Tree) → List (String × Tree)
  | [] => []
  | (k, x) :: fs =>
    match Fields.get? k gs with
    | some y =>
      if same x y then diffFields p depth gs fs
      else (k, diffAt p depth x y) :: diffFields p depth gs fs
    | none => diffFields p depth gs fs

/-- The items in step, up to the place from which on nothing changes, and the new tail. -/
def diffItems (p : Policy) (depth : Nat) : List Tree → List Tree → List Tree
  | [], ys => ys
  | _ :: _, [] => []
  | x :: xs, y :: ys =>
    if sameItems (x :: xs) (y :: ys) then []
    else diffAt p depth x y :: diffItems p depth xs ys

end

/-- The overlay from `source` to `target` under a policy. -/
def diffWith (p : Policy) (source target : Tree) : Tree := diffAt p 0 source target

/-- The overlay from `source` to `target`, replacing an object whose tag changed. -/
def diff (source target : Tree) : Tree := diffWith .typeTagChanged source target

end ConfigOverlay.Tree
