import ConfigOverlay.KeyPath.Basic
import ConfigOverlay.Tree.Same

/-!
# Leaf policies

A policy says where merging and diffing stop looking inside. It is asked about the pair of trees
at one position; when it holds, the pair is indivisible: merging overwrites and diffing emits an
atom. Merging asks it about the overlay, so diffing asks it once about the target and once more
about the overlay it built.
-/

namespace ConfigOverlay

/-- Whether a pair of trees at one position is indivisible. -/
abbrev Policy := Tree → Tree → Bool

namespace Policy

/-- Nothing is indivisible. -/
def never : Policy := fun _ _ => false

/-- The key whose value names the variant of a tagged object. -/
def tagKey : String := "_type_"

/-- Both are tagged objects, with different tags. -/
def typeTagChanged : Policy := fun source target =>
  match source.get? tagKey, target.get? tagKey with
  | some a, some b => !a.same b
  | _, _ => false

/-- The target is an array and differs. -/
def sequenceIfDifferent : Policy := fun source target =>
  match target with
  | .array _ => !source.same target
  | _ => false

/-- Both are arrays and the target is longer. -/
def arrayGrowth : Policy := fun source target =>
  match source, target with
  | .array xs, .array ys => xs.length < ys.length
  | _, _ => false

/-- The target is an object with a key that no path can name. -/
def unaddressableKeys : Policy := fun _ target =>
  match target with
  | .object fs => !(Fields.keys fs).all isAddressable
  | _ => false

/-- One of two policies holds. -/
def either (p q : Policy) : Policy := fun source target => p source target || q source target

end Policy

end ConfigOverlay
