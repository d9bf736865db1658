import ConfigOverlay.Argument.Basic
import ConfigOverlay.Json.Writer
import ConfigOverlay.KeyPath.Assign

/-!
# Overlays as arguments

An overlay that does not replace the root can be written as plain assignments of JSON values, one
for each of its leaves. Compiling them over the empty tree gives the overlay back.
-/

namespace ConfigOverlay

/-- The argument that assigns a value at a path. -/
def KeyPath.assignArgument (path : KeyPath) (value : Tree) : Except Error String :=
  match path with
  | [] => .error .unrepresentableRoot
  | first :: _ =>
    match path.find? fun k => !isAddressable k with
    | some k => .error (.invalidPath k .unaddressable)
    | none =>
      let plain := Argument.assignment path value.toJson
      if first.toList.head? = some '-' then .ok ("--set=" ++ plain) else .ok plain

/-- The arguments that assign every leaf of an overlay. -/
def Tree.toArguments (overlay : Tree) : Except Error (List String) :=
  overlay.decode.mapM fun (path, leaf) => path.assignArgument leaf

end ConfigOverlay
