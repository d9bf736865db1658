import ConfigOverlay.KeyPath.Basic
import ConfigOverlay.Tree.Basic

/-!
# Reading and writing trees along key paths

`getPath?` follows a path, `assign` writes one place and makes the objects that lead there,
`encode` is a tree with a single branch, and `decode` takes a tree apart into the places and leaves
that rebuild it.
-/

namespace ConfigOverlay.Tree

/-- The subtree at a path of objects. -/
def getPath? : KeyPath → Tree → Option Tree
  | [], t => some t
  | k :: path, t => (t.get? k).bind (getPath? path)

/-- The tree whose only branch is the path. -/
def encode (path : KeyPath) (value : Tree) : Tree :=
  path.foldr (fun k t => .object [(k, t)]) value

/-- The fields below any wrappers, none when the tree is not an object. -/
def fieldsOrEmpty (t : Tree) : Fields Tree := (t.unwrap.fields?).getD []

/-- Write a value at a path. Whatever is no object on the way is replaced by one, and a key that is
already there keeps its position. -/
def assign : KeyPath → Tree → Tree → Tree
  | [], value, _ => value
  | k :: path, value, base =>
    let fs := base.fieldsOrEmpty
    .object (Fields.set k (assign path value ((Fields.get? k fs).getD .null)) fs)

mutual

/-- The leaves below a path. An object is taken apart when it is at the root or not empty, and all
its keys are addressable; everything else is a leaf, without its wrappers. -/
def decodeAt (path : KeyPath) : Tree → List (KeyPath × Tree)
  | .object fs =>
    if (Fields.keys fs).all isAddressable && (path.isEmpty || !fs.isEmpty) then
      decodeFields path fs
    else [(path, .object fs)]
  | t => [(path, t.unwrap)]

def decodeFields (path : KeyPath) : List (String × Tree) → List (KeyPath × Tree)
  | [] => []
  | (k, x) :: fs => decodeAt (path ++ [k]) x ++ decodeFields path fs

end

/-- The places of a tree with their leaves, in the order of the keys. -/
def decode (t : Tree) : List (KeyPath × Tree) := decodeAt [] t

end ConfigOverlay.Tree
