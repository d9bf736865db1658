import ConfigOverlay.Action
import ConfigOverlay.Argument.Render
import ConfigOverlay.Diff

/-!
# Replaying edits as arguments

A typed value is made by a factory and then updated step by step. Each step is diffed against the
tree before it and rendered as assignments, so that compiling the factory's argument followed by
all of them leads to the final value. Tagged objects whose tag changes, changed arrays and objects
with unaddressable keys are replaced as a whole, since assignments cannot patch them.
-/

namespace ConfigOverlay.Replay

/-- What a replayed overlay replaces as a whole. -/
def policy : Policy :=
  .either .typeTagChanged (.either .sequenceIfDifferent .unaddressableKeys)

variable {α : Type}

/-- The updates from a value on, whose tree so far is given: the arguments they add and the final
value. A step that changes nothing adds none. -/
def steps (unbind : α → Except Error Tree) :
    Tree → α → List (α → α) → Except Error (List String × α)
  | _, current, [] => .ok ([], current)
  | tree, current, update :: updates => do
    let current := update current
    let next ← unbind current
    if next.same tree then steps unbind tree current updates
    else
      let overlay := tree.diffWith policy next
      let args ← overlay.toArguments
      let (rest, final) ← steps unbind (tree.merge overlay) current updates
      return (args ++ rest, final)

/-- The arguments that rebuild what the updates make of the tree of a factory, and their result. -/
def fromTree (bind : Tree → Except Error α) (unbind : α → Except Error Tree) (id : String)
    (tree : Tree) (updates : List (α → α)) : Except Error (List String × α) := do
  let current ← bind tree
  let (args, final) ← steps unbind tree current updates
  return ((Argument.wholeFactory id).display :: args, final)

/-- The same, from the identifier of the factory. -/
def updatesToArguments {σ : Type} (factory : String → Action σ Tree)
    (bind : Tree → Except Error α) (unbind : α → Except Error Tree) (id : String)
    (updates : List (α → α)) : Action σ (List String × α) := do
  .ofExcept (fromTree bind unbind id (← factory id) updates)

end ConfigOverlay.Replay
