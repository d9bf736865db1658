import ConfigOverlay.Action
import ConfigOverlay.Argument.Basic
import ConfigOverlay.KeyPath.Assign
import ConfigOverlay.Literal
import ConfigOverlay.Merge

/-!
# Compiling arguments into a tree

Compiling folds a list of arguments from the left, starting from the empty object. Assignments
replace the subtree at their path. A whole tree takes the place of everything before it, which is
why it may only come first, or is merged in anywhere, as the mode says.

Documents and factories are looked up through `Sources`, actions on an arbitrary state, and after
every argument a check may refuse the tree. The first argument that fails ends the fold, and the
error names it.
-/

namespace ConfigOverlay

/-- Where whole trees may stand. -/
inductive WholeTreeMode where
  /-- Only as the first argument, whose tree is the start. -/
  | firstOnly
  /-- Anywhere, merging into what is there. -/
  | mergeAnywhere
deriving DecidableEq, Repr

/-- Where the values come from that are not written in the arguments. -/
structure Sources (σ : Type) where
  /-- The document at a path. -/
  document : String → Action σ Tree
  /-- What the factory of an identifier makes. -/
  factory : String → Action σ Tree

/-- A value that does not nest too deep. -/
def withinDepth (value : Tree) : Except Error Tree :=
  if maxDepth < value.depth then .error (.tooDeep value.depth) else .ok value

/-- The accumulator with a value at a path. -/
def assignWithin (acc : Tree) (path : KeyPath) (value : Tree) : Except Error Tree :=
  (withinDepth value).map fun value => Tree.assign path value acc

/-- Whether a whole tree may stand at an index. -/
def checkPosition (mode : WholeTreeMode) (index : Nat) (flag : Flag) : Except Error Unit :=
  if mode = .firstOnly ∧ index ≠ 0 then .error (.misplacedWholeTree flag) else .ok ()

/-- The accumulator with a whole tree placed in it. -/
def placeWhole (mode : WholeTreeMode) (flag : Flag) (acc whole : Tree) : Except Error Tree := do
  let whole := (← withinDepth whole).unwrap
  match whole with
  | .object _ =>
    match mode with
    | .firstOnly => return whole
    | .mergeAnywhere => return acc.merge whole
  | _ => throw (.notAnObject flag whole.kind)

variable {σ : Type}

/-- Apply an argument. Where it may stand is settled before anything is looked up. -/
def applyArgument (sources : Sources σ) (mode : WholeTreeMode) (index : Nat) (acc : Tree)
    (argument : Argument) : Action σ Tree :=
  match argument with
  | .assign path value => .ofExcept do assignWithin acc path (← Literal.parseScalar value)
  | .assignJson path value => .ofExcept do assignWithin acc path (← Literal.parseJson value)
  | .assignFile path file => do .ofExcept (assignWithin acc path (← sources.document file))
  | .assignFactory path id => do .ofExcept (assignWithin acc path (← sources.factory id))
  | .wholeFile file => do
    .ofExcept (checkPosition mode index argument.flag)
    .ofExcept (placeWhole mode argument.flag acc (← sources.document file))
  | .wholeFactory id => do
    .ofExcept (checkPosition mode index argument.flag)
    .ofExcept (placeWhole mode argument.flag acc (← sources.factory id))

/-- Read and apply one argument, and check the tree after it. -/
def compileStep (sources : Sources σ) (mode : WholeTreeMode) (check : Tree → Action σ Unit)
    (index : Nat) (acc : Tree) (text : String) : Action σ Tree := do
  let argument ← .ofExcept (Argument.parse text)
  let next ← applyArgument sources mode index acc argument
  check next
  return next

/-- Fold the arguments from an index on; errors quote the whole list. -/
def compileFrom (sources : Sources σ) (mode : WholeTreeMode) (check : Tree → Action σ Unit)
    (all : List String) : Nat → Tree → List String → Action σ Tree
  | _, acc, [] => pure acc
  | index, acc, text :: rest => do
    let next ← (compileStep sources mode check index acc text).mapError
      (Error.atArgument index text all)
    compileFrom sources mode check all (index + 1) next rest

/-- Compile arguments, checking the tree after each. -/
def compileWithCheck (sources : Sources σ) (mode : WholeTreeMode) (check : Tree → Action σ Unit)
    (args : List String) : Action σ Tree :=
  compileFrom sources mode check args 0 .empty args

/-- Compile arguments. -/
def compile (sources : Sources σ) (mode : WholeTreeMode) (args : List String) : Action σ Tree :=
  compileWithCheck sources mode (fun _ => pure ()) args

end ConfigOverlay
