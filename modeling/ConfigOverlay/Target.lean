import ConfigOverlay.Compile.Basic
import ConfigOverlay.Schema.Section

/-!
# From arguments to values

What the compiled tree is turned into is a parameter: a value target is one binding function, and a
configuration target checks for undeclared keys, binds a layer and loads it. Each target has a
plain entry point, which looks at the final tree only, and a checked one, which looks at the tree
after every argument and so names the argument that spoils it.
-/

namespace ConfigOverlay

variable {σ α L : Type}

/-- A configuration target. -/
structure ConfigTarget (L α : Type) where
  /-- Refuse a tree with undeclared keys. -/
  validate : Tree → Except Error Unit
  /-- The layer that a tree stands for. -/
  bindLayer : Tree → Except Error L
  /-- The configuration of a layer. -/
  load : L → Except Error α

namespace ConfigTarget

/-- The configuration that a tree stands for; strictly, only without undeclared keys. -/
def bind (target : ConfigTarget L α) (strict : Bool) (t : Tree) : Except Error α := do
  if strict then target.validate t
  target.load (← target.bindLayer t)

/-- What a tree after each argument has to pass. -/
def check (target : ConfigTarget L α) (strict : Bool) (t : Tree) : Except Error Unit := do
  if strict then target.validate t
  discard (target.bindLayer t)

end ConfigTarget

/-! ## Entry points -/

/-- Compile and bind. -/
def parse (sources : Sources σ) (mode : WholeTreeMode) (bind : Tree → Except Error α)
    (args : List String) : Action σ α := do
  .ofExcept (bind (← compile sources mode args))

/-- Compile, binding the tree after every argument, and bind. -/
def parseChecked (sources : Sources σ) (mode : WholeTreeMode) (bind : Tree → Except Error α)
    (args : List String) : Action σ α := do
  let check := fun t => Action.ofExcept (discard (bind t))
  .ofExcept (bind (← compileWithCheck sources mode check args))

/-- Compile and load. -/
def load (sources : Sources σ) (mode : WholeTreeMode) (strict : Bool)
    (target : ConfigTarget L α) (args : List String) : Action σ α := do
  .ofExcept (target.bind strict (← compile sources mode args))

/-- Compile, checking the tree after every argument, and load. -/
def loadChecked (sources : Sources σ) (mode : WholeTreeMode) (strict : Bool)
    (target : ConfigTarget L α) (args : List String) : Action σ α := do
  let check := fun t => Action.ofExcept (target.check strict t)
  .ofExcept (target.bind strict (← compileWithCheck sources mode check args))

/-! ## Targets given by a schema -/

namespace Schema

/-- The value of a shape that a tree stands for. Atoms are transparent. -/
def Shape.read (shape : Shape) (t : Tree) : Except Error Tree :=
  (shape.bind t.erase).mapError .bind

/-- The layer of a section that a tree stands for. -/
def Section.readLayer (sec : Section) (t : Tree) : Except Error Tree :=
  (sec.bindLayer t.erase).mapError .bind

/-- Refuse a tree that does not fit, or that has undeclared keys. -/
def Section.validate (sec : Section) (t : Tree) : Except Error Unit := do
  discard (sec.readLayer t)
  match sec.unknownKeys t.erase with
  | [] => return ()
  | keys => throw (.unknownKeys (keys.map KeyPath.display))

/-- The configuration target of a section. -/
def Section.target (sec : Section) : ConfigTarget Tree Tree where
  validate := sec.validate
  bindLayer := sec.readLayer
  load := sec.loadLayer []

end Schema

end ConfigOverlay
