import ConfigOverlay.Error

/-!
# Fallible actions on a state

An action reads and changes a state and answers with a value or an error. The changes made before
an error stay.
-/

namespace ConfigOverlay

/-- An action on a state that can fail. -/
def Action (σ α : Type) : Type := σ → Except Error α × σ

namespace Action

variable {σ α β : Type}

/-- Run an action from a state. -/
def run (x : Action σ α) (s : σ) : Except Error α × σ := x s

instance : Monad (Action σ) where
  pure a := fun s => (.ok a, s)
  bind x f := fun s =>
    match x s with
    | (.ok a, s) => f a s
    | (.error e, s) => (.error e, s)

/-- An outcome that leaves the state alone. -/
def ofExcept (x : Except Error α) : Action σ α := fun s => (x, s)

/-- Change the error of an action that fails. -/
def mapError (f : Error → Error) (x : Action σ α) : Action σ α := fun s =>
  match x s with
  | (.ok a, s) => (.ok a, s)
  | (.error e, s) => (.error (f e), s)

@[simp] theorem run_pure (a : α) (s : σ) : (pure a : Action σ α).run s = (.ok a, s) := rfl

@[simp] theorem run_ofExcept (x : Except Error α) (s : σ) :
    (ofExcept x : Action σ α).run s = (x, s) := rfl

theorem run_bind (x : Action σ α) (f : α → Action σ β) (s : σ) :
    (x >>= f).run s = match x.run s with
      | (.ok a, s) => (f a).run s
      | (.error e, s) => (.error e, s) := rfl

end Action

end ConfigOverlay
