import ConfigOverlay.Action
import Mathlib.Data.List.Forall2

/-!
# Outcomes

How an outcome of several steps comes about: it is a value exactly when every step gives one. An
action of several steps goes on from the state that the first one leaves, or ends there.
-/

namespace ConfigOverlay

namespace Outcome

variable {ε ε' α β : Type}

@[simp] theorem ok_bind (a : α) (f : α → Except ε β) : (Except.ok a >>= f) = f a := rfl

@[simp] theorem error_bind (e : ε) (f : α → Except ε β) : (Except.error e >>= f) = .error e := rfl

@[simp] theorem pure_eq_ok (a : α) : (pure a : Except ε α) = .ok a := rfl

@[simp] theorem throw_eq_error (e : ε) : (throw e : Except ε α) = .error e := rfl

@[simp] theorem discard_ok (a : α) : discard (Except.ok a : Except ε α) = .ok () := rfl

@[simp] theorem discard_error (e : ε) : discard (Except.error e : Except ε α) = .error e := rfl

theorem bind_eq_ok {x : Except ε α} {f : α → Except ε β} {b : β} :
    (x >>= f) = .ok b ↔ ∃ a, x = .ok a ∧ f a = .ok b := by
  cases x <;> simp

theorem bind_eq_error {x : Except ε α} {f : α → Except ε β} {e : ε} :
    (x >>= f) = .error e ↔ x = .error e ∨ ∃ a, x = .ok a ∧ f a = .error e := by
  cases x <;> simp

theorem mapM_eq_ok {f : α → Except ε β} {xs : List α} {ys : List β} :
    xs.mapM f = .ok ys ↔ List.Forall₂ (fun x y => f x = .ok y) xs ys := by
  induction xs generalizing ys with
  | nil => cases ys <;> simp
  | cons x xs ih =>
    rw [List.mapM_cons]
    constructor
    · intro h
      obtain ⟨y, hy, h⟩ := bind_eq_ok.1 h
      obtain ⟨ys', hys, h⟩ := bind_eq_ok.1 h
      cases h
      exact .cons hy (ih.1 hys)
    · rintro (_ | ⟨hy, hys⟩)
      rw [hy, ok_bind, ih.2 hys]
      rfl

theorem map_eq_ok {x : Except ε α} {f : α → β} {b : β} :
    (f <$> x) = .ok b ↔ ∃ a, x = .ok a ∧ f a = b := by
  cases x <;> simp

theorem mapError_eq_ok {x : Except ε α} {f : ε → ε'} {a : α} :
    x.mapError f = .ok a ↔ x = .ok a := by
  cases x <;> simp [Except.mapError]

theorem mapError_eq_error {x : Except ε α} {f : ε → ε'} {e : ε'} :
    x.mapError f = .error e ↔ ∃ e', x = .error e' ∧ f e' = e := by
  cases x <;> simp [Except.mapError]

/-- An outcome is a value when it is one as an option, which can be decided. -/
theorem toOption_eq_some {x : Except ε α} {a : α} : x.toOption = some a ↔ x = .ok a := by
  cases x <;> simp [Except.toOption]

end Outcome

/-! ## Actions -/

namespace Action

variable {σ α β : Type} {x : Action σ α} {s s' : σ}

theorem bind_of_ok {a : α} (h : x s = (.ok a, s')) (f : α → Action σ β) :
    (x >>= f) s = f a s' := by
  show run (x >>= f) s = _
  rw [run_bind, run, h]
  rfl

theorem bind_of_error {e : Error} (h : x s = (.error e, s')) (f : α → Action σ β) :
    (x >>= f) s = (.error e, s') := by
  show run (x >>= f) s = _
  rw [run_bind, run, h]

theorem bind_eq_ok {f : α → Action σ β} {b : β} :
    (x >>= f) s = (.ok b, s') ↔ ∃ a s₁, x s = (.ok a, s₁) ∧ f a s₁ = (.ok b, s') := by
  cases hx : x s with
  | mk outcome s₁ =>
    cases outcome with
    | ok a => simp [bind_of_ok hx]
    | error e => simp [bind_of_error hx]

@[simp] theorem ofExcept_ok_bind (a : α) (f : α → Action σ β) :
    ((ofExcept (.ok a) : Action σ α) >>= f) = f a := rfl

theorem outcome_bind_ofExcept (x : Action σ α) (f : α → Except Error β) (s : σ) :
    ((x >>= fun a => ofExcept (f a)) s).1 = ((x s).1 >>= f) := by
  cases h : x s with
  | mk outcome s' =>
    cases outcome with
    | ok a => exact congrArg Prod.fst (bind_of_ok h _)
    | error e => exact congrArg Prod.fst (bind_of_error h _)

theorem mapError_of_ok {a : α} (h : x s = (.ok a, s')) (f : Error → Error) :
    x.mapError f s = (.ok a, s') := by
  rw [mapError, h]

theorem mapError_of_error {e : Error} (h : x s = (.error e, s')) (f : Error → Error) :
    x.mapError f s = (.error (f e), s') := by
  rw [mapError, h]

theorem outcome_mapError (x : Action σ α) (f : Error → Error) (s : σ) :
    (x.mapError f s).1 = (x s).1.mapError f := by
  rw [mapError]
  cases x s with
  | mk outcome s' => cases outcome <;> rfl

theorem mapError_bind (x : Action σ α) (f : α → Action σ β) (g : Error → Error) :
    (x >>= f).mapError g = (x.mapError g >>= fun a => (f a).mapError g) := by
  funext s
  cases h : x s with
  | mk outcome s' =>
    cases outcome with
    | ok a =>
      rw [bind_of_ok (mapError_of_ok h g), mapError, bind_of_ok h]
      rfl
    | error e =>
      rw [bind_of_error (mapError_of_error h g), mapError, bind_of_error h]

theorem mapError_mapError (x : Action σ α) (f g : Error → Error) :
    (x.mapError f).mapError g = x.mapError (g ∘ f) := by
  funext s
  rw [mapError, mapError, mapError]
  cases x s with
  | mk outcome s' => cases outcome <;> rfl

end Action

end ConfigOverlay
