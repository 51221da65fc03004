import Tidemark.Error

/-! Commands: steps on a state that answer or fail. A command that fails keeps what it had done to
the state until then. -/

namespace Tidemark

abbrev Command (σ α : Type) := EStateM Error σ α

namespace Command

variable {σ τ α : Type}

/-- Run a command on a part of the state. -/
def focus (part : σ → τ) (replace : σ → τ → σ) (c : Command τ α) : Command σ α := fun s =>
  match c (part s) with
  | .ok a t => .ok a (replace s t)
  | .error e t => .error e (replace s t)

/-- Change what a failure says. -/
def mapError (f : Error → Error) (c : Command σ α) : Command σ α := fun s =>
  match c s with
  | .ok a s' => .ok a s'
  | .error e s' => .error (f e) s'

/-- Wrap a failure in a context. -/
def inContext (context : String) : Command σ α → Command σ α := mapError (.inContext context)

/-- Answer or fail as `x` does. -/
def ofExcept (x : Except Error α) : Command σ α := fun s =>
  match x with
  | .ok a => .ok a s
  | .error e => .error e s

/-! ### Running a command -/

theorem run_pure (a : α) (s : σ) : (pure a : Command σ α) s = .ok a s := rfl

theorem run_bind {β : Type} (c : Command σ α) (f : α → Command σ β) (s : σ) :
    (c >>= f) s =
      (match c s with
      | .ok a s' => f a s'
      | .error e s' => .error e s' : EStateM.Result Error σ β) := by
  simp only [bind, EStateM.bind]
  cases c s <;> rfl

theorem run_get (s : σ) : (get : Command σ σ) s = .ok s s := rfl

theorem run_set (s t : σ) : (set t : Command σ PUnit) s = .ok ⟨⟩ t := rfl

theorem run_modify (f : σ → σ) (s : σ) : (modify f : Command σ PUnit) s = .ok ⟨⟩ (f s) := rfl

end Command

end Tidemark
