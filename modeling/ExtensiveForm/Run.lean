import ExtensiveForm.Fault

/-!
# Computations that may be abandoned

A play asks strategies, draws numbers and calls payoff functions, and each of these may change a
state that all of them share. What was done to that state stays done when the play is abandoned.
-/

namespace ExtensiveForm

/-- A computation over a shared state: a result or a fault, and in both cases the state left
behind. -/
abbrev Run (σ : Type) := ExceptT Fault (StateM σ)

namespace Run

variable {σ : Type} {α : Type}

/-- The result of a computation that starts from this state, and the state it leaves behind. -/
def start (x : Run σ α) (s : σ) : Except Fault α × σ :=
  x s

/-- A computation given by its result and the state it leaves behind. -/
def of (f : σ → Except Fault α × σ) : Run σ α :=
  f

/-- A computation that gives this result and leaves the state as it is. -/
def lift (x : Except Fault α) : Run σ α :=
  fun s => (x, s)

/-- The computation followed by a note of its result in the state, made for a fault as well. -/
def noting (x : Run σ α) (note : Except Fault α → σ → σ) : Run σ α :=
  fun s =>
    let (result, s) := x s
    (result, note result s)

end Run

end ExtensiveForm
