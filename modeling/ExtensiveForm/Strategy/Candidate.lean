import ExtensiveForm.Strategy.Basic

/-!
# What may stand for a strategy

Where a strategy is wanted, a bare function of the context will do as well. Any other value is
refused as soon as strategies are combined, but at a seat of a game only when it is to move.
-/

namespace ExtensiveForm

/-- What is offered where a strategy is wanted. -/
inductive Candidate (μ ω : Type) [Scale ω] where
  | strategy (s : Strategy μ ω)
  | function (name : String) (responder : Responder μ)
  | value (v : Value)

namespace Candidate

variable {μ ω : Type} [Scale ω]

/-- The strategy that is meant. -/
def asStrategy : Candidate μ ω → Except Fault (Strategy μ ω)
  | .strategy s => .ok s
  | .function name responder => .ok (.function name responder)
  | .value v => .error (.told (.misused (.notStrategy v)))

/-- The move of a candidate, if it can be asked at all. -/
def next (x : Candidate μ ω) (c : Context) (g : Generator ω) : Reply (Candidate μ ω) ω :=
  match x with
  | .strategy s => (s.next c g).map .strategy
  | .function name responder =>
      let (answer, responder) := responder.ask c
      ⟨answer, .function name responder, g⟩
  | .value v => ⟨.error .wrongType, .value v, g⟩

/-- The candidate with its strategy as it was before the first move. -/
def reset : Candidate μ ω → Candidate μ ω
  | .strategy s => .strategy s.reset
  | x => x

end Candidate

namespace Strategy

variable {μ ω : Type} [Scale ω]

/-- A move drawn from these with equal probabilities. -/
def mixedFlat (moves : Value) (own : Option (Generator ω)) : Except Fault (Strategy μ ω) := do
  return .mixed (← Distribution.flat (← moves.items)) own

/-- The candidates in turn. -/
def inTurn (candidates : List (Candidate μ ω)) : Except Fault (Strategy μ ω) := do
  if candidates.isEmpty then throw (.refused .noStrategies)
  return .periodic (← candidates.mapM Candidate.asStrategy) 0

/-- The moves in turn. -/
def movesInTurn (moves : Value) : Except Fault (Strategy μ ω) := do
  inTurn ((← moves.items).map fun move => .strategy (.pure move))

/-- One candidate where the condition holds and the other one where it does not. -/
def onCondition (condition : Responder μ) (onTrue onFalse : Candidate μ ω) :
    Except Fault (Strategy μ ω) := do
  return .conditional condition (← onTrue.asStrategy) (← onFalse.asStrategy)

/-- One candidate until the condition holds for the first time, and the other one from then on. -/
def onTrigger (condition : Responder μ) (before after : Candidate μ ω) :
    Except Fault (Strategy μ ω) := do
  return .trigger condition (← before.asStrategy) (← after.asStrategy) false

end Strategy

end ExtensiveForm
