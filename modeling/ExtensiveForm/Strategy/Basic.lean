import ExtensiveForm.Play.Context
import ExtensiveForm.Random.Generator
import ExtensiveForm.Random.Distribution

/-!
# Strategies

A strategy chooses a move from what it is shown. It may remember what happened before: answering
gives, next to the answer, the strategy as it is from then on, also when the answer is a fault.
Strategies that leave their choice to chance draw from a generator of their own, if they have one,
and otherwise from the generator of the play.
-/

namespace ExtensiveForm

/-- An answer, together with whoever gave it and the shared generator as they are from then on. -/
structure Reply (α ω : Type) where
  answer : Except Fault Value
  after : α
  generator : Generator ω

namespace Reply

/-- The same reply, given on behalf of someone else. -/
def map {α β ω : Type} (f : α → β) (r : Reply α ω) : Reply β ω :=
  ⟨r.answer, f r.after, r.generator⟩

end Reply

/-- A function of the context with a memory. -/
structure Responder (μ : Type) where
  respond : Context → μ → Except Fault Value × μ
  memory : μ

namespace Responder

variable {μ : Type}

/-- The answer of the function, and the function with what it remembers now. -/
def ask (r : Responder μ) (c : Context) : Except Fault Value × Responder μ :=
  let (answer, memory) := r.respond c r.memory
  (answer, { r with memory := memory })

/-- The answer of the function taken as a condition. -/
def holds (r : Responder μ) (c : Context) : Except Fault Bool × Responder μ :=
  let (answer, r) := r.ask c
  (answer.map Value.truthy, r)

end Responder

/-- How a player chooses moves. -/
inductive Strategy (μ ω : Type) [Scale ω] where
  /-- Always the same move. -/
  | pure (move : Value)
  /-- A move drawn from a distribution. -/
  | mixed (distribution : Distribution ω) (own : Option (Generator ω))
  /-- Any of the moves offered, all with the same probability. -/
  | random (own : Option (Generator ω))
  /-- Some strategies in turn, one for each decision. -/
  | periodic (strategies : List (Strategy μ ω)) (turn : Nat)
  /-- One strategy where the condition holds and the other one where it does not. -/
  | conditional (condition : Responder μ) (onTrue onFalse : Strategy μ ω)
  /-- One strategy until the condition holds for the first time, and the other one from then on. -/
  | trigger (condition : Responder μ) (before after : Strategy μ ω) (triggered : Bool)
  /-- Whatever a function answers. -/
  | function (name : String) (responder : Responder μ)

namespace Strategy

variable {μ ω : Type} [Scale ω]

/-- An element drawn from a distribution with the own generator, or without one with the shared
generator. -/
def draw (distribution : Distribution ω) (own : Option (Generator ω)) (shared : Generator ω) :
    Reply (Option (Generator ω)) ω :=
  match own with
  | some g =>
      let (answer, g) := (distribution.sample Generator.uniform).start g
      ⟨answer, some g, shared⟩
  | none =>
      let (answer, g) := (distribution.sample Generator.uniform).start shared
      ⟨answer, none, g⟩

/-- One of the moves offered, drawn with equal probabilities. -/
def drawOffered (own : Option (Generator ω)) (c : Context) (shared : Generator ω) :
    Reply (Option (Generator ω)) ω :=
  if !c.offered.truthy then
    ⟨.error (.told (.noMove c.player (.text "no moves to choose from") c.state)), own, shared⟩
  else
    match c.offered.items >>= Distribution.flat with
    | .ok distribution => draw distribution own shared
    | .error fault => ⟨.error fault, own, shared⟩

mutual

/-- The move of a strategy. A strategy in turn keeps its turn until it has answered, and a condition
that has held once is not asked again by a trigger. -/
def next : Strategy μ ω → Context → Generator ω → Reply (Strategy μ ω) ω
  | .pure move, _, g => ⟨.ok move, .pure move, g⟩
  | .mixed distribution own, _, g => (draw distribution own g).map (.mixed distribution)
  | .random own, c, g => (drawOffered own c g).map .random
  | .periodic strategies turn, c, g =>
      let reply := nextAt strategies turn c g
      let turn := if reply.answer.isOk then (turn + 1) % strategies.length else turn
      reply.map fun strategies => .periodic strategies turn
  | .conditional condition onTrue onFalse, c, g =>
      match condition.holds c with
      | (.ok true, condition) =>
          (onTrue.next c g).map fun onTrue => .conditional condition onTrue onFalse
      | (.ok false, condition) =>
          (onFalse.next c g).map fun onFalse => .conditional condition onTrue onFalse
      | (.error fault, condition) => ⟨.error fault, .conditional condition onTrue onFalse, g⟩
  | .trigger condition before after true, c, g =>
      (after.next c g).map fun after => .trigger condition before after true
  | .trigger condition before after false, c, g =>
      match condition.holds c with
      | (.ok true, condition) =>
          (after.next c g).map fun after => .trigger condition before after true
      | (.ok false, condition) =>
          (before.next c g).map fun before => .trigger condition before after false
      | (.error fault, condition) => ⟨.error fault, .trigger condition before after false, g⟩
  | .function name responder, c, g =>
      let (answer, responder) := responder.ask c
      ⟨answer, .function name responder, g⟩
termination_by structural s => s

/-- The move of the strategy at a place of a list. -/
def nextAt : List (Strategy μ ω) → Nat → Context → Generator ω → Reply (List (Strategy μ ω)) ω
  | [], _, _, g => ⟨.error .indexOutOfRange, [], g⟩
  | s :: rest, 0, c, g => (s.next c g).map (· :: rest)
  | s :: rest, place + 1, c, g => (nextAt rest place c g).map (s :: ·)
termination_by structural ss => ss

end

mutual

/-- The strategy as it was before its first move. Generators of its own go on where they are, and
functions keep their memories. -/
def reset : Strategy μ ω → Strategy μ ω
  | .periodic strategies _ => .periodic (resetAll strategies) 0
  | .conditional condition onTrue onFalse => .conditional condition onTrue.reset onFalse.reset
  | .trigger condition before after _ => .trigger condition before.reset after.reset false
  | s => s
termination_by structural s => s

/-- All strategies as they were before their first moves. -/
def resetAll : List (Strategy μ ω) → List (Strategy μ ω)
  | [] => []
  | s :: rest => s.reset :: resetAll rest
termination_by structural ss => ss

end

/-- The strategy in a message, for those that can be written down. -/
def literal : Strategy μ ω → Except Fault String
  | .pure move => do return "PureStrategy(" ++ (← move.written) ++ ")"
  | .function name _ => .ok ("FunctionStrategy(" ++ quoted name ++ ")")
  | _ => .error .missingPart

/-- The condition of a trigger has held. Other strategies do not have one. -/
def isTriggered : Strategy μ ω → Except Fault Bool
  | .trigger _ _ _ triggered => .ok triggered
  | _ => .error .missingPart

end Strategy

end ExtensiveForm
