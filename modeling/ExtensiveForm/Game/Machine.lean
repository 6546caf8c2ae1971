import ExtensiveForm.Game.StateMachine
import ExtensiveForm.Value.Table

/-!
# Games of turns given by tables

The states of a game of turns may be listed one by one, each with whose turn it is, the moves that
may be made, where each of them leads, and the payoff if the game is over.
-/

namespace ExtensiveForm

/-- What is listed for one state. A move that is listed without the state it leads to is found to be
illegal when it is made. -/
structure MachineState where
  turn : Value
  moves : List (Value × Option Value)
  payoff : Value

/-- A game of turns by a table of its states. -/
structure Machine where
  name : String
  numPlayers : Int
  initial : Value
  states : Table MachineState

namespace Machine

/-- What is listed for a state. -/
def find (m : Machine) (state : Value) : Except Fault MachineState := do
  match ← m.states.lookUp state with
  | some listed => return listed
  | none => throw .keyNotFound

/-- The rules that a table of states stands for. -/
def rules (m : Machine) : TurnRules where
  kind := "Machine"
  name := m.name
  numPlayers := m.numPlayers
  initial := m.initial
  turn state := do return (← m.find state).turn
  legal state _ := do return (← m.find state).moves.map (·.1)
  next state player move := do
    match ← (Table.ofList (← m.find state).moves).lookUp move with
    | some (some next) => return next
    | some none => throw (.told (.illegalMove player move state))
    | none => throw .keyNotFound
  payoff state _ := do return (← m.find state).payoff

end Machine

end ExtensiveForm
