import ExtensiveForm.Game.StateMachine

/-!
# Nim

The players take stones from one heap in turn, and may take only certain numbers of stones at once.
Whoever takes the last stone wins one unit from each of the others, or loses one to each of them if
the game is played the other way round. A state is the number of stones left and whose turn it is.
-/

namespace ExtensiveForm

/-- A game of nim. -/
structure Nim where
  name : String
  numPlayers : Int
  stones : Int
  /-- How many stones may be taken at once. -/
  takes : List Value
  /-- Whoever takes the last stone loses. -/
  lastLoses : Bool

namespace Nim

/-- How many stones are left in a state. -/
def stonesLeft (state : Value) : Except Fault Value :=
  state.member (.int 0)

/-- The utilities when this player took the last stone. -/
def utilities (g : Nim) (winner : Int) : List Value :=
  let sign : Int := if g.lastLoses then -1 else 1
  (List.range g.numPlayers.toNat).map fun (i : Nat) =>
    .int (sign * if (i : Int) = winner then g.numPlayers - 1 else -1)

/-- The rules of nim. No more stones are taken than there are. -/
def rules (g : Nim) : TurnRules where
  kind := "Nim"
  name := g.name
  numPlayers := g.numPlayers
  initial := .tuple [.int g.stones, .int 0]
  turn state := state.member (.int 1)
  legal state _ := do
    let stones ← stonesLeft state
    g.takes.filterM fun count => Value.atLeast stones count
  next state player move := do
    let rest ← Value.sub (← stonesLeft state) move
    return .tuple [rest, .int (((← player.asWhole) + 1) % g.numPlayers)]
  payoff state player := do
    if ← Value.atLeast (.int 0) (← stonesLeft state) then
      return .tuple (g.utilities (((← player.asWhole) - 1) % g.numPlayers))
    else return .null

end Nim

end ExtensiveForm
