import ExtensiveForm.Game.Basic

/-!
# Games of turns over a state

The rules say whose turn it is in a state, which moves are legal there, what state a move leads to,
and whether the game is over. The tree is worked out from these as it is walked: one decision of
one player for each turn.
-/

namespace ExtensiveForm

/-- The rules of a game of turns. The payoff is `null` as long as the game is not over. -/
structure TurnRules where
  kind : String
  name : String
  numPlayers : Int
  initial : Value
  turn : Value → Except Fault Value
  legal : Value → Value → Except Fault (List Value)
  next : Value → Value → Value → Except Fault Value
  payoff : Value → Value → Except Fault Value

/-- Where a game of turns has got to. -/
inductive Turn where
  /-- It is the turn of a player who has these moves. -/
  | ongoing (player : Value) (moves : List Value) (state : Value)
  /-- The game is over. -/
  | over (payoff : Payoff) (state : Value)

namespace TurnRules

variable {ω σ : Type} [Scale ω]

/-- The game is over in a state when it would be this player's turn. -/
def isFinal (r : TurnRules) (state player : Value) : Except Fault Bool :=
  return match ← r.payoff state player with
    | .null => false
    | _ => true

/-- What happens in a state. Whether the game is over is found out before the moves are. -/
def enter (r : TurnRules) (state : Value) : Except Fault Turn := do
  let player ← r.turn state
  match ← r.payoff state player with
  | .null => return .ongoing player (← r.legal state player) state
  | payoff => return .over (← Payoff.ofValue payoff) state

/-- The tree of a game of turns. -/
def tree (r : TurnRules) : Tree ω σ where
  Position := Turn
  node
    | .ongoing player moves state => .sequential player moves state
    | .over payoff state => .terminal ⟨payoff, none, none, state⟩
  next
    | .ongoing player _ state, move => do
        let state ← r.next state player move
        return some (← r.enter state)
    | .over _ _, _ => return none

/-- The game with these rules. Without a state the moves are those of the initial one. -/
def game (r : TurnRules) : Game ω σ where
  kind := r.kind
  name := r.name
  numPlayers := r.numPlayers
  tree := r.tree
  root := Run.lift (r.enter r.initial)
  legal player state :=
    match state with
    | .null => r.legal r.initial (.int player)
    | state => r.legal state (.int player)

end TurnRules

end ExtensiveForm
