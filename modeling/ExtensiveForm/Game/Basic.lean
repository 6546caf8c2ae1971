import ExtensiveForm.Play.Walk
import ExtensiveForm.Setting

/-!
# Games

A game is data about its rules and never runs by itself: it tells its players, the moves that they
may choose from, and the tree in which it unfolds. Every play walks that tree from the root, so all
sorts of games are played in the same way.
-/

namespace ExtensiveForm

/-- A game over a shared state. Finding the root of the tree may do whatever the rules of the game
do when a play begins. -/
structure Game (ω σ : Type) [Scale ω] where
  /-- What sort of game this is. -/
  kind : String
  name : String
  numPlayers : Int
  tree : Tree ω σ
  root : Run σ tree.Position
  /-- The moves that a player may choose from in a state. -/
  legal : Nat → Value → Except Fault (List Value)

namespace Game

variable {ω σ : Type} [Scale ω]

/-- The players in order. -/
def players (g : Game ω σ) : List Value :=
  (List.range g.numPlayers.toNat).map fun (player : Nat) => .int player

/-- The moves that a player may choose from in a state. -/
def availableMoves (g : Game ω σ) (player state : Value) : Except Fault (List Value) := do
  g.legal (← checkPlayer player g.numPlayers) state

/-- A player may choose this move in a state. -/
def isValidMove (g : Game ω σ) (player move state : Value) : Except Fault Bool :=
  return move.isAmong (← g.availableMoves player state)

/-- The game in a message: what sort it is, its name if it has one, and how many play. -/
def literal (g : Game ω σ) : String :=
  let name := if g.name.isEmpty then "" else " " ++ quoted g.name
  "<" ++ g.kind ++ name ++ s!" players={g.numPlayers}>"

/-- Plays a game once, visiting no more nodes than given. -/
def play (g : Game ω σ) (ps : Participants ω σ) (maxDepth : Int) (visits : Nat) :
    Run σ (Option Outcome) := do
  execute g.tree ps g.numPlayers maxDepth visits (← g.root)

end Game

end ExtensiveForm
