import ExtensiveForm.Play.Participants
import ExtensiveForm.Tree.Basic

/-!
# Walking a tree

A play walks from position to position until it reaches the end of the game. At a decision it asks
the players who decide, all of them with the same transcript; at a move of chance it draws. A state
that carries a transcript replaces the one recorded so far, and a state of another round starts the
count of visited nodes anew, so that the bound on them holds for each round.

`Walk.step` visits one node. `Walk.run` goes on until the play ends or the given number of visits
is used up; with no bound at all a walk need not end.
-/

namespace ExtensiveForm

/-- Where a play has got to: the position, the moves so far, the round in progress and how many
nodes were visited in it. -/
structure Walk (P : Type) where
  position : P
  transcript : Transcript
  round : Value
  visited : Nat

namespace Simultaneous

/-- What a player of a decision may look at. -/
def context (n : Simultaneous) (numPlayers : Int) (transcript : Transcript) (seat : Seat) :
    Context :=
  ⟨seat.player, .tuple seat.moves, numPlayers, n.state, transcript⟩

/-- Every player of a decision has a move to choose. -/
def checkMoves (n : Simultaneous) : Except Fault Unit :=
  n.seats.forM fun seat => do
    if seat.moves.isEmpty then throw (.told (.noMove seat.player (.text "empty move set") n.state))

/-- Every chosen move was offered to the player who chose it. -/
def checkLegal (n : Simultaneous) (moves : List Value) : Except Fault Unit :=
  (n.seats.zip moves).forM fun (seat, move) => do
    unless move.isAmong seat.moves do throw (.told (.illegalMove seat.player move n.state))

end Simultaneous

namespace Walk

variable {ω σ : Type} [Scale ω]

/-- The moves of a decision of several players. All of them are asked before any move is
checked. -/
def decideTogether (ps : Participants ω σ) (numPlayers : Int) (transcript : Transcript)
    (n : Simultaneous) : Run σ (List Value) := do
  n.checkMoves
  let moves ← n.seats.mapM fun seat => ps.answer (n.context numPlayers transcript seat)
  n.checkLegal moves
  return moves

/-- The move of a decision of one player. A player who does not belong to the game or has no
strategy is found out before an empty set of moves. -/
def decideAlone (ps : Participants ω σ) (c : Context) : Run σ Value := do
  let player ← checkPlayer c.player c.numPlayers
  match ps.ask player with
  | none => throw (.told (.invalidPlayer c.player .null c.state))
  | some ask =>
      if c.availableMoves.isEmpty then
        throw (.told (.noMove c.player (.text "empty move set") c.state))
      let move ← ask c
      unless ← c.isValidMove move do throw (.told (.illegalMove c.player move c.state))
      return move

/-- What happens at a node that does not end the game: the key that leads on. -/
def decide (ps : Participants ω σ) (numPlayers : Int) (transcript : Transcript) :
    Node ω → Run σ Value
  | .simultaneous n => return .tuple (← decideTogether ps numPlayers transcript n)
  | .sequential player moves state =>
      decideAlone ps ⟨player, .tuple moves, numPlayers, state, transcript⟩
  | .chance distribution _ => distribution.sample ps.uniform
  | .terminal _ => throw .missingPart
  | .stray v => throw (.told (.misused (.notNode v)))

/-- The beginning of a walk. -/
def start (t : Tree ω σ) (root : t.Position) : Walk t.Position :=
  let state := (t.node root).state
  ⟨root, state.transcript?.getD .empty, state.round, 0⟩

/-- The walk as it enters the node at its position: in another round than before, nothing of this
round was visited yet. -/
def enter (t : Tree ω σ) (w : Walk t.Position) : Walk t.Position :=
  let round := (t.node w.position).state.round
  if round == w.round then w else { w with round := round, visited := 0 }

/-- Visits the node at the position of a walk: the walk goes on, or the game ends. -/
def step (t : Tree ω σ) (ps : Participants ω σ) (numPlayers maxDepth : Int)
    (w : Walk t.Position) : Run σ (Walk t.Position ⊕ Outcome) := do
  let w := w.enter
  let node := t.node w.position
  if maxDepth ≤ w.visited then throw (.nonterminating maxDepth node.state)
  match node with
  | .terminal e => return .inr (← e.outcome w.transcript numPlayers)
  | node =>
      let key ← decide ps numPlayers w.transcript node
      let child ← t.follow w.position key
      let played := w.transcript.addAll (node.plies key)
      let transcript := (t.node child).state.transcript?.getD played
      return .inl ⟨child, transcript, w.round, w.visited + 1⟩

/-- Visits nodes until the game ends, but no more of them than given: nothing comes of a walk that
would have to go on. -/
def run (t : Tree ω σ) (ps : Participants ω σ) (numPlayers maxDepth : Int) :
    Nat → Walk t.Position → Run σ (Option Outcome)
  | 0, _ => return none
  | visits + 1, w => do
      match ← w.step t ps numPlayers maxDepth with
      | .inl w => run t ps numPlayers maxDepth visits w
      | .inr outcome => return some outcome

end Walk

/-- Plays a tree from a position on, visiting no more nodes than given. -/
def execute {ω σ : Type} [Scale ω] (t : Tree ω σ) (ps : Participants ω σ)
    (numPlayers maxDepth : Int) (visits : Nat) (root : t.Position) : Run σ (Option Outcome) := do
  ps.check numPlayers
  Walk.run t ps numPlayers maxDepth visits (Walk.start t root)

end ExtensiveForm
