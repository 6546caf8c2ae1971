import ExtensiveForm.Record.History

/-!
# What a strategy may look at

A context is made before any player at the same node has answered, so it never shows a move of the
decision in progress. In repeated games the transcript holds the moves of the round in progress,
and the rounds before it are in the history.
-/

namespace ExtensiveForm

/-- What a player may look at when choosing a move. -/
structure Context where
  player : Value
  /-- The value that the moves are the members of. -/
  offered : Value
  numPlayers : Int
  state : Value
  transcript : Transcript

namespace Context

/-- The moves that the player may choose from. -/
def availableMoves (c : Context) : List Value :=
  c.offered.items.toOption.getD []

/-- The completed rounds that are visible here. -/
def history (c : Context) : History :=
  c.state.history?.getD .empty

/-- The other player of a game for two. -/
def theirIndex (c : Context) : Except Fault Value :=
  if c.numPlayers = 2 then Value.sub (.int 1) c.player
  else .error (.refused (.notTwoPlayers c.numPlayers))

/-- The move is offered here. -/
def isValidMove (c : Context) (move : Value) : Except Fault Bool :=
  c.offered.holds move

/-- Two contexts show the same. -/
def agree (c d : Context) : Bool :=
  c.player.alike d.player && c.offered.alike d.offered && c.numPlayers == d.numPlayers
    && c.state.alike d.state && c.transcript == d.transcript

end Context

end ExtensiveForm
