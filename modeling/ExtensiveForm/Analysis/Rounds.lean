import ExtensiveForm.Analysis.Column
import ExtensiveForm.Record.History

/-!
# The rounds of a history side by side

For each player, the moves of the rounds as texts and the utilities of the rounds as a column of
entries of one type. Players are shown with numbers from one on.
-/

namespace ExtensiveForm

/-- Rows under named columns. -/
structure Sheet where
  columns : List String
  rows : List (List Value)

/-- The sheet without rows and columns. -/
def Sheet.empty : Sheet := ⟨[], []⟩

/-- The text that stands for a move: nothing is shown as an empty text, and what has members by
their texts in square brackets. -/
def moveText (move : Value) : String :=
  match move with
  | .null => ""
  | .text s => s
  | v =>
      match v.items with
      | .ok members => listText (members.map Value.display)
      | .error _ => v.display

/-- What one player did and got, round by round. -/
structure PlayerRounds where
  moves : List String
  payoffs : Column

/-- The text of the move of a player that stands for one round: that of the profile, or without a
profile the player's last move. -/
def roundText (player : Value) (o : Outcome) : Except Fault String := do
  let move ←
    match o.profile with
    | some profile => profile.forPlayer player
    | none => .ok ((o.transcript.lastMoveBy? player).getD .null)
  if move.isWritable then return moveText move else throw .badArgument

namespace History

/-- The greatest number of players that a round has utilities for. -/
def width (h : History) : Nat :=
  (h.outcomes.map (·.payoff.values.length)).foldl max 0

/-- The rounds as each of the players saw them. All moves and utilities are looked up before any
column is made. -/
def playerRounds (h : History) : Except Fault (List PlayerRounds) := do
  let looked ← (List.range h.width).mapM fun (player : Nat) => do
    let moves ← h.outcomes.mapM (roundText (.int player))
    let payoffs ← h.payoffsForPlayer (.int player)
    return (moves, payoffs)
  looked.mapM fun (moves, payoffs) => return ⟨moves, ← Column.ofValues payoffs⟩

/-- The names of the columns of one player. -/
def columnNames (number : Nat) : List String :=
  [s!"player{number}_move", s!"player{number}_payoff"]

/-- One row for each round: its number, counted from one, and the moves and utilities of the
players. -/
def sheet (h : History) : Except Fault Sheet := do
  if h.length = 0 then return .empty
  let players ← h.playerRounds
  let columns := players.flatMap fun p => [p.moves.map Value.text, p.payoffs.entries]
  let names := (List.range players.length).flatMap fun i => columnNames (i + 1)
  let rows := (List.range h.length).map fun (i : Nat) =>
    Value.int (i + 1) :: columns.map fun column => column.getD i .null
  return ⟨"round" :: names, rows⟩

end History

end ExtensiveForm
