import ExtensiveForm.Analysis.Rounds
import ExtensiveForm.Value.Arithmetic

/-!
# How often moves were made

For one player, each text that stands for a move with the number of rounds in which it does. The
most frequent one comes first, and of equally frequent ones the smaller text.
-/

namespace ExtensiveForm

/-- A text of a move, and in how many rounds it stands for the move. -/
structure FrequencyRow where
  move : String
  count : Nat
  deriving DecidableEq

namespace FrequencyRow

/-- One row comes no later than another one. -/
def before (a b : FrequencyRow) : Bool :=
  decide (b.count < a.count) || (a.count == b.count && decide (a.move ≤ b.move))

/-- The share of all rounds that a row stands for, next to so many other rows. Beside other rows it
is the share of a single round, that many times. -/
def share (others rounds : Nat) (r : FrequencyRow) : Float :=
  if others = 0 then Float.ofNat r.count / Float.ofNat rounds
  else Float.ofNat r.count * (1 / Float.ofNat rounds)

/-- The entries of a row, the last one being its share. -/
def entries (others rounds : Nat) (r : FrequencyRow) : List Value :=
  [.text r.move, .int r.count, .double (r.share others rounds)]

end FrequencyRow

/-- The rows of the texts of some moves. -/
def frequencyRows (moves : List String) : List FrequencyRow :=
  (moves.eraseDups.map fun move => ⟨move, moves.count move⟩).mergeSort FrequencyRow.before

namespace History

/-- The texts of the moves of a player, who is found by the name of a column of the rounds. -/
def moveTexts (h : History) (player : Value) : Except Fault (List String) := do
  let players ← h.playerRounds
  let number ← player.add (.int 1)
  let column := "player" ++ number.display ++ "_move"
  let named := players.zipIdx.find? fun (_, i) => (columnNames (i + 1)).contains column
  match named with
  | some (p, _) => return p.moves
  | none => throw (.told (.refused (.noMovesRecorded player)))

/-- One row for each text that stands for a move of the player. -/
def frequencySheet (h : History) (player : Value) : Except Fault Sheet := do
  if h.length = 0 then return .empty
  let rows := frequencyRows (← h.moveTexts player)
  return ⟨["move", "count", "share"], rows.map (FrequencyRow.entries (rows.length - 1) h.length)⟩

end History

end ExtensiveForm
