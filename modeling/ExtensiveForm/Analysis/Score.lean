import ExtensiveForm.Analysis.Rounds

/-!
# Scores

What each player got in all rounds together, on average, at least and at most. The utilities of all
players are put one below the other, each with the number of its player, and then taken together by
these numbers. The player with the greatest total comes first, and of players with equal totals the
one with the smaller number.
-/

namespace ExtensiveForm

/-- Utilities of one type, each with the number of the player who got it. -/
structure Takings where
  type : EntryType
  rows : List (Nat × Value)

namespace Takings

/-- What one player got in each round. -/
def ofColumn (player : Nat) (payoffs : Column) : Takings :=
  ⟨payoffs.type, payoffs.entries.map (player, ·)⟩

/-- Takings one below the other, all of which can be put below the first ones. -/
def concat : List Takings → Except Fault Takings
  | [] => throw .badArgument
  | first :: rest => do
      unless rest.all fun takings => takings.type.goesBelow first.type do throw .mixedColumns
      return ⟨first.type, (first :: rest).flatMap (·.rows)⟩

/-- The players who got something, each of them once. -/
def players (takings : Takings) : List Nat :=
  (takings.rows.map (·.1)).eraseDups

/-- What one of the players got. -/
def ofPlayer (takings : Takings) (player : Nat) : Column :=
  ⟨takings.type, (takings.rows.filter (·.1 == player)).map (·.2)⟩

end Takings

/-- The utilities of one player over all rounds. -/
structure ScoreRow where
  player : Nat
  payoffs : Column

namespace ScoreRow

/-- One row comes no later than another one. -/
def before (a b : ScoreRow) : Bool :=
  if b.payoffs.totalAtLeast a.payoffs then
    a.payoffs.totalAtLeast b.payoffs && decide (a.player ≤ b.player)
  else true

/-- The entries of a row. There are as many rounds as utilities. -/
def entries (r : ScoreRow) : List Value :=
  [.int r.player, .int r.payoffs.entries.length, r.payoffs.total, r.payoffs.mean, r.payoffs.least,
    r.payoffs.greatest]

end ScoreRow

namespace History

/-- What all players got in all rounds. -/
def takings (h : History) : Except Fault Takings := do
  let players ← h.playerRounds
  Takings.concat (players.zipIdx.map fun (p, i) => .ofColumn (i + 1) p.payoffs)

/-- The rows of the score table, the best one first. -/
def scoreRows (h : History) : Except Fault (List ScoreRow) := do
  let takings ← h.takings
  unless takings.type.isSummable do throw .notSummable
  return (takings.players.map fun player => ⟨player, takings.ofPlayer player⟩).mergeSort
    ScoreRow.before

/-- One row for each player. -/
def scoreSheet (h : History) : Except Fault Sheet := do
  if h.length = 0 then return .empty
  let rows ← h.scoreRows
  return ⟨["player", "rounds", "total_payoff", "avg_payoff", "min_payoff", "max_payoff"],
    rows.map ScoreRow.entries⟩

end History

end ExtensiveForm
