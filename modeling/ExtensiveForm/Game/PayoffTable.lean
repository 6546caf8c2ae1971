import ExtensiveForm.Game.NormalForm
import ExtensiveForm.Value.Table

/-!
# Games given by tables and matrices

A game in normal form may be given by the payoff of every profile, by one utility function for each
player, or, for two players, by matrices of utilities. Where two entries are for the same moves,
the later one counts. Whatever has members can serve for the moves, the sets of moves, the rows and
the utilities. Moves have to be hashable only here, where tuples of them are the keys of tables.
-/

namespace ExtensiveForm

namespace NormalForm

variable {σ : Type}

/-- The payoffs of a table by the tuples of moves that its keys are read as. Each payoff has to
have one utility for each player. -/
def readTable (numPlayers : Nat) (payoffs : Table Value) : Except Fault (Table Payoff) :=
  payoffs.entries.foldlM (fun table (key, entry) => do
    let payoff ← Payoff.ofValue entry
    unless payoff.values.length = numPlayers do
      throw (.told (.refused (.tableEntrySize payoff.values key numPlayers)))
    return table.insert (← (Value.tuple (← key.items)).asKey) payoff) .empty

/-- The payoffs of a table as a function of the profile. -/
def lookUp (table : Table Value) (p : Profile) : Run σ Value := do
  match ← table.lookUp (.tuple p.moves) with
  | some payoff => return payoff
  | none => throw .keyNotFound

/-- The game whose payoffs are the entries of a table, which has to have one for every profile. -/
def ofTable (name : String) (moveSets : Value) (payoffs : Table Value) :
    Except Fault (NormalForm σ) := do
  let table ← readTable (← moveSets.length) payoffs
  let sets ← moveSets.itemLists
  let tuples ← ((choices sets).map Value.tuple).mapM Value.asKey
  let missing := tuples.filter fun moves => (table.find? moves).isNone
  unless missing.isEmpty do
    throw (.told (.refused (.missingProfiles missing.length (missing.take 3))))
  make name sets (lookUp (table.map .payoff))

/-- The game with one utility function for each player. -/
def ofUtilities (name : String) (moveSets : Value) (utilities : List (Profile → Run σ Value)) :
    Except Fault (NormalForm σ) := do
  let count ← moveSets.length
  unless utilities.length = count do
    throw (.refused (.utilityFunctionCount utilities.length count))
  ofMoves name moveSets fun p => return .payoff ⟨← utilities.mapM fun utility => utility p⟩

/-- The game for two players who have the same moves and the same prospects. The utilities are
those of the first player, row by row. -/
def symmetric (name : String) (moves utilities : Value) : Except Fault (NormalForm σ) := do
  let moves ← moves.items
  let utilities ← utilities.items
  let size := moves.length
  unless utilities.length = size * size do
    throw (.refused (.symmetricUtilities size utilities.length))
  let utility (i j : Nat) := utilities.getD (i * size + j) .null
  let entries ← moves.zipIdx.mapM fun (row, i) => moves.zipIdx.mapM fun (column, j) => do
    let utilities := [utility i j, utility j i]
    return (← (Value.tuple [row, column]).asKey, Value.tuple utilities)
  ofTable name (.tuple [.tuple moves, .tuple moves]) (Table.ofList entries.flatten)

/-- The utility in a row and a column of a matrix that is to have so many of them. -/
def cell (rows columns : Nat) (matrix : Value) (i j : Nat) : Except Fault Value :=
  match matrix.entry (.int i) >>= fun row => row.entry (.int j) with
  | .error .indexOutOfRange => .error (.refused (.matrixShape rows columns))
  | utility => utility

/-- The game for two players with a matrix of utilities for each of them. -/
def bimatrix (name : String) (rows columns rowUtilities columnUtilities : Value) :
    Except Fault (NormalForm σ) := do
  let rows ← rows.items
  let columns ← columns.items
  let cell := cell rows.length columns.length
  let entries ← rows.zipIdx.mapM fun (row, i) => columns.zipIdx.mapM fun (column, j) => do
    let utilities := [← cell rowUtilities i j, ← cell columnUtilities i j]
    return (← (Value.tuple [row, column]).asKey, Value.tuple utilities)
  ofTable name (.tuple [.tuple rows, .tuple columns]) (Table.ofList entries.flatten)

/-- The game for two players in which one loses what the other one gains. -/
def matrix (name : String) (rows columns utilities : Value) : Except Fault (NormalForm σ) := do
  let negated ← (← utilities.itemLists).mapM fun row => row.mapM Value.neg
  bimatrix name rows columns utilities (.tuple (negated.map .tuple))

/-- An entry of a table of actions names one declared action and one utility for each player. -/
def checkEntry (actions : List Value) (numPlayers : Int) (key payoff : Value) :
    Except Fault Unit := do
  let chosen ← key.items
  unless chosen.length = numPlayers do
    throw (.told (.refused (.actionTupleSize key chosen.length numPlayers)))
  let size ← payoff.length
  unless size = numPlayers do throw (.told (.refused (.payoffTupleSize payoff size numPlayers)))
  for action in chosen do
    unless action.isAmong actions do throw (.told (.refused (.unknownAction action actions)))

/-- The game in which all players have the same actions. Combinations of actions that are not in
the table have the default payoff, if there is one. -/
def ofActions (name : String) (actions : Value) (payoffs : Table Value) (numPlayers : Int)
    (default : Value) : Except Fault (NormalForm σ) := do
  let actions ← actions.items
  for (key, payoff) in payoffs.entries do checkEntry actions numPlayers key payoff
  let moveSets := List.replicate numPlayers.toNat actions
  match default with
  | .null => ofTable name (.tuple (moveSets.map .tuple)) payoffs
  | default => do
      let size ← default.length
      unless size = numPlayers do
        throw (.told (.refused (.defaultPayoffSize default size numPlayers)))
      let tuples ← ((choices moveSets).map Value.tuple).mapM Value.asKey
      let entries := tuples.map fun moves => (moves, (payoffs.find? moves).getD default)
      make name moveSets (lookUp (Table.ofList entries))

end NormalForm

end ExtensiveForm
