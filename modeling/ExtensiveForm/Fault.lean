import ExtensiveForm.Value.Equality
import ExtensiveForm.Value.Text

/-!
# Faults

Why a play was abandoned, or why something was refused when it was built or looked up. A fault
keeps what it is about; its wording is in `Fault.message?` and nowhere else. Faults of the basic
operations on values have no wording of their own.
-/

namespace ExtensiveForm

/-- What was wrong with the data that something was to be built from or looked up in. -/
inductive Refusal where
  | emptyDistribution
  | infiniteWeights (weights : List Value)
  | negativeWeights (weights : List Value)
  | noPositiveWeight
  | unpairedWeights (elements weights : Nat)
  | payoffSizes (left right : Nat)
  | unpairedMoveSets (players moveSets : Nat)
  | repeatedPlayers (players : List Value)
  | noPlayers
  | noMoves (player : Nat)
  | tooFewPlayers (numPlayers : Int)
  | moveSetCount (moveSets : Nat) (numPlayers : Int)
  | utilityFunctionCount (functions players : Nat)
  | tableEntrySize (payoff : List Value) (moves : Value) (numPlayers : Nat)
  | missingProfiles (count : Nat) (examples : List Value)
  | symmetricUtilities (moves utilities : Nat)
  | matrixShape (rows columns : Nat)
  | actionTupleSize (actions : Value) (size : Nat) (numPlayers : Int)
  | payoffTupleSize (payoff : Value) (size : Nat) (numPlayers : Int)
  | unknownAction (action : Value) (actions : List Value)
  | defaultPayoffSize (payoff : Value) (size : Nat) (numPlayers : Int)
  | endlessRepetition
  | repetitionCount (repetitions : Int) (limit : Nat)
  | noStrategies
  | notTwoPlayers (numPlayers : Int)
  | noMovesRecorded (player : Value)
  | notWholeNumber (setting : String) (text : String)

/-- What a value was taken for without being one. -/
inductive Misuse where
  | notNode (v : Value)
  | notRoot (v : Value)
  | notStrategy (v : Value)

/-- Why a computation did not give a result. -/
inductive Fault where
  /-- A player is not one of the players of the game, or, with `null` for the number of players, has
  no strategy. -/
  | invalidPlayer (player numPlayers state : Value)
  /-- A move is not in the set declared for the player who made it. -/
  | illegalMove (player move state : Value)
  /-- A node has no continuation for a key. -/
  | unmapped (key state : Value)
  /-- The bound on the number of nodes was reached. -/
  | nonterminating (maxDepth : Int) (state : Value)
  /-- A player has no legal move, or a strategy declined to move. The reason is told unless it
  counts as false. -/
  | noMove (player reason state : Value)
  /-- A payoff does not hold one utility for each player. -/
  | invalidPayoff (payoff : List Value) (numPlayers : Int) (state : Value)
  | refused (why : Refusal)
  | misused (how : Misuse)
  /-- An operation does not apply to values of this sort. -/
  | wrongType
  /-- An operation applies to values of this sort, but not to this one. -/
  | badArgument
  | indexOutOfRange
  | keyNotFound
  /-- A whole number is too large for a double. -/
  | overflow
  /-- Columns of one table hold numbers of different types. -/
  | mixedColumns
  /-- A column holds what cannot be added. -/
  | notSummable
  /-- A value does not have the part that was asked for. -/
  | missingPart

namespace Refusal

/-- The wording of a refusal. -/
def message : Refusal → String
  | emptyDistribution => "Distribution requires at least one element"
  | infiniteWeights weights =>
      "Distribution weights must be finite, got " ++ Value.listLiteral weights
  | negativeWeights weights =>
      "Distribution weights cannot be negative, got " ++ Value.listLiteral weights
  | noPositiveWeight => "Distribution weights must have a positive total"
  | unpairedWeights elements weights => s!"Got {elements} elements but {weights} weights"
  | payoffSizes left right => s!"Cannot add payoffs for {left} and {right} players"
  | unpairedMoveSets players moveSets =>
      s!"Simultaneous node has {players} players but {moveSets} move sets"
  | repeatedPlayers players =>
      "Duplicate players in simultaneous node: " ++ Value.tupleLiteral players
  | noPlayers => "A normal-form game needs at least one player"
  | noMoves player => s!"Player {player} has no moves"
  | tooFewPlayers numPlayers => s!"A game needs at least one player, got {numPlayers}"
  | moveSetCount moveSets numPlayers => s!"Got {moveSets} move sets for {numPlayers} players"
  | utilityFunctionCount functions players =>
      s!"Got {functions} utility functions for {players} players"
  | tableEntrySize payoff moves numPlayers =>
      "Payoff " ++ Value.tupleLiteral payoff ++ " for " ++ moves.display
        ++ s!" has {payoff.length} entries, expected {numPlayers}"
  | missingProfiles count examples =>
      s!"Payoff table is missing {count} profile(s), e.g. " ++ Value.listLiteral examples
  | symmetricUtilities moves utilities =>
      s!"Expected {moves * moves} utilities for {moves} moves, got {utilities}"
  | matrixShape rows columns => s!"Utility matrices must be {rows}x{columns}"
  | actionTupleSize actions size numPlayers =>
      "Action tuple " ++ actions.display ++ s!" has {size} entries, expected {numPlayers}"
  | payoffTupleSize payoff size numPlayers =>
      "Payoff tuple " ++ payoff.display ++ s!" has {size} entries, expected {numPlayers}"
  | unknownAction action actions =>
      "Unknown action '" ++ action.display ++ "' in matrix. Valid actions: "
        ++ Value.listLiteral actions
  | defaultPayoffSize payoff size numPlayers =>
      "Default payoff " ++ payoff.display ++ s!" has {size} entries, expected {numPlayers}"
  | endlessRepetition => "RepeatedGame needs a number of repetitions or a stop condition"
  | repetitionCount repetitions limit =>
      s!"Repetitions must be between 1 and {limit}, got {repetitions}"
  | noStrategies => "PeriodicStrategy needs at least one strategy"
  | notTwoPlayers numPlayers => s!"their_index needs a 2-player game, not {numPlayers}"
  | noMovesRecorded player => "No moves recorded for player " ++ player.display
  | notWholeNumber setting text => setting ++ " must be an integer, got " ++ quoted text

/-- The values that the wording of a refusal shows. -/
def shown : Refusal → List Value
  | repeatedPlayers players => players
  | tableEntrySize payoff moves _ => moves :: payoff
  | missingProfiles _ examples => examples
  | actionTupleSize v _ _ | payoffTupleSize v _ _ | defaultPayoffSize v _ _ => [v]
  | noMovesRecorded player => [player]
  | unknownAction action actions => action :: actions
  | _ => []

end Refusal

namespace Misuse

/-- The wording of a misuse. -/
def message : Misuse → String
  | notNode v => "Not an execution node: " ++ v.literal
  | notRoot v => "root must be an execution node or a callable, got " ++ v.literal
  | notStrategy v => "Expected a Strategy or a callable, got " ++ v.literal

/-- The value that the wording of a misuse shows. -/
def shown : Misuse → Value
  | notNode v | notRoot v | notStrategy v => v

end Misuse

namespace Fault

/-- The wording of a fault, if it has one. -/
def message? : Fault → Option String
  | invalidPlayer player .null _ => some ("No strategy for player " ++ player.literal)
  | invalidPlayer player numPlayers _ =>
      some ("Invalid player " ++ player.literal ++ ": game has " ++ numPlayers.display
        ++ " players")
  | illegalMove player move _ =>
      some ("Player " ++ player.display ++ " played an illegal move: " ++ move.literal)
  | unmapped key _ => some ("No continuation for apparently valid move(s): " ++ key.literal)
  | nonterminating maxDepth _ => some s!"No terminal node reached within {maxDepth} steps"
  | noMove player reason _ =>
      some ("No move available for player " ++ player.display
        ++ if reason.truthy then ": " ++ reason.display else "")
  | invalidPayoff payoff numPlayers _ =>
      some ("Payoff " ++ Value.tupleLiteral payoff
        ++ s!" has {payoff.length} entries, expected {numPlayers}")
  | refused why => some why.message
  | misused how => some how.message
  | _ => none

/-- The values that the wording of a fault shows. -/
def shown : Fault → List Value
  | invalidPlayer player numPlayers _ => [player, numPlayers]
  | illegalMove player move _ => [player, move]
  | unmapped key _ => [key]
  | noMove player reason _ => [player, reason]
  | invalidPayoff payoff _ _ => payoff
  | refused why => why.shown
  | misused how => [how.shown]
  | _ => []

/-- The fault as it is told. A fault whose wording cannot be written is told as a bad argument. -/
def told (f : Fault) : Fault :=
  if f.shown.all Value.isWritable then f else .badArgument

/-- A fault is told as it is if all that its wording shows can be written. -/
theorem told_eq {f : Fault} (h : ∀ v ∈ f.shown, v.isWritable = true) : f.told = f :=
  if_pos (List.all_eq_true.2 h)

theorem told_eq_or (f : Fault) : f.told = f ∨ f.told = .badArgument := by
  unfold told
  split
  · exact .inl rfl
  · exact .inr rfl

/-- A fault that is no bad argument is told of faults of its own kind only. -/
theorem told_ne {f g : Fault} (h : f ≠ g) (hg : g ≠ .badArgument) : f.told ≠ g := by
  rcases f.told_eq_or with heq | heq <;> rw [heq]
  · exact h
  · exact hg.symm

/-- The state of the game that a fault tells of: nothing, for a fault that is not about a play. -/
def state : Fault → Value
  | invalidPlayer _ _ s | illegalMove _ _ s | unmapped _ s | nonterminating _ s | noMove _ _ s
  | invalidPayoff _ _ s => s
  | _ => .null

end Fault

/-- The text of a value, if it may be written. -/
def Value.written (v : Value) : Except Fault String :=
  if v.isWritable then .ok v.literal else .error .badArgument

end ExtensiveForm
