/-!
# Values

Moves, utilities, player names, states and the keys of continuations are all values: the rules of
a game decide which ones it uses, and nothing here restricts them. Records of play are values too,
so that a state can carry the transcript and the history of the play that led to it.
-/

namespace ExtensiveForm

mutual

/-- What a game may use as a move, a utility, a player, a state or a key. -/
inductive Value where
  | null
  | bool (b : Bool)
  | int (n : Int)
  | double (x : Float)
  /-- What is no number, as it was given: each one given has a mark of its own. -/
  | undefined (mark : Nat)
  | text (s : String)
  | tuple (items : List Value)
  | list (items : List Value)
  | payoff (p : Payoff)
  | profile (p : Profile)
  | ply (p : Ply)
  | transcript (t : Transcript)
  | outcome (o : Outcome)
  | history (h : History)
  | roundState (s : RoundState)
  | scope (s : Scope)

/-- One utility for each player, in the order of the players. -/
structure Payoff where
  values : List Value

/-- One move for each player, in the order of the players. -/
structure Profile where
  moves : List Value

/-- A single move. The player is `null` for a move of chance. -/
structure Ply where
  player : Value
  move : Value

/-- The moves made so far, kept with the latest one first so that adding a move is a single step
and every earlier transcript stays as it was. -/
structure Transcript where
  latestFirst : List Ply

/-- The result of a complete play. The profile is missing when the play did not produce exactly
one move for each player, and the history is there only for repeated play. -/
structure Outcome where
  payoff : Payoff
  profile : Option Profile
  transcript : Transcript
  history : Option History

/-- The outcomes of the completed rounds of a repeated play, the latest one first. -/
structure History where
  latestFirst : List Outcome

/-- What is visible at every node of a repeated game: the completed rounds, the state of the stage
game at this node, and the moves of the round in progress. -/
structure RoundState where
  history : History
  stageState : Value
  transcript : Transcript

/-- A state that scopes the walk to a round of its own. Each of the last three parts counts only
if it is of the right sort. -/
structure Scope where
  label : Value
  transcript : Value
  round : Value
  history : Value

end

instance : Inhabited Value := ⟨.null⟩

namespace Transcript

/-- The transcript of a play that has not begun. -/
def empty : Transcript := ⟨[]⟩

/-- The moves in the order in which they were made. -/
def plies (t : Transcript) : List Ply := t.latestFirst.reverse

/-- The transcript of the given moves, made in this order. -/
def ofPlies (plies : List Ply) : Transcript := ⟨plies.reverse⟩

end Transcript

namespace History

/-- The history of a repeated play that has completed no round. -/
def empty : History := ⟨[]⟩

/-- The outcomes in the order of the rounds. -/
def outcomes (h : History) : List Outcome := h.latestFirst.reverse

/-- The history of the given outcomes, in the order of the rounds. -/
def ofOutcomes (outcomes : List Outcome) : History := ⟨outcomes.reverse⟩

end History

end ExtensiveForm
