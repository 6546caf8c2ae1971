import ExtensiveForm.Game.Basic

/-!
# Games in normal form

All players move once and at the same time. The rules are a function from profiles to payoffs, so
there may be any number of players, and every payoff is worked out when it is needed.
-/

namespace ExtensiveForm

/-- A game in normal form: the moves of each player, and the payoff of a profile, which is `null`
for a profile without one. -/
structure NormalForm (σ : Type) where
  name : String
  moveSets : List (List Value)
  payoffOf : Profile → Run σ Value
  hasPlayer : moveSets ≠ []
  hasMoves : ∀ moves ∈ moveSets, moves ≠ []

namespace NormalForm

variable {ω σ : Type} [Scale ω]

/-- The game with these moves and payoffs. There has to be a player, and every player has to have a
move. -/
def make (name : String) (moveSets : List (List Value)) (payoffOf : Profile → Run σ Value) :
    Except Fault (NormalForm σ) :=
  if hasPlayer : moveSets = [] then .error (.refused .noPlayers)
  else if hasMoves : ∀ moves ∈ moveSets, moves ≠ [] then
    .ok ⟨name, moveSets, payoffOf, hasPlayer, hasMoves⟩
  else .error (.refused (.noMoves (moveSets.findIdx List.isEmpty)))

/-- The game with the moves that a value stands for: its members are the sets of moves. -/
def ofMoves (name : String) (moveSets : Value) (payoffOf : Profile → Run σ Value) :
    Except Fault (NormalForm σ) := do
  unless moveSets.truthy do throw (.refused .noPlayers)
  make name (← moveSets.itemLists) payoffOf

/-- How many players there are. -/
def numPlayers (g : NormalForm σ) : Nat :=
  g.moveSets.length

/-- Each of the players chooses one of the moves declared for that player. -/
def isValidProfile (g : NormalForm σ) (p : Profile) : Bool :=
  p.moves.length == g.numPlayers
    && (p.moves.zip g.moveSets).all fun (move, moves) => move.isAmong moves

/-- The first player whose move is not one of those declared, with that move. -/
def firstIllegal? (g : NormalForm σ) (p : Profile) : Option (Value × Nat) :=
  (p.moves.zip g.moveSets).zipIdx.findSome? fun ((move, moves), player) =>
    if move.isAmong moves then none else some (move, player)

/-- The payoff of a profile. -/
def payoff (g : NormalForm σ) (p : Profile) : Run σ Payoff := do
  unless p.moves.length = g.numPlayers do throw (.told (.illegalMove .null (.tuple p.moves) .null))
  match g.firstIllegal? p with
  | some (move, player) => throw (.told (.illegalMove (.int player) move .null))
  | none =>
      match ← g.payoffOf p with
      | .null => throw (.told (.unmapped (.tuple p.moves) .null))
      | v => Payoff.ofValue v

/-- All profiles of declared moves, the move of the last player changing fastest. -/
def profiles (g : NormalForm σ) : List Profile :=
  (choices g.moveSets).map (⟨·⟩)

/-- How many moves each player has. -/
def dimensions (g : NormalForm σ) : List Nat :=
  g.moveSets.map List.length

/-- The utilities of each of the profiles add up to zero. Nothing is looked at after the first
profile of which this is not so. -/
def sumToZero (g : NormalForm σ) : List Profile → Run σ Bool
  | [] => return true
  | p :: rest => do
      let total ← Value.sum (← g.payoff p).values
      if total == .int 0 then g.sumToZero rest else return false

/-- Whatever one player gains, the others lose. -/
def isZeroSum (g : NormalForm σ) : Run σ Bool :=
  g.sumToZero g.profiles

/-- The tree of a game in normal form: everyone decides, and the game is over. -/
def tree (g : NormalForm σ) : Tree ω σ where
  Position := Option Ending
  node
    | none => .simultaneous (.everyone g.moveSets .null)
    | some e => .terminal e
  next
    | none, key => do
        let profile ← Profile.ofValue key
        return some (some ⟨← g.payoff profile, some profile, none, .null⟩)
    | some _, _ => return none

/-- A normal form as a game. -/
def game (g : NormalForm σ) : Game ω σ where
  kind := "NormalFormGame"
  name := g.name
  numPlayers := g.numPlayers
  tree := g.tree
  root := return none
  legal player _ := .ok (g.moveSets.getD player [])

end NormalForm

end ExtensiveForm
