import ExtensiveForm.Game.Basic

/-!
# Repeated games

Any game can be played several times in a row. The repeated game is a tree of its own: where a
round of the stage game ends, it leads on to the root of the stage game for the next round, and
every node carries the outcomes of the rounds completed before. The last round ends the repeated
game with the sum of all payoffs.
-/

namespace ExtensiveForm

/-- When a repeated game is over: after so many rounds, or as soon as the history says so,
whichever comes first. -/
structure Repetition (σ : Type) where
  rounds : Option Nat
  stop : Option (History → Run σ Value)
  /-- With no number of rounds, how many rounds without a move may follow one another. -/
  maxDepth : Int
  ends : rounds.isSome ∨ stop.isSome
  bounded : ∀ n ∈ rounds, 1 ≤ n ∧ n ≤ maxRepetitions

/-- Where a repeated game has got to. -/
inductive RoundPosition (P : Type) where
  /-- At a position of the stage game, after these rounds and these moves of the round in
  progress. -/
  | within (position : P) (history : History) (transcript : Transcript)
  /-- At its end. -/
  | over (e : Ending)

namespace Repetition

variable {ω σ : Type} [Scale ω]

/-- The end of a repeated game by a number of rounds, by its history, or by both. -/
def make (rounds : Option Int) (stop : Option (History → Run σ Value)) (maxDepth : Int) :
    Except Fault (Repetition σ) :=
  match rounds, stop with
  | none, none => .error (.refused .endlessRepetition)
  | none, some stop => .ok ⟨none, some stop, maxDepth, .inr rfl, by simp⟩
  | some n, stop =>
      if h : 1 ≤ n ∧ n ≤ maxRepetitions then
        .ok ⟨some n.toNat, stop, maxDepth, .inl rfl, by
          intro m hm
          cases hm
          omega⟩
      else .error (.refused (.repetitionCount n maxRepetitions))

/-- The same, with the usual number of rounds where there would be no end. -/
def orDefault (rounds : Option Int) (stop : Option (History → Run σ Value)) (maxDepth : Int) :
    Except Fault (Repetition σ) :=
  let rounds := if rounds.isNone ∧ stop.isNone then some (defaultRepetitions : Int) else rounds
  make rounds stop maxDepth

/-- The rounds so far were the last ones. The history is not asked after the last of a given number
of rounds. -/
def isFinished (r : Repetition σ) (h : History) : Run σ Bool := do
  if r.rounds.any (· ≤ h.length) then return true
  match r.stop with
  | none => return false
  | some stop => return (← stop h).truthy

/-- How many further rounds may begin before the next move. -/
def further (r : Repetition σ) (h : History) : Nat :=
  match r.rounds with
  | some n => n - h.length
  | none => r.maxDepth.toNat

/-- The position of the repeated game at a position of the stage game. The end of a round becomes
the beginning of the next one, until there is a move to make or the game is over. -/
def settle (r : Repetition σ) (stage : Game ω σ) :
    Nat → stage.tree.Position → History → Transcript → Run σ (RoundPosition stage.tree.Position)
  | further, p, h, t =>
      match stage.tree.node p with
      | .terminal e => do
          let outcome ← e.outcome t stage.numPlayers
          let h := h.add outcome
          if ← r.isFinished h then
            let score ← h.score
            return .over ⟨score, outcome.profile, some h, .roundState ⟨h, e.state, t⟩⟩
          match further with
          | 0 => throw (.nonterminating r.maxDepth e.state)
          | further + 1 => settle r stage further (← stage.root) h .empty
      | .stray _ => throw .missingPart
      | _ => return .within p h t

end Repetition

namespace RoundPosition

variable {ω σ : Type} [Scale ω]

/-- What stands at a position of a repeated game. -/
def node (stage : Tree ω σ) : RoundPosition stage.Position → Node ω
  | .within p h t =>
      (stage.node p).withState (.roundState ⟨h, (stage.node p).state, t⟩)
  | .over e => .terminal e

end RoundPosition

namespace Game

variable {ω σ : Type} [Scale ω]

/-- The tree of a repeated game. -/
def repeatedTree (stage : Game ω σ) (r : Repetition σ) : Tree ω σ where
  Position := RoundPosition stage.tree.Position
  node := RoundPosition.node stage.tree
  next
    | .within p h t, key => do
        let q ← stage.tree.follow p key
        let played := t.addAll ((stage.tree.node p).plies key)
        return some (← r.settle stage (r.further h) q h played)
    | .over _, _ => return none

/-- The game played several times in a row. Without a name of its own it is called after the stage
game. -/
def repeated (stage : Game ω σ) (r : Repetition σ) (name : String) : Game ω σ where
  kind := "RepeatedGame"
  name :=
    if !name.isEmpty then name
    else if !stage.name.isEmpty then "repeated " ++ stage.name
    else ""
  numPlayers := stage.numPlayers
  tree := stage.repeatedTree r
  root := do r.settle stage (r.further .empty) (← stage.root) .empty .empty
  legal player state :=
    match state with
    | .roundState s => stage.legal player s.stageState
    | state => stage.legal player state

/-- Plays a game several times: the outcome of the last round, and the history of all rounds. -/
def playRepeated (stage : Game ω σ) (r : Repetition σ) (ps : Participants ω σ) (visits : Nat) :
    Run σ (Option (Option Outcome × History)) := do
  match ← (stage.repeated r "").play ps r.maxDepth visits with
  | none => return none
  | some ⟨_, _, _, none⟩ => throw .missingPart
  | some ⟨_, _, _, some h⟩ => return some (h.last?, h)

end Game

end ExtensiveForm
