import ExtensiveForm.Play.Participants
import ExtensiveForm.Strategy.Candidate
import ExtensiveForm.Value.Table

/-!
# Sessions

What changes while games are played: the strategies with their memories, the generator, and what
the surroundings of the play keep for themselves. Strategies live through all plays of a session,
and a play may begin with another generator.
-/

namespace ExtensiveForm

/-- The strategies in the order in which they were given, the generator of the play, and the notes
of the surroundings. -/
structure Session (μ ω ν : Type) [Scale ω] where
  strategies : List (Candidate μ ω)
  generator : Generator ω
  notes : ν

namespace Session

variable {μ ω ν : Type} [Scale ω]

/-- The session with something noted. -/
def note (s : Session μ ω ν) (f : ν → ν) : Session μ ω ν :=
  { s with notes := f s.notes }

/-- The session with the strategy at a place as it was before its first move. -/
def reset (s : Session μ ω ν) (place : Nat) : Session μ ω ν :=
  { s with strategies := s.strategies.modify place Candidate.reset }

/-- The next number of the generator of the play. -/
def uniform : StateM (Session μ ω ν) ω :=
  fun s =>
    let (u, generator) := Generator.uniform s.generator
    (u, { s with generator := generator })

/-- The answer of the strategy at a place. -/
def ask (place : Nat) (c : Context) : Run (Session μ ω ν) Value :=
  Run.of fun s =>
    match s.strategies[place]? with
    | none => (.error .indexOutOfRange, s)
    | some x =>
        let reply := x.next c s.generator
        (reply.answer,
          { s with
            strategies := s.strategies.set place reply.after
            generator := reply.generator })

/-- Participants of whom the first player has the first strategy, and so on for so many players. -/
def inOrder (count : Nat) : Participants ω (Session μ ω ν) where
  players := (List.range count).map fun (player : Nat) => .int player
  ask player := if player < count then some (ask player) else none
  uniform := uniform

/-- Participants by player, for each the place of the strategy. -/
def byPlayer (places : Table Nat) : Participants ω (Session μ ω ν) where
  players := places.keys
  ask player := (places.find? (.int player)).map ask
  uniform := uniform

end Session

end ExtensiveForm
