import ExtensiveForm.Play.Context
import ExtensiveForm.Run

/-!
# Participants of a play

Who can be asked for a move, and where chance gets its numbers from. Asking may change the shared
state: strategies have memories and draw numbers of their own.
-/

namespace ExtensiveForm

/-- Those who take part in a play: the players for whom there is a strategy, how each is asked, and
the source of random numbers. -/
structure Participants (ω σ : Type) where
  players : List Value
  ask : Nat → Option (Context → Run σ Value)
  uniform : StateM σ ω

namespace Participants

variable {ω σ : Type}

/-- Every player with a strategy is a player of the game. -/
def check (ps : Participants ω σ) (numPlayers : Int) : Except Fault Unit :=
  ps.players.forM fun player => do
    let _ ← checkPlayer player numPlayers

/-- The answer of a player, who has to be one of the game and to have a strategy. -/
def answer (ps : Participants ω σ) (c : Context) : Run σ Value := do
  let player ← checkPlayer c.player c.numPlayers
  match ps.ask player with
  | some ask => ask c
  | none => throw (.told (.invalidPlayer c.player .null c.state))

/-- The same participants, with a note made in the state of every answer. -/
def noting (ps : Participants ω σ) (note : Context → Except Fault Value → σ → σ) :
    Participants ω σ :=
  { ps with ask := fun player => (ps.ask player).map fun ask c => (ask c).noting (note c) }

/-- The same participants, who are asked only in contexts that pass a check. -/
def guarded (ps : Participants ω σ) (check : Context → Except Fault Unit) : Participants ω σ :=
  { ps with
    ask := fun player => (ps.ask player).map fun ask c => do
      Run.lift (check c)
      ask c }

end Participants

end ExtensiveForm
