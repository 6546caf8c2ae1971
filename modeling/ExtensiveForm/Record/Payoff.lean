import ExtensiveForm.Record.Player
import ExtensiveForm.Value.Arithmetic

/-!
# Payoffs and profiles

A payoff holds one utility for each player, a profile one move for each. Anything with members can
be taken for either.
-/

namespace ExtensiveForm

namespace Payoff

/-- The payoff that gives nothing to anyone. -/
def zeros (numPlayers : Int) : Payoff :=
  ⟨List.replicate numPlayers.toNat (.int 0)⟩

/-- The payoff whose utilities are the members of a value. -/
def ofValue (v : Value) : Except Fault Payoff :=
  return ⟨← v.items⟩

/-- The utility of a player. -/
def forPlayer (p : Payoff) (player : Value) : Except Fault Value :=
  entryFor p.values player

end Payoff

namespace Profile

/-- The profile whose moves are the members of a value. -/
def ofValue (v : Value) : Except Fault Profile :=
  return ⟨← v.items⟩

/-- The move of a player. -/
def forPlayer (p : Profile) (player : Value) : Except Fault Value :=
  entryFor p.moves player

/-- The profile in which only this player's move is another one. -/
def withMove (p : Profile) (player move : Value) : Except Fault Profile := do
  let index ← checkPlayer player p.moves.length
  return ⟨p.moves.set index move⟩

end Profile

/-- What a value has at a place. A payoff and a profile have something at the places of players
only. -/
def Value.entry (v place : Value) : Except Fault Value :=
  match v with
  | .payoff p => p.forPlayer place
  | .profile p => p.forPlayer place
  | v => v.member place

end ExtensiveForm
