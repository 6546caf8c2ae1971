import ExtensiveForm.Record.Payoff
import ExtensiveForm.Record.Transcript
import ExtensiveForm.Value.State

/-!
# Histories

The outcomes of the completed rounds of a repeated play in the order of the rounds. A history is
never changed: adding an outcome gives another one, so what a strategy was shown stays as it was.
-/

namespace ExtensiveForm

namespace History

/-- The history with one more round. -/
def add (h : History) (o : Outcome) : History :=
  ⟨o :: h.latestFirst⟩

/-- The outcome of the last round. -/
def last? (h : History) : Option Outcome :=
  h.latestFirst.head?

/-- The sum of the payoffs so far: an empty payoff, if there was no round. -/
def score (h : History) : Except Fault Payoff :=
  match h.outcomes with
  | [] => .ok ⟨[]⟩
  | o :: rest => rest.foldlM (fun total o => total.add (.payoff o.payoff)) o.payoff

/-- The profiles of the rounds. -/
def profiles (h : History) : List (Option Profile) :=
  h.outcomes.map (·.profile)

/-- The move of a player that stands for one round: that of the profile, or without a profile the
player's last move, unless that is nothing. -/
def moveInRound? (player : Value) (o : Outcome) : Except Fault (Option Value) :=
  match o.profile with
  | some profile => do return some (← profile.forPlayer player)
  | none =>
      match o.transcript.lastMoveBy? player with
      | none | some .null => .ok none
      | some move => .ok (some move)

/-- The moves of a player, one for each round that has one. -/
def movesForPlayer (h : History) (player : Value) : Except Fault (List Value) := do
  return (← h.outcomes.mapM (moveInRound? player)).filterMap id

/-- The utilities of a player, one for each round. -/
def payoffsForPlayer (h : History) (player : Value) : Except Fault (List Value) :=
  h.outcomes.mapM fun o => o.payoff.forPlayer player

end History

end ExtensiveForm
