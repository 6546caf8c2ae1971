import ExtensiveForm.Fault

/-!
# Players

The players of a game are the whole numbers from zero up to their number. No other value is a
player, not even one that equals such a number.
-/

namespace ExtensiveForm

/-- The number of a player of a game with so many players. -/
def checkPlayer (player : Value) (numPlayers : Int) : Except Fault Nat :=
  match player with
  | .int p =>
      if 0 ≤ p ∧ p < numPlayers then .ok p.toNat
      else .error (.told (.invalidPlayer player (.int numPlayers) .null))
  | _ => .error (.told (.invalidPlayer player (.int numPlayers) .null))

/-- The player is one of a game whose number of players is given as a value. Only a whole number
from zero on is compared with it. -/
def checkPlayerAmong (player numPlayers : Value) : Except Fault Unit :=
  match player with
  | .int p =>
      if p < 0 then .error (.told (.invalidPlayer player numPlayers .null))
      else
        match numPlayers.number? with
        | some n =>
            if (Number.ofInt p).below n then .ok ()
            else .error (.told (.invalidPlayer player numPlayers .null))
        | none => .error .wrongType
  | _ => .error (.told (.invalidPlayer player numPlayers .null))

/-- The entry of a player in a list with one entry for each. -/
def entryFor (entries : List Value) (player : Value) : Except Fault Value := do
  let p ← checkPlayer player entries.length
  return entries.getD p .null

end ExtensiveForm
