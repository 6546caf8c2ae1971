import ExtensiveForm.Fault
import ExtensiveForm.Value.Equality

/-!
# Transcripts

The moves of a play in the order in which they were made, those of chance among them. A transcript
is never changed: adding a move gives another one.
-/

namespace ExtensiveForm

/-- The move was made by chance. -/
def Ply.isChance (p : Ply) : Bool :=
  match p.player with
  | .null => true
  | _ => false

namespace Transcript

/-- The transcript with one more move. -/
def add (t : Transcript) (p : Ply) : Transcript :=
  ⟨p :: t.latestFirst⟩

/-- The transcript with more moves, made in this order. -/
def addAll (t : Transcript) (ps : List Ply) : Transcript :=
  ps.foldl add t

/-- How many moves were made. -/
def length (t : Transcript) : Nat :=
  t.latestFirst.length

/-- The moves of one player, or those of chance, in the order in which they were made. -/
def movesBy (t : Transcript) (player : Value) : List Value :=
  (t.plies.filter (·.player == player)).map (·.move)

/-- The first move of a player. -/
def firstMoveBy? (t : Transcript) (player : Value) : Option Value :=
  (t.plies.find? (·.player == player)).map (·.move)

/-- The last move of a player. -/
def lastMoveBy? (t : Transcript) (player : Value) : Option Value :=
  (t.latestFirst.find? (·.player == player)).map (·.move)

/-- What a ply counts for in a profile of so many players: nothing, if it was made by chance or by
someone outside the game, and otherwise a move of the player. A value that cannot be compared with
a number, or that is no whole number within the range, is no player at all. -/
def seat? (player : Value) (numPlayers : Int) : Except Fault (Option Nat) :=
  match player, player.number?, player.whole? with
  | .null, _, _ => .ok none
  | _, none, _ => .error .wrongType
  | _, some _, some p => .ok (if 0 ≤ p ∧ p < numPlayers then some p.toNat else none)
  | _, some x, none =>
      if (Number.ofInt 0).atMost x && x.below (.ofInt numPlayers) then .error .wrongType
      else .ok none

/-- The only moves of the players who moved once, next to those already known; nothing, as soon as
a player moves again. -/
def onlyMoves (numPlayers : Int) (known : List (Nat × Value)) :
    List Ply → Except Fault (Option (List (Nat × Value)))
  | [] => .ok (some known)
  | p :: rest => do
      match ← seat? p.player numPlayers with
      | none => onlyMoves numPlayers known rest
      | some index =>
          if (known.lookup index).isSome then return none
          else onlyMoves numPlayers ((index, p.move) :: known) rest

/-- The profile of a play in which every player moved exactly once. -/
def profile? (t : Transcript) (numPlayers : Int) : Except Fault (Option Profile) := do
  match ← onlyMoves numPlayers [] t.plies with
  | none => return none
  | some known =>
      let moves? := (List.range numPlayers.toNat).mapM fun index => known.lookup index
      return moves?.map (⟨·⟩)

end Transcript

end ExtensiveForm
