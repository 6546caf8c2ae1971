import ExtensiveForm.Random.Distribution
import ExtensiveForm.Record.Payoff
import ExtensiveForm.Record.History
import ExtensiveForm.Value.Table

/-!
# Nodes

What stands at a position of a game tree: a decision of several players at once, a decision of one
player, a move of chance, or the end of the game. A node says nothing about what follows it.
-/

namespace ExtensiveForm

/-- A player at a node, and the moves offered there. -/
structure Seat where
  player : Value
  moves : List Value

/-- A decision that different players make at once. -/
structure Simultaneous where
  seats : List Seat
  state : Value
  distinct : seats.Pairwise fun a b => a.player.alike b.player = false

namespace Simultaneous

/-- The players who decide. -/
def players (n : Simultaneous) : List Value :=
  n.seats.map (·.player)

/-- The moves offered to each of them. -/
def moves (n : Simultaneous) : List (List Value) :=
  n.seats.map (·.moves)

/-- The decision of these players among these moves. The players are compared as keys. -/
def make (players : List Value) (moves : List (List Value)) (state : Value) :
    Except Fault Simultaneous :=
  if players.length = moves.length then do
    for player in players do let _ ← player.asKey
    let seats := List.zipWith Seat.mk players moves
    if h : seats.Pairwise fun a b => a.player.alike b.player = false then return ⟨seats, state, h⟩
    else throw (.told (.refused (.repeatedPlayers players)))
  else .error (.refused (.unpairedMoveSets players.length moves.length))

/-- The decision of the members of one value among the moves in another one. -/
def ofValues (players moves state : Value) : Except Fault Simultaneous := do
  make (← players.items) (← moves.itemLists) state

/-- The players of a game move at once, each among the moves at the same place of the list. -/
def everyone (moveSets : List (List Value)) (state : Value) : Simultaneous where
  seats := moveSets.zipIdx.map fun (moves, player) => ⟨.int player, moves⟩
  state := state
  distinct := by
    rw [List.pairwise_map]
    have increasing : moveSets.zipIdx.Pairwise fun a b => a.2 < b.2 := by
      rw [← List.pairwise_map, List.zipIdx_map_snd]
      exact List.pairwise_lt_range'
    refine increasing.imp fun {a b} h => ?_
    simp only [Value.int_alike, decide_eq_false_iff_not]
    omega

/-- The plies made when these moves are chosen, in the order of the players. -/
def plies (n : Simultaneous) (moves : List Value) : List Ply :=
  List.zipWith (fun seat move => ⟨seat.player, move⟩) n.seats moves

/-- The moves offered to a player who decides here. -/
def movesFor (n : Simultaneous) (player : Value) : Except Fault (List Value) :=
  match n.seats.find? (·.player.alike player) with
  | some seat => .ok seat.moves
  | none => .error .badArgument

end Simultaneous

/-- The end of a game. The profile may be left out, and the history is there only for repeated
games. -/
structure Ending where
  payoff : Payoff
  profile : Option Profile
  history : Option History
  state : Value

namespace Ending

/-- The outcome of a play of so many players that ends here after these moves. A profile that was
left out is taken from the moves, if every player moved exactly once. -/
def outcome (e : Ending) (transcript : Transcript) (numPlayers : Int) : Except Fault Outcome := do
  unless e.payoff.values.length = numPlayers do
    throw (.told (.invalidPayoff e.payoff.values numPlayers e.state))
  let profile ←
    match e.profile with
    | some profile => pure (some profile)
    | none => transcript.profile? numPlayers
  return ⟨e.payoff, profile, transcript, e.history⟩

/-- Two ends agree in payoff, profile, history and state. -/
def agree (d e : Ending) : Bool :=
  d.payoff == e.payoff && d.profile == e.profile && d.history == e.history
    && d.state.alike e.state

end Ending

/-- What stands at a position. A rule of a game may also name something that is no node. -/
inductive Node (ω : Type) [Scale ω] where
  | simultaneous (n : Simultaneous)
  | sequential (player : Value) (moves : List Value) (state : Value)
  | chance (distribution : Distribution ω) (state : Value)
  | terminal (e : Ending)
  | stray (v : Value)

/-- One choice from each list, the last one changing fastest. -/
def choices {α : Type} : List (List α) → List (List α)
  | [] => [[]]
  | xs :: rest => xs.flatMap fun x => (choices rest).map (x :: ·)

namespace Node

variable {ω : Type} [Scale ω]

/-- It is a node. -/
def isNode : Node ω → Bool
  | stray _ => false
  | _ => true

/-- The state that a node carries. -/
def state : Node ω → Value
  | simultaneous n => n.state
  | sequential _ _ s => s
  | chance _ s => s
  | terminal e => e.state
  | stray _ => .null

/-- The keys that may be followed from a node: a tuple of moves where several players decide, a
single move elsewhere, and of the elements of chance those with a positive probability. -/
def keys : Node ω → List Value
  | simultaneous n => (choices n.moves).map .tuple
  | sequential _ moves _ => moves
  | chance d _ => d.support
  | terminal _ => []
  | stray _ => []

/-- The key by which a continuation is looked up. Where several players decide, anything with
members is taken for the tuple of them. -/
def lookupKey : Node ω → Value → Except Fault Value
  | simultaneous _, key => return .tuple (← key.items)
  | sequential _ _ _, key => .ok key
  | chance _ _, key => .ok key
  | terminal _, _ => .error .missingPart
  | stray _, _ => .error .missingPart

/-- The plies made when a key is followed. -/
def plies : Node ω → Value → List Ply
  | simultaneous n, .tuple moves => n.plies moves
  | sequential player _ _, move => [⟨player, move⟩]
  | chance _ _, element => [⟨.null, element⟩]
  | _, _ => []

/-- The same node with another state. The end of a game is left as it is, and so is what is no
node. -/
def withState (state : Value) : Node ω → Node ω
  | simultaneous n => simultaneous { n with state := state }
  | sequential player moves _ => sequential player moves state
  | chance distribution _ => chance distribution state
  | n => n

/-- Two nodes agree in all that they say. What is no node has nothing to say: comparing two such
things of one sort fails. -/
def agree : Node ω → Node ω → Except Fault Bool
  | simultaneous m, simultaneous n =>
      .ok (m.state == n.state && Value.tuple m.players == .tuple n.players
        && Value.tuple (m.moves.map .tuple) == .tuple (n.moves.map .tuple))
  | sequential p ms s, sequential q ns t =>
      .ok (s == t && p.alike q && Value.tuple ms == .tuple ns)
  | chance d s, chance e t => .ok (s == t && d.same e)
  | terminal d, terminal e => .ok (d.agree e)
  | stray v, stray w =>
      if v.plain.ctorIdx = w.plain.ctorIdx then .error .missingPart else .ok false
  | _, _ => .ok false

end Node

end ExtensiveForm
