import ExtensiveForm.Game.Basic

/-!
# Games given by their trees

A game may be given by a tree, together with the moves declared for each player. Nodes of the tree
may offer only some of these. The root may also be found anew whenever a play begins.
-/

namespace ExtensiveForm

namespace Game

variable {ω σ : Type} [Scale ω]

/-- The moves declared for so many players: there is a player, and there is one set of moves for
each player. A root that is known has to be a node, which is found out before the moves are. -/
def readMoveSets (numPlayers : Int) (moveSets : Value) (root? : Option (Node ω)) :
    Except Fault (List (List Value)) := do
  if numPlayers < 1 then throw (.refused (.tooFewPlayers numPlayers))
  let count ← moveSets.length
  unless count = numPlayers do throw (.refused (.moveSetCount count numPlayers))
  match root? with
  | some (.stray v) => throw (.told (.misused (.notRoot v)))
  | _ => moveSets.itemLists

/-- The game that unfolds in a tree, with these moves declared for the players. -/
def unfolding (name : String) (numPlayers : Int) (moveSets : List (List Value)) (tree : Tree ω σ)
    (root : Run σ tree.Position) : Game ω σ where
  kind := "TreeGame"
  name := name
  numPlayers := numPlayers
  tree := tree
  root := root
  legal player _ := .ok (moveSets.getD player [])

/-- The game whose plays begin wherever the given computation says. -/
def ofRoots (name : String) (numPlayers : Int) (moveSets : Value) (tree : Tree ω σ)
    (root : Run σ tree.Position) : Except Fault (Game ω σ) :=
  match readMoveSets numPlayers moveSets (none : Option (Node ω)) with
  | .error fault => .error fault
  | .ok moveSets => .ok (unfolding name numPlayers moveSets tree root)

/-- The game whose plays begin at one position, at which there has to be a node. -/
def ofTree (name : String) (numPlayers : Int) (moveSets : Value) (tree : Tree ω σ)
    (root : tree.Position) : Except Fault (Game ω σ) :=
  match readMoveSets numPlayers moveSets (some (tree.node root)) with
  | .error fault => .error fault
  | .ok moveSets => .ok (unfolding name numPlayers moveSets tree (return root))

end Game

end ExtensiveForm
