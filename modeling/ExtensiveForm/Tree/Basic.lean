import ExtensiveForm.Tree.Node

/-!
# Game trees

A tree is given by its positions: what stands at each of them, and where each key leads from there.
Nothing is unfolded, so a tree may be infinite, and positions may lead back to each other. Following
a key may do whatever the rules of the game do in order to find the next position.
-/

namespace ExtensiveForm

/-- A game tree over a shared state. -/
structure Tree (ω σ : Type) [Scale ω] where
  Position : Type
  node : Position → Node ω
  next : Position → Value → Run σ (Option Position)

namespace Tree

variable {ω σ : Type} [Scale ω]

/-- The position that a key leads to. -/
def follow (t : Tree ω σ) (p : t.Position) (key : Value) : Run σ t.Position := do
  let key ← (t.node p).lookupKey key
  match ← t.next p key with
  | some q => return q
  | none => throw (.told (.unmapped key (t.node p).state))

/-- The keys that may be followed from a position, and where they lead. -/
def children (t : Tree ω σ) (p : t.Position) : Run σ (List (Value × t.Position)) :=
  (t.node p).keys.mapM fun key => return (key, ← t.follow p key)

/-- The positions that some keys lead to one after another, the first position included. -/
def walk (t : Tree ω σ) (p : t.Position) : List Value → Run σ (List t.Position)
  | [] => return [p]
  | key :: rest => do
      let q ← t.follow p key
      return p :: (← t.walk q rest)

end Tree

end ExtensiveForm
