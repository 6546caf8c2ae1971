import ExtensiveForm.Tree.Basic
import ExtensiveForm.Value.Table

/-!
# Graphs of nodes

Finitely many nodes, each with a table of where its keys lead. Nodes may be shared and may lead
back to each other, so the tree of a graph may be infinite.
-/

namespace ExtensiveForm

/-- Nodes by number, each with the numbers of the nodes that its keys lead to. -/
structure Graph (ω : Type) [Scale ω] where
  nodes : Array (Node ω × Table Nat)

namespace Graph

variable {ω : Type} [Scale ω]

/-- The node with this number. -/
def node (g : Graph ω) (i : Nat) : Node ω :=
  match g.nodes[i]? with
  | some (n, _) => n
  | none => .stray .null

/-- The number of the node that a key leads to. -/
def next? (g : Graph ω) (i : Nat) (key : Value) : Except Fault (Option Nat) :=
  match g.nodes[i]? with
  | some (_, table) => table.lookUp key
  | none => .ok none

/-- The tree of a graph: following a key does nothing but look it up. -/
def tree (σ : Type) (g : Graph ω) : Tree ω σ where
  Position := Nat
  node := g.node
  next i key := g.next? i key

end Graph

end ExtensiveForm
