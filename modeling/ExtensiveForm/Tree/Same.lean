import ExtensiveForm.Tree.Basic

/-!
# Trees that describe the same game

Two trees are compared from two positions on and down to a given depth. The nodes at the two
positions have to agree, and so have the trees from the children on. Whatever lies deeper is taken
to agree.
-/

namespace ExtensiveForm

namespace Tree

variable {ω σ : Type} [Scale ω]

/-- The children under these keys and the given children match one by one. -/
def sameChildren (t u : Tree ω σ) (same : t.Position → u.Position → Run σ Bool) (p : t.Position) :
    List Value → List (Value × u.Position) → Run σ Bool
  | [], _ => return true
  | key :: keys, others => do
      let child ← t.follow p key
      match others with
      | [] => throw .indexOutOfRange
      | (otherKey, other) :: others =>
          if key == otherKey then
            if ← same child other then t.sameChildren u same p keys others else return false
          else return false

/-- The trees from two positions on describe the same game down to a depth. -/
def same (t u : Tree ω σ) : Nat → t.Position → u.Position → Run σ Bool
  | 0, p, q => (t.node p).agree (u.node q)
  | depth + 1, p, q => do
      if ← (t.node p).agree (u.node q) then
        let others ← u.children q
        t.sameChildren u (t.same u depth) p (t.node p).keys others
      else return false

end Tree

end ExtensiveForm
