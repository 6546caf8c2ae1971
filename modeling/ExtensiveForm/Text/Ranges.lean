/-!
# Ranges of code points

A property of characters is given by closed ranges of code points, ascending and apart.
-/

namespace ExtensiveForm

/-- The code point lies in one of the closed ranges. -/
def inRanges (ranges : List (Nat × Nat)) (codePoint : Nat) : Bool :=
  ranges.any fun (low, high) => low ≤ codePoint && codePoint ≤ high

end ExtensiveForm
