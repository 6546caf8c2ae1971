import ExtensiveForm.Random.Distribution
import ExtensiveForm.Value.Arithmetic
import ExtensiveForm.Text.Numeral

/-!
# Weights given as values

A weight may be given as a whole number, a double, or the text of a number. The text may hold the
digits of any script, and underscores between digits.
-/

namespace ExtensiveForm

/-- The double that a value weighs. -/
def Value.weight (v : Value) : Except Fault Float :=
  match v.plain with
  | .double x => .ok x
  | .text s =>
      match (plainNumeral? s.toList).bind fun text => readFloat? (String.ofList text) with
      | some x => .ok x
      | none => .error .badArgument
  | v =>
      match v.whole? with
      | some n => Value.toDouble n
      | none => .error .wrongType

namespace Distribution

/-- The distribution of values with their weights. -/
def ofPairs (pairs : List (Value × Value)) : Except Fault (Distribution Float) := do
  if pairs.isEmpty then throw (.refused .emptyDistribution)
  ofWeights (← pairs.mapM fun (v, weight) => return (v, ← weight.weight))

/-- The distribution of values whose weights stand at the same places of another list. -/
def ofParallel (elements weights : List Value) : Except Fault (Distribution Float) :=
  if elements.length = weights.length then ofPairs (elements.zip weights)
  else .error (.refused (.unpairedWeights elements.length weights.length))

end Distribution

end ExtensiveForm
