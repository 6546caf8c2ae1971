import ExtensiveForm.Fault

/-!
# Scales

Weights and probabilities are measured on a scale: doubles when a game is played, and exact
rational numbers where the laws of probability are to hold without rounding.
-/

namespace ExtensiveForm

/-- Numbers that can serve as weights and probabilities. -/
class Scale (ω : Type) extends Zero ω, One ω, Add ω, Div ω, LE ω, LT ω, BEq ω where
  decidableLE : DecidableLE ω
  decidableLT : DecidableLT ω
  isFinite : ω → Bool
  /-- The sum of some weights. -/
  total : List ω → ω
  /-- The quotient of two whole numbers. -/
  ratio : Nat → Nat → ω
  /-- The value that shows a weight in a message. -/
  toValue : ω → Value

attribute [reducible, instance] Scale.decidableLE Scale.decidableLT

/-- The sum from left to right. -/
def sumInOrder (xs : List Float) : Float :=
  match xs with
  | [] => 0
  | x :: rest => rest.foldl (· + ·) x

/-- The first eight of the numbers, each added to what its lane holds so far. -/
def addLanes (lanes block : List Float) : List Float :=
  List.zipWith (· + ·) lanes block

/-- The sum of at least eight numbers in eight lanes, which are joined in pairs at the end. The
numbers left over by the last full round of lanes are added one by one. -/
def sumInLanes (lanes : List Float) : Nat → List Float → Float
  | rounds + 1, xs =>
      if xs.length < 8 then sumInLanes lanes 0 xs
      else sumInLanes (addLanes lanes (xs.take 8)) rounds (xs.drop 8)
  | 0, rest =>
      match lanes with
      | [a, b, c, d, e, f, g, h] =>
          rest.foldl (· + ·) (((a + b) + (c + d)) + ((e + f) + (g + h)))
      | _ => 0

/-- The sum of doubles by halves: up to 128 numbers are added in lanes, and more are split near the
middle at a multiple of eight. -/
def sumByHalves (xs : List Float) : Float :=
  if xs.length < 8 then sumInOrder xs
  else if _h : xs.length ≤ 128 then sumInLanes (xs.take 8) xs.length (xs.drop 8)
  else
    let half := xs.length / 2 - xs.length / 2 % 8
    sumByHalves (xs.take half) + sumByHalves (xs.drop half)
termination_by xs.length
decreasing_by
  · simp only [List.length_take]; omega
  · simp only [List.length_drop]; omega

/-- Doubles as they are used in play. Their sum is taken by halves, which keeps the rounding
small. -/
instance : Scale Float where
  zero := 0
  one := 1
  decidableLE := inferInstance
  decidableLT := inferInstance
  isFinite := Float.isFinite
  total := sumByHalves
  ratio m n := Float.ofNat m / Float.ofNat n
  toValue := .double

/-- Exact rational numbers. -/
instance : Scale Rat where
  zero := 0
  one := 1
  decidableLE := inferInstance
  decidableLT := inferInstance
  isFinite _ := true
  total ws := ws.foldl (· + ·) 0
  ratio m n := mkRat m n
  toValue q := .tuple [.int q.num, .int q.den]

end ExtensiveForm
