import ExtensiveForm.Number.Double

/-!
# Numbers by their exact value

Whole numbers and doubles are compared by the number they stand for and not by rounding one to the
type of the other, so a large whole number differs from the double next to it.
-/

namespace ExtensiveForm

/-- What a number stands for. -/
inductive Number where
  | finite (q : Rat)
  | infinite (negative : Bool)
  | undefined
  deriving DecidableEq

namespace Number

/-- The number that a double stands for. Both zeros stand for zero. -/
def ofDouble : Double → Number
  | .finite negative mantissa exponent =>
      let magnitude := (mantissa : Rat) * twoPow exponent
      .finite (if negative then -magnitude else magnitude)
  | .infinite negative => .infinite negative
  | .undefined => .undefined

/-- The number that a double stands for. -/
def ofFloat (x : Float) : Number :=
  ofDouble (Double.ofFloat x)

/-- The number that a whole number stands for. -/
def ofInt (n : Int) : Number :=
  .finite n

/-- Two numbers are the same when they stand for the same value. What is no number is the same as
nothing, not even as itself. -/
def same (a b : Number) : Bool :=
  decide (a ≠ .undefined) && decide (a = b)

/-- One number lies strictly below the other. What is no number lies below nothing. -/
def below : Number → Number → Bool
  | .finite a, .finite b => decide (a < b)
  | .finite _, .infinite negative => !negative
  | .infinite negative, .finite _ => negative
  | .infinite a, .infinite b => a && !b
  | _, _ => false

/-- One number lies below the other or is the same. -/
def atMost (a b : Number) : Bool :=
  below a b || same a b

end Number

end ExtensiveForm
