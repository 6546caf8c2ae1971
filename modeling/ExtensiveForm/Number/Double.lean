/-!
# Doubles taken apart

A double is a sign, a whole mantissa and a power of two, or else an infinity or not a number at
all. Everything exact that is said about doubles starts from `Double.ofFloat`.
-/

namespace ExtensiveForm

/-- A double by its parts. The magnitude of a finite one is `mantissa * 2 ^ exponent`. -/
inductive Double where
  | finite (negative : Bool) (mantissa : Nat) (exponent : Int)
  | infinite (negative : Bool)
  | undefined
  deriving DecidableEq

namespace Double

/-- The parts of a double, read off its bits. Zero exponent bits stand for the smallest exponent
without the leading bit of the mantissa, and all ones for an infinity or no number. -/
def ofFloat (x : Float) : Double :=
  let bits := x.toBits.toNat
  let negative := decide (Nat.pow 2 63 ≤ bits)
  let scale : Nat := bits / Nat.pow 2 52 % Nat.pow 2 11
  let fraction : Nat := bits % Nat.pow 2 52
  if scale = 2047 then
    if fraction = 0 then .infinite negative else .undefined
  else if scale = 0 then .finite negative fraction (-1074)
  else .finite negative (Nat.pow 2 52 + fraction) (scale - 1075)

end Double

/-- The rational number `2 ^ e`. -/
def twoPow (e : Int) : Rat :=
  if 0 ≤ e then (Nat.pow 2 e.toNat : Rat) else mkRat 1 (Nat.pow 2 (-e).toNat)

/-- The rational number `10 ^ e`. -/
def tenPow (e : Int) : Rat :=
  if 0 ≤ e then (Nat.pow 10 e.toNat : Rat) else mkRat 1 (Nat.pow 10 (-e).toNat)

end ExtensiveForm
