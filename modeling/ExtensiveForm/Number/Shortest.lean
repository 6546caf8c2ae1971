import ExtensiveForm.Number.Double

/-!
# The shortest decimal of a double

A double stands for every real number that rounds to it. `Decimal.shortest` finds, among the
decimals in that range, one with the fewest digits, and of those the one nearest to the double.
The search runs over one grid after another: on the grid of `n` digits only the two neighbours of
the double can lie in the range, if any decimal of `n` digits does.
-/

namespace ExtensiveForm

/-- A decimal `digits * 10 ^ exponent`. -/
structure Decimal where
  digits : Nat
  exponent : Int
  deriving DecidableEq

namespace Decimal

/-- The number that a decimal stands for. -/
def toRat (d : Decimal) : Rat :=
  d.digits * tenPow d.exponent

/-- The magnitude `mantissa * 2 ^ exponent` of a double. -/
def magnitude (mantissa : Nat) (exponent : Int) : Rat :=
  mantissa * twoPow exponent

/-- A decimal reads back as the double: it lies within half a unit of the last place of it. The
unit below a power of two is half as large, and the ends belong to even mantissas. -/
def readsBack (mantissa : Nat) (exponent : Int) (d : Decimal) : Bool :=
  let narrow := decide (mantissa = Nat.pow 2 52 ∧ -1074 < exponent)
  let quarter := twoPow (exponent - 2)
  let low := ((4 * mantissa : Nat) : Rat) * quarter - (if narrow then 1 else 2) * quarter
  let high := ((4 * mantissa : Nat) : Rat) * quarter + 2 * quarter
  if mantissa % 2 = 0 then decide (low ≤ d.toRat ∧ d.toRat ≤ high)
  else decide (low < d.toRat ∧ d.toRat < high)

/-- The least `k` with `q < 10 ^ k`, for a positive `q`: the numbers of digits of its two parts
leave two candidates. -/
def scale (q : Rat) : Int :=
  let k : Int := (Nat.toDigits 10 q.num.natAbs).length - (Nat.toDigits 10 q.den).length
  if q < tenPow k then k else k + 1

/-- The decimal on the grid of step `10 ^ e` that reads back as the double and is nearest to it, if
there is one. Of two equally near ones the even one is taken. -/
def onGrid (mantissa : Nat) (exponent e : Int) : Option Decimal :=
  let q := magnitude mantissa exponent
  let step := tenPow e
  let below := (q / step).floor.toNat
  let lower : Decimal := ⟨below, e⟩
  let upper : Decimal := ⟨below + 1, e⟩
  match readsBack mantissa exponent lower, readsBack mantissa exponent upper with
  | true, false => some lower
  | false, true => some upper
  | false, false => none
  | true, true =>
      let middle := lower.toRat + upper.toRat
      if 2 * q < middle then some lower
      else if middle < 2 * q then some upper
      else if below % 2 = 0 then some lower
      else some upper

/-- Moves zeros at the end of the digits into the exponent. -/
def trimmed : Nat → Decimal → Decimal
  | 0, d => d
  | fuel + 1, d =>
      if d.digits ≠ 0 ∧ d.digits % 10 = 0 then trimmed fuel ⟨d.digits / 10, d.exponent + 1⟩ else d

/-- The shortest decimal of the double with this mantissa and exponent. Seventeen digits tell any
two doubles apart, so the exact value, which ends the search, is never reached by one. -/
def shortest (mantissa : Nat) (exponent : Int) : Decimal :=
  if mantissa = 0 then ⟨0, 0⟩
  else
    let k := scale (magnitude mantissa exponent)
    let exact : Decimal :=
      if 0 ≤ exponent then ⟨mantissa * Nat.pow 2 exponent.toNat, 0⟩
      else ⟨mantissa * Nat.pow 5 (-exponent).toNat, exponent⟩
    let found := (List.range 17).findSome? fun (n : Nat) => onGrid mantissa exponent (k - (n + 1))
    trimmed 20 (found.getD exact)

end Decimal

end ExtensiveForm
