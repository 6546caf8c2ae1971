import ExtensiveForm.Number.Shortest

/-!
# Writing and reading doubles

A double is written with its shortest decimal: in positional form as long as its leading digit
stands at most four places after the point and at most sixteen before it, and otherwise with an
exponent of a sign and at least two digits. Positional form always shows a digit after the point.
-/

namespace ExtensiveForm

namespace Decimal

/-- The decimal digits of a whole number. -/
def digitsOf (n : Nat) : List Char :=
  Nat.toDigits 10 n

/-- The exponent of ten, with its sign and at least two digits. -/
def exponentText (e : Int) : List Char :=
  let digits := digitsOf e.natAbs
  let padded := if digits.length < 2 then '0' :: digits else digits
  (if e < 0 then '-' else '+') :: padded

/-- The text of the decimal whose digits, read after a point, are to be shifted left by `k`
places. -/
def layout (digits : List Char) (k : Int) : List Char :=
  if -4 < k ∧ k ≤ 16 then
    if k ≤ 0 then '0' :: '.' :: List.replicate (-k).toNat '0' ++ digits
    else if digits.length ≤ k.toNat then
      digits ++ List.replicate (k.toNat - digits.length) '0' ++ ['.', '0']
    else digits.take k.toNat ++ '.' :: digits.drop k.toNat
  else
    let fraction := if digits.length ≤ 1 then [] else '.' :: digits.drop 1
    digits.take 1 ++ fraction ++ 'e' :: exponentText (k - 1)

/-- The text of a decimal. -/
def render (d : Decimal) : List Char :=
  let digits := digitsOf d.digits
  if d.digits = 0 then layout digits 1 else layout digits (d.exponent + digits.length)

end Decimal

/-- The text of a double. -/
def Double.render : Double → List Char
  | .finite negative mantissa exponent =>
      let text := (Decimal.shortest mantissa exponent).render
      if negative then '-' :: text else text
  | .infinite negative => if negative then "-inf".toList else "inf".toList
  | .undefined => "nan".toList

/-- The text of a double. -/
def renderFloat (x : Float) : String :=
  String.ofList (Double.ofFloat x).render

namespace Decimal

/-- The value of a run of digits, if it is one and has at least one digit. -/
def natOfDigits? (digits : List Char) : Option Nat :=
  if digits ≠ [] ∧ digits.all Char.isDigit then
    some (digits.foldl (fun n c => 10 * n + (c.toNat - '0'.toNat)) 0)
  else none

/-- A sign in front of a text, if there is one, and what follows. -/
def unsigned : List Char → Bool × List Char
  | '-' :: rest => (true, rest)
  | '+' :: rest => (false, rest)
  | text => (false, text)

/-- The exponent written in this text: a sign and digits. -/
def exponent? (text : List Char) : Option Int :=
  let (negative, digits) := unsigned text
  (natOfDigits? digits).map fun n => if negative then -(n : Int) else n

/-- The decimal written in this text, without a sign: digits, perhaps with a point among them, and
perhaps an exponent. -/
def ofText? (text : List Char) : Option Decimal :=
  let isMark := fun c => c == 'e' || c == 'E'
  let mantissa := text.takeWhile (!isMark ·)
  let whole := mantissa.takeWhile (· != '.')
  let fraction := (mantissa.dropWhile (· != '.')).drop 1
  let exponent :=
    match text.dropWhile (!isMark ·) with
    | [] => some 0
    | _ :: rest => exponent? rest
  match natOfDigits? (whole ++ fraction), exponent with
  | some digits, some e => some ⟨digits, e - fraction.length⟩
  | _, _ => none

/-- The double nearest to a decimal, of two equally near ones the even one. Magnitudes far outside
the doubles are told by the place of their leading digit alone. -/
def toFloat (d : Decimal) : Float :=
  let size := d.exponent + (digitsOf d.digits).length
  if d.digits = 0 ∨ size < -400 then 0
  else if 400 < size then Float.ofBits 0x7FF0000000000000
  else Float.ofScientific d.digits (decide (d.exponent < 0)) d.exponent.natAbs

end Decimal

/-- The double nearest to the number in this text, of two equally near ones the even one. -/
def readFloat? (text : String) : Option Float :=
  let (negative, magnitude) := Decimal.unsigned text.toList
  let read : Option Float :=
    match String.ofList (magnitude.map Char.toLower) with
    | "inf" | "infinity" => some (Float.ofBits 0x7FF0000000000000)
    | "nan" => some (Float.ofBits 0x7FF8000000000000)
    | _ => (Decimal.ofText? magnitude).map Decimal.toFloat
  read.map fun x => if negative then -x else x

end ExtensiveForm
