import ExtensiveForm.Text.Ranges

/-!
# Numbers in a text

A number may be written with the decimal digits of any script, with single underscores between
digits, with a sign in front, and with blanks around it. Main definitions: `readInt?` for whole
numbers, and `plainNumeral?`, which leaves a number in ASCII digits and without underscores.
-/

namespace ExtensiveForm

/-- The blank code points: the white space of the character database and the four separators of
records. -/
def blankRanges : List (Nat × Nat) :=
  [(0x09, 0x0D), (0x1C, 0x20), (0x85, 0x85), (0xA0, 0xA0), (0x1680, 0x1680), (0x2000, 0x200A),
   (0x2028, 0x2029), (0x202F, 0x202F), (0x205F, 0x205F), (0x3000, 0x3000)]

/-- The character is blank. -/
def isBlank (c : Char) : Bool :=
  inRanges blankRanges c.toNat

/-- A text without the blanks at its start and at its end. -/
def trimBlanks (text : List Char) : List Char :=
  ((text.dropWhile isBlank).reverse.dropWhile isBlank).reverse

/-- The zeros of the decimal digits: the digits of each script follow their zero in order. -/
def digitZeros : List Nat :=
  [0x30, 0x660, 0x6F0, 0x7C0, 0x966, 0x9E6, 0xA66, 0xAE6, 0xB66, 0xBE6, 0xC66, 0xCE6, 0xD66,
   0xDE6, 0xE50, 0xED0, 0xF20, 0x1040, 0x1090, 0x17E0, 0x1810, 0x1946, 0x19D0, 0x1A80, 0x1A90,
   0x1B50, 0x1BB0, 0x1C40, 0x1C50, 0xA620, 0xA8D0, 0xA900, 0xA9D0, 0xA9F0, 0xAA50, 0xABF0, 0xFF10,
   0x104A0, 0x10D30, 0x11066, 0x110F0, 0x11136, 0x111D0, 0x112F0, 0x11450, 0x114D0, 0x11650,
   0x116C0, 0x11730, 0x118E0, 0x11950, 0x11C50, 0x11D50, 0x11DA0, 0x16A60, 0x16AC0, 0x16B50,
   0x1D7CE, 0x1D7D8, 0x1D7E2, 0x1D7EC, 0x1D7F6, 0x1E140, 0x1E2F0, 0x1E950, 0x1FBF0]

/-- The value of a decimal digit of any script. -/
def digitValue? (c : Char) : Option Nat :=
  (digitZeros.find? fun first => first ≤ c.toNat && c.toNat ≤ first + 9).map (c.toNat - ·)

/-- The digits of a whole number, where a single underscore may stand between two of them. -/
def digitValues? : List Char → Option (List Nat)
  | [] => none
  | [c] => (digitValue? c).map ([·])
  | c :: '_' :: rest => do
      let digit ← digitValue? c
      let digits ← digitValues? rest
      pure (digit :: digits)
  | c :: rest => do
      let digit ← digitValue? c
      let digits ← digitValues? rest
      pure (digit :: digits)

/-- The text with each digit as the ASCII digit of the same value, and without the underscores, each
of which has to stand between two digits. -/
def plainDigits? (afterDigit : Bool) : List Char → Option (List Char)
  | [] => some []
  | '_' :: rest =>
      match rest with
      | next :: _ =>
          if afterDigit && (digitValue? next).isSome then plainDigits? false rest else none
      | [] => none
  | c :: rest =>
      match digitValue? c with
      | some digit => (plainDigits? true rest).map (Char.ofNat ('0'.toNat + digit) :: ·)
      | none => (plainDigits? false rest).map (c :: ·)

/-- The character is one of the four separators of records. -/
def isSeparator (c : Char) : Bool :=
  decide (0x1C ≤ c.toNat) && decide (c.toNat ≤ 0x1F)

/-- The number that a text holds, in ASCII digits, without underscores and without the blanks around
it. Separators of records are no blanks here. -/
def plainNumeral? (text : List Char) : Option (List Char) :=
  if text.any isSeparator then none else plainDigits? false (trimBlanks text)

/-- The most digits that a whole number may be written with. -/
def maxDigits : Nat := 4300

/-- The whole number written in this text. -/
def readInt? (text : List Char) : Option Int :=
  let (negative, magnitude) :=
    match trimBlanks text with
    | '-' :: rest => (true, rest)
    | '+' :: rest => (false, rest)
    | rest => (false, rest)
  match digitValues? magnitude with
  | some digits =>
      if digits.length ≤ maxDigits then
        let n : Nat := digits.foldl (fun n digit => 10 * n + digit) 0
        some (if negative then -(n : Int) else n)
      else none
  | none => none

end ExtensiveForm
