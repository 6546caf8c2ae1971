import ExtensiveForm.Fault
import ExtensiveForm.Text.Numeral

/-!
# Settings

Limits of a play, and settings that are read from a text. A setting that is not there or blank has
its default, and any other text has to be a whole number.
-/

namespace ExtensiveForm

/-- The most nodes that a play visits in one round unless it is told otherwise. -/
def defaultMaxDepth : Nat := 100000

/-- How many rounds are played when neither their number nor an end is given. -/
def defaultRepetitions : Nat := 10

/-- The most rounds that a repeated game may have. -/
def maxRepetitions : Nat := 1000000

/-- The whole number that a setting stands for. -/
def readSetting (name : String) (text : Option String) (default : Option Int) :
    Except Fault (Option Int) :=
  match trimBlanks (text.getD "").toList with
  | [] => .ok default
  | chars =>
      match readInt? chars with
      | some n => .ok (some n)
      | none => .error (.refused (.notWholeNumber name (String.ofList chars)))

end ExtensiveForm
