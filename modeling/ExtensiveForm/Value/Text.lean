import ExtensiveForm.Value.Form
import ExtensiveForm.Number.Notation
import ExtensiveForm.Text.Numeral
import ExtensiveForm.Text.Quoted

/-!
# The text of a value

`Value.literal` writes a value so that it can be told from any other one: texts are quoted, and a
group shows its kind. `Value.display` is the same but for a text, which it leaves as it is. A value
is not to be written if a whole number in it has more than `maxDigits` digits.
-/

namespace ExtensiveForm

/-- Parts with commas between them. -/
def commaSeparated (parts : List String) : String :=
  ", ".intercalate parts

/-- Parts in round brackets, with a comma behind a single one. -/
def tupleText : List String → String
  | [part] => "(" ++ part ++ ",)"
  | parts => "(" ++ commaSeparated parts ++ ")"

/-- Parts in square brackets. -/
def listText (parts : List String) : String :=
  "[" ++ commaSeparated parts ++ "]"

/-- Named parts behind the name of what they belong to. -/
def recordText (name : String) (fields parts : List String) : String :=
  name ++ "(" ++ commaSeparated (List.zipWith (fun field part => field ++ "=" ++ part) fields parts)
    ++ ")"

/-- The text of a leaf. -/
def Leaf.literal : Leaf → String
  | .null => "None"
  | .bool b => if b then "True" else "False"
  | .int n => toString n
  | .double x => renderFloat x
  | .undefined _ => "nan"
  | .text s => quoted s

-- Unfolding would have the bound evaluated.
/-- A whole number has no more digits than may be written. -/
@[irreducible] def isShort (n : Int) : Bool :=
  decide (n.natAbs < Nat.pow 10 maxDigits)

/-- A leaf may be written. -/
def Leaf.isWritable : Leaf → Bool
  | .int n => isShort n
  | _ => true

/-- The text of a group with these texts of its parts. -/
def Kind.literal (kind : Kind) (parts : List String) : String :=
  match kind with
  | .tuple => tupleText parts
  | .list => listText parts
  | .payoff => recordText "Payoff" ["values"] [tupleText parts]
  | .profile => recordText "MoveProfile" ["moves"] [tupleText parts]
  | .ply => recordText "Ply" ["player", "move"] parts
  | .transcript => "Transcript(" ++ listText parts ++ ")"
  | .outcome => recordText "Outcome" ["payoff", "profile", "transcript", "history"] parts
  | .history => "History(" ++ listText parts ++ ")"
  | .roundState => recordText "RepeatedState" ["history", "stage_state", "transcript"] parts
  | .scope => recordText "Scoped" ["label", "transcript", "round", "history"] parts

mutual

/-- The text of a form. -/
def Form.literal : Form → String
  | .leaf a => a.literal
  | .group kind parts => kind.literal (Form.literals parts)
termination_by structural f => f

/-- The texts of some forms, in order. -/
def Form.literals : List Form → List String
  | [] => []
  | f :: rest => f.literal :: Form.literals rest
termination_by structural fs => fs

end

mutual

/-- A form may be written. -/
def Form.isWritable : Form → Bool
  | .leaf a => a.isWritable
  | .group _ parts => Form.allWritable parts
termination_by structural f => f

/-- Some forms may be written. -/
def Form.allWritable : List Form → Bool
  | [] => true
  | f :: rest => f.isWritable && Form.allWritable rest
termination_by structural fs => fs

end

namespace Value

/-- The text of a value. -/
def literal (v : Value) : String :=
  v.form.literal

/-- A value may be written. -/
def isWritable (v : Value) : Bool :=
  v.form.isWritable

/-- A whole number of one digit may be written. -/
theorem isWritable_of_lt {n : Int} (h : n.natAbs < 10) : (int n).isWritable = true := by
  change isShort n = true
  have hpos : 0 < maxDigits := by decide
  unfold isShort
  generalize maxDigits = digits at hpos
  exact decide_eq_true (Nat.lt_of_lt_of_le h (Nat.le_pow hpos))

/-- The text of a value, without quotes if it is a text itself. -/
def display : Value → String
  | .text s => s
  | v => v.literal

/-- The text of some values in round brackets. -/
def tupleLiteral (vs : List Value) : String :=
  (Value.tuple vs).literal

/-- The text of some values in square brackets. -/
def listLiteral (vs : List Value) : String :=
  (Value.list vs).literal

end Value

end ExtensiveForm
