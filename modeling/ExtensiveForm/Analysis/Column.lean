import ExtensiveForm.Analysis.EntryType

/-!
# Columns of a sheet

Entries of one type, some of which may be missing. Sums, means and bounds are taken over the entries
that are there.
-/

namespace ExtensiveForm

/-- Entries of one type, `null` for a missing one. -/
structure Column where
  type : EntryType
  entries : List Value

namespace Column

/-- The column of some values. What is wrong with a single value is told before values of unlike
types. -/
def ofValues (vs : List Value) : Except Fault Column :=
  let column : Except Fault Column := do
    let type ← EntryType.ofColumn vs
    return ⟨type, ← vs.mapM type.fit⟩
  match column with
  | .ok c => .ok c
  | .error fault => do
      let _ ← vs.mapM EntryType.ofValue
      .error fault

/-- The entries as whole numbers. -/
def wholes (c : Column) : List Int :=
  c.entries.filterMap Value.whole?

/-- The entries as doubles. -/
def doubles (c : Column) : List Float :=
  c.entries.filterMap fun
    | .double x => some x
    | v => v.whole?.map Float.ofInt

/-- The sum of the entries as doubles, from the first one on. A single entry is left as it is. -/
def sumDoubles (c : Column) : Float :=
  match c.entries.length, c.doubles with
  | 1, [x] => x
  | _, xs => xs.foldl (· + ·) 0

/-- The sum of a column. Whole numbers of some width have a sum of the same width. -/
def total (c : Column) : Value :=
  let exact := c.wholes.foldl (· + ·) 0
  match c.type with
  | .truth => .int exact
  | .whole word => .int (word.wrap exact)
  | .double => .double c.sumDoubles
  | _ => .null

/-- The share that each entry has of the sum. -/
def mean (c : Column) : Value :=
  match c.doubles.length with
  | 0 => .null
  | n => .double (c.sumDoubles / Float.ofNat n)

/-- The smaller one of two entries. What is no number is smaller than none. -/
def lower (a b : Value) : Value :=
  match a, b with
  | .bool p, .bool q => .bool (p && q)
  | .int m, .int n => .int (min m n)
  | .double x, .double y => .double (if y < x || x.isNaN then y else x)
  | a, _ => a

/-- The greater one of two entries. What is no number is greater than none. -/
def higher (a b : Value) : Value :=
  match a, b with
  | .bool p, .bool q => .bool (p || q)
  | .int m, .int n => .int (max m n)
  | .double x, .double y => .double (if x < y || x.isNaN then y else x)
  | a, _ => a

/-- What is left of the entries when any two of them give one. -/
def reduce (pick : Value → Value → Value) (c : Column) : Value :=
  let isThere := fun
    | Value.null => false
    | _ => true
  match c.entries.filter isThere with
  | [] => .null
  | v :: rest => rest.foldl pick v

/-- The least entry of a column. -/
def least (c : Column) : Value :=
  c.reduce lower

/-- The greatest entry of a column. -/
def greatest (c : Column) : Value :=
  c.reduce higher

/-- The sum of one column is at least that of another one of the same type. What is no number comes
above all numbers. -/
def totalAtLeast (c d : Column) : Bool :=
  match c.total, d.total with
  | .int m, .int n => decide (n ≤ m)
  | .double x, .double y => decide (y ≤ x) || x.isNaN
  | _, _ => true

end Column

end ExtensiveForm
