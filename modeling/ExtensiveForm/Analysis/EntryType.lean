import ExtensiveForm.Number.Word
import ExtensiveForm.Value.Arithmetic

/-!
# Types of entries

The entries of a column are of one type, which is that of the first entry that is not missing. In a
column of doubles a whole number becomes the double next to it, and truth values become one and zero
in columns of numbers. Whole numbers are kept in 64 bits with a sign, or if that does not do for all
of them, without a sign. Otherwise they have to fit the word that the first of them needs. Members
of sequences are read as members of the first sequence wherever they can be. Any other mixture is
refused.
-/

namespace ExtensiveForm

/-- What the entries of a column are, as far as they are there. -/
inductive EntryType where
  | nothing
  | truth
  | whole (word : Word)
  | double
  | text
  | sequence (members : EntryType)
  deriving DecidableEq

namespace EntryType

/-- The type tells what an entry is made of in the end. -/
def isKnown : EntryType → Bool
  | .nothing => false
  | .sequence members => members.isKnown
  | _ => true

/-- The entries can be added. -/
def isSummable : EntryType → Bool
  | .text | .sequence _ => false
  | _ => true

/-- Entries of this type can be put below entries of another one: entries that are not there can be
put below any. -/
def goesBelow : EntryType → EntryType → Bool
  | .nothing, _ => true
  | .sequence s, .sequence t => s.goesBelow t
  | s, t => decide (s = t)

/-- The type that members of both types can be read as. -/
def blend? : EntryType → EntryType → Option EntryType
  | .nothing, t | t, .nothing => some t
  | .sequence s, .sequence t => (blend? s t).map .sequence
  | .sequence _, _ | _, .sequence _ => none
  | .text, _ | _, .text => some .text
  | .double, _ | _, .double => some .double
  | .whole v, .whole w => (v.wider? w).map .whole
  | .whole w, .truth | .truth, .whole w => some (.whole w)
  | .truth, .truth => some .truth

/-- The type of entries of both types, if they go together as they are. -/
def join? : EntryType → EntryType → Option EntryType
  | .nothing, t | t, .nothing => some t
  | .sequence s, .sequence t => (blend? s t).map .sequence
  | .whole v, .whole w => (v.wider? w).map .whole
  | s, t => if s = t then some s else none

mutual

/-- The type of an entry. -/
def ofValue : Value → Except Fault EntryType
  | .null => .ok .nothing
  | .bool _ => .ok .truth
  | .int n => (Word.of? n).elim (.error .overflow) fun word => .ok (.whole word)
  | .double _ | .undefined _ => .ok .double
  | .text _ => .ok .text
  | .tuple members => do return .sequence (← ofMembers members)
  | _ => .error .wrongType
termination_by structural v => v

/-- The type of all members of an entry. -/
def ofMembers : List Value → Except Fault EntryType
  | [] => .ok .nothing
  | v :: rest => do
      let first ← ofValue v
      let others ← ofMembers rest
      (join? first others).elim (.error .wrongType) .ok
termination_by structural vs => vs

end

/-- A truth value as an entry of this type. -/
def ofTruth (b : Bool) : EntryType → Except Fault Value
  | .truth => .ok (.bool b)
  | .whole _ => .ok (.int (if b then 1 else 0))
  | .double => .ok (.double (if b then 1 else 0))
  | .text => .ok (.text (if b then "true" else "false"))
  | _ => .error .wrongType

/-- A whole number as an entry of this type. -/
def ofWhole (n : Int) : EntryType → Except Fault Value
  | .truth => .ok (.bool (n != 0))
  | .whole word => if word.holds n then .ok (.int n) else .error .wrongType
  | .double => do return .double (← Value.toDouble n)
  | .text => .ok (.text (toString n))
  | _ => .error .wrongType

/-- A double as an entry of this type. A whole number is what is left without the fraction. -/
def ofDouble (x : Float) : EntryType → Except Fault Value
  | .truth => .ok (.bool (x != 0))
  | .whole word =>
      match Double.ofFloat x with
      | .finite negative mantissa exponent =>
          let magnitude := ((mantissa : Rat) * twoPow exponent).floor
          ofWhole (if negative then -magnitude else magnitude) (.whole word)
      | _ => .error .wrongType
  | .double => .ok (.double x)
  | .text => .ok (.text (renderFloat x))
  | _ => .error .wrongType

mutual

/-- A value read as an entry of this type. -/
def read (type : EntryType) : Value → Except Fault Value
  | .null => .ok .null
  | .bool b => type.ofTruth b
  | .int n => type.ofWhole n
  | .double x => type.ofDouble x
  | .undefined _ => type.ofDouble (0 / 0)
  | .text s => if type = .text then .ok (.text s) else .error .wrongType
  | .tuple members =>
      match type with
      | .sequence memberType => return .tuple (← readAll memberType members)
      | _ => .error .wrongType
  | _ => .error .wrongType
termination_by structural v => v

/-- Some values read as entries of this type. -/
def readAll (type : EntryType) : List Value → Except Fault (List Value)
  | [] => .ok []
  | v :: rest => do
      let entry ← read type v
      return entry :: (← readAll type rest)
termination_by structural vs => vs

end

/-- A column of this type takes the value. Truth values are taken for numbers in 64 bits and for
doubles, and whole numbers for doubles. -/
def takes (type : EntryType) (v : Value) : Bool :=
  match v with
  | .null => true
  | .bool _ =>
      match type with
      | .truth | .double => true
      | .whole word => word.bits == 64
      | _ => false
  | .int _ =>
      match type with
      | .whole _ | .double => true
      | _ => false
  | v => decide ((ofValue v).toOption.map (·.ctorIdx) = some type.ctorIdx)

/-- The value is missing, or a number that the word can hold. -/
def suits (word : Word) : Value → Bool
  | .null => true
  | v => v.whole?.any word.holds

/-- The type of a column of these values. -/
def ofColumn (vs : List Value) : Except Fault EntryType := do
  let isKnownHere := fun v => ((ofValue v).map isKnown).toOption.getD true
  match vs.find? isKnownHere with
  | none => ofMembers vs
  | some v =>
      match ← ofValue v with
      | .whole word => return .whole ((Word.narrow.find? fun w => vs.all (suits w)).getD word)
      | type => return type

/-- A value as an entry of a column of this type. -/
def fit (type : EntryType) (v : Value) : Except Fault Value :=
  if type.takes v then type.read v else .error .wrongType

end EntryType

end ExtensiveForm
