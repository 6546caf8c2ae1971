import ExtensiveForm.Value.Form
import ExtensiveForm.Number.Exact

/-!
# Equality of values

Truth values are the numbers one and zero, and numbers are compared by the exact value they stand
for. Texts are equal only to texts, and groups only to groups of the same kind with parts that match
one by one.

Equality is no identity: `1` equals `1.0` and `true`, and what is no number equals nothing. Parts of
a group match already if they are alike: they are equal, or they are one given value that is no
number. So a tuple always equals itself, and a move is among the moves it was taken from.
-/

namespace ExtensiveForm

namespace Leaf

/-- The number that a leaf stands for, if it stands for one. -/
def number? : Leaf → Option Number
  | .bool b => some (.ofInt (if b then 1 else 0))
  | .int n => some (.ofInt n)
  | .double x => some (.ofFloat x)
  | .undefined _ => some .undefined
  | .null | .text _ => none

/-- Equality of leaves. -/
def same (a b : Leaf) : Bool :=
  match a.number?, b.number? with
  | some m, some n => m.same n
  | none, none =>
      match a, b with
      | .null, .null => true
      | .text s, .text t => s == t
      | _, _ => false
  | _, _ => false

/-- Two leaves match as parts: they are equal, or they have one mark. -/
def alike (a b : Leaf) : Bool :=
  match a, b with
  | .undefined m, .undefined n => m == n
  | a, b => a.same b

end Leaf

namespace Form

mutual

/-- Two forms match as parts. -/
def alike : Form → Form → Bool
  | .leaf a, .leaf b => a.alike b
  | .group k ps, .group l qs => decide (k = l) && allAlike ps qs
  | _, _ => false
termination_by structural f => f

/-- Forms match one by one. -/
def allAlike : List Form → List Form → Bool
  | [], [] => true
  | f :: fs, g :: gs => f.alike g && allAlike fs gs
  | _, _ => false
termination_by structural fs => fs

end

/-- Equality of forms. -/
def same : Form → Form → Bool
  | .leaf a, .leaf b => a.same b
  | f, g => f.alike g

end Form

instance : BEq Value := ⟨fun a b => a.form.same b.form⟩
instance : BEq Payoff := ⟨fun a b => a.form.same b.form⟩
instance : BEq Profile := ⟨fun a b => a.form.same b.form⟩
instance : BEq Ply := ⟨fun a b => a.form.same b.form⟩
instance : BEq Transcript := ⟨fun a b => a.form.same b.form⟩
instance : BEq Outcome := ⟨fun a b => a.form.same b.form⟩
instance : BEq History := ⟨fun a b => a.form.same b.form⟩
instance : BEq RoundState := ⟨fun a b => a.form.same b.form⟩
instance : BEq Scope := ⟨fun a b => a.form.same b.form⟩

namespace Value

/-- The number that a value stands for, if it stands for one. -/
def number? : Value → Option Number
  | .bool b => some (.ofInt (if b then 1 else 0))
  | .int n => some (.ofInt n)
  | .double x => some (.ofFloat x)
  | .undefined _ => some .undefined
  | _ => none

/-- Two values match as parts of a group, as keys of a table or as players: they are equal, or they
are one given value that is no number. -/
def alike (a b : Value) : Bool :=
  a.form.alike b.form

/-- A value is one of some values. -/
def isAmong (v : Value) (vs : List Value) : Bool :=
  vs.any v.alike

/-- Whole numbers are equal as values when they are the same number. -/
theorem int_beq (m n : Int) : (Value.int m == Value.int n) = decide (m = n) := by
  show (Number.ofInt m).same (Number.ofInt n) = decide (m = n)
  simp [Number.same, Number.ofInt]

/-- Whole numbers match when they are the same number. -/
theorem int_alike (m n : Int) : (Value.int m).alike (.int n) = decide (m = n) :=
  int_beq m n

/-- The whole number that a value is, a truth value being one or zero. -/
def whole? : Value → Option Int
  | .bool b => some (if b then 1 else 0)
  | .int n => some n
  | _ => none

/-- A value counts as true unless it is nothing, false, zero or empty. -/
def truthy : Value → Bool
  | .null => false
  | .bool b => b
  | .int n => n != 0
  | .double x => x != 0
  | .text s => s != ""
  | .tuple items | .list items => !items.isEmpty
  | .payoff p => !p.values.isEmpty
  | .profile p => !p.moves.isEmpty
  | .transcript t => !t.latestFirst.isEmpty
  | .history h => !h.latestFirst.isEmpty
  | .undefined _ | .ply _ | .outcome _ | .roundState _ | .scope _ => true

end Value

end ExtensiveForm
