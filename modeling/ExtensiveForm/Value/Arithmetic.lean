import ExtensiveForm.Value.Equality
import ExtensiveForm.Value.Sequence

/-!
# Arithmetic on values

Whole numbers are added exactly, and truth values count as one and zero. If one number is a double,
the other is first rounded to the nearest double. Texts, tuples and lists are joined, payoffs are
added utility by utility, and any other mixture is refused.
-/

namespace ExtensiveForm

namespace Value

/-- The double nearest to a whole number, of two equally near ones the even one. -/
def toDouble (n : Int) : Except Fault Float :=
  let x := Float.ofInt n
  if x.isInf then .error .overflow else .ok x

/-- The value without its mark: what is no number becomes a double like any other. -/
def plain : Value → Value
  | .undefined _ => .double (0 / 0)
  | v => v

/-- An operation on two numbers, given for whole numbers and for doubles. -/
def numeric (exact : Int → Int → Int) (rounded : Float → Float → Float) (a b : Value) :
    Except Fault Value :=
  match a.plain, b.plain with
  | .double x, .double y => .ok (.double (rounded x y))
  | .double x, b =>
      match b.whole? with
      | some n => do return .double (rounded x (← toDouble n))
      | none => .error .wrongType
  | a, .double y =>
      match a.whole? with
      | some m => do return .double (rounded (← toDouble m) y)
      | none => .error .wrongType
  | a, b =>
      match a.whole?, b.whole? with
      | some m, some n => .ok (.int (exact m n))
      | _, _ => .error .wrongType

end Value

mutual

/-- The sum of two values. -/
def Value.add : Value → Value → Except Fault Value
  | .payoff p, b => do return .payoff (← p.add b)
  | .text s, b =>
      match b with
      | .text t => .ok (.text (s ++ t))
      | _ => .error .wrongType
  | .tuple xs, b =>
      match b with
      | .tuple ys => .ok (.tuple (xs ++ ys))
      | _ => .error .wrongType
  | .list xs, b =>
      match b with
      | .list ys => .ok (.list (xs ++ ys))
      | _ => .error .wrongType
  | a, b => Value.numeric (· + ·) (· + ·) a b
termination_by structural a => a

/-- The sum, utility by utility, of a payoff and what has as many members. -/
def Payoff.add : Payoff → Value → Except Fault Payoff
  | ⟨values⟩, b => do
      let others ← b.items
      if values.length = others.length then
        return ⟨← Value.addAll values others⟩
      else .error (.refused (.payoffSizes values.length others.length))
termination_by structural p => p

/-- The sums of the values that stand at the same place. -/
def Value.addAll : List Value → List Value → Except Fault (List Value)
  | a :: as, b :: bs => do
      let c ← a.add b
      return c :: (← Value.addAll as bs)
  | _, _ => .ok []
termination_by structural as => as

end

namespace Value

/-- The difference of two numbers. -/
def sub (a b : Value) : Except Fault Value :=
  numeric (· - ·) (· - ·) a b

/-- The members of a sequence, so many times in a row. -/
def copies {α : Type} (xs : List α) (count : Int) : List α :=
  (List.replicate count.toNat xs).flatten

/-- The product of two numbers, or of a sequence and a whole number. -/
def mul (a b : Value) : Except Fault Value :=
  match a, b with
  | .text s, b =>
      match b.whole? with
      | some n => .ok (.text (String.ofList (copies s.toList n)))
      | none => .error .wrongType
  | .tuple xs, b =>
      match b.whole? with
      | some n => .ok (.tuple (copies xs n))
      | none => .error .wrongType
  | a, .text s =>
      match a.whole? with
      | some n => .ok (.text (String.ofList (copies s.toList n)))
      | none => .error .wrongType
  | a, .tuple xs =>
      match a.whole? with
      | some n => .ok (.tuple (copies xs n))
      | none => .error .wrongType
  | a, b => numeric (· * ·) (· * ·) a b

/-- The negation of a number. -/
def neg (v : Value) : Except Fault Value :=
  match v.plain with
  | .double x => .ok (.double (-x))
  | v =>
      match v.whole? with
      | some n => .ok (.int (-n))
      | none => .error .wrongType

/-- The sum of some values, added from left to right to the whole number zero. -/
def sum (vs : List Value) : Except Fault Value :=
  vs.foldlM add (.int 0)

end Value

end ExtensiveForm
