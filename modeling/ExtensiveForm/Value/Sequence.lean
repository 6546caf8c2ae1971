import ExtensiveForm.Fault
import ExtensiveForm.Value.Equality

/-!
# Values as sequences

Texts, tuples, lists and records of play have members in order. Places are counted from zero, and
negative places from the end.
-/

namespace ExtensiveForm

/-- The member at a place. There is none outside the sequence. -/
def atPlace? {α : Type} (xs : List α) (place : Int) : Option α :=
  if 0 ≤ place then xs[place.toNat]?
  else if -place ≤ xs.length then xs[(xs.length + place).toNat]?
  else none

/-- The place that a bound of a slice means, not outside the places from `low` to `high`. -/
def sliceBound (length : Nat) (low high place : Int) : Int :=
  let fromStart := if place < 0 then place + length else place
  max low (min high fromStart)

/-- Every `step`-th member from `start` on and before `stop`. With a negative step the members are
taken in the opposite order. A missing bound is the end that the step starts from or leads to. -/
def slice {α : Type} (xs : List α) (start stop step : Option Int) : Except Fault (List α) :=
  let step := step.getD 1
  let n : Int := xs.length
  let pick (first : Int) (count : Int) : List α :=
    let members := xs.toArray
    (List.range count.toNat).filterMap fun (i : Nat) => members[(first + i * step).toNat]?
  if 0 < step then
    let first := (start.map (sliceBound xs.length 0 n)).getD 0
    let last := (stop.map (sliceBound xs.length 0 n)).getD n
    .ok (pick first ((last - first + step - 1) / step))
  else if step < 0 then
    let first := (start.map (sliceBound xs.length (-1) (n - 1))).getD (n - 1)
    let last := (stop.map (sliceBound xs.length (-1) (n - 1))).getD (-1)
    .ok (pick first ((first - last - step - 1) / -step))
  else .error .badArgument

namespace Value

/-- The members of a value in order: the characters of a text, the parts of a tuple, a list or a
record of play. -/
def items : Value → Except Fault (List Value)
  | .text s => .ok (s.toList.map fun c => .text (String.singleton c))
  | .tuple items | .list items => .ok items
  | .payoff p => .ok p.values
  | .profile p => .ok p.moves
  | .transcript t => .ok (t.plies.map .ply)
  | .history h => .ok (h.outcomes.map .outcome)
  | _ => .error .wrongType

/-- The values that a value is made of: the members of a sequence, and the parts of a single record
as far as they are there. -/
def parts : Value → List Value
  | .text _ => []
  | .ply p => [p.player, p.move]
  | .outcome o =>
      .payoff o.payoff :: (o.profile.map Value.profile).toList ++ .transcript o.transcript ::
        (o.history.map Value.history).toList
  | .roundState s => [.history s.history, s.stageState, .transcript s.transcript]
  | .scope s => [s.label, s.transcript, s.round, s.history]
  | v => v.items.toOption.getD []

/-- The members of the members of a value. -/
def itemLists (v : Value) : Except Fault (List (List Value)) := do
  (← v.items).mapM items

/-- How many members a value has. -/
def length (v : Value) : Except Fault Nat :=
  v.items.map List.length

/-- The member at a place that is given as a value. -/
def member (v place : Value) : Except Fault Value := do
  let items ← v.items
  match place.whole? with
  | none => throw .wrongType
  | some n =>
      match atPlace? items n with
      | some item => return item
      | none => throw .indexOutOfRange

/-- The whole number that a value has to be. -/
def asWhole (v : Value) : Except Fault Int :=
  v.whole?.elim (.error .wrongType) .ok

/-- A bound or a step of a slice that is given as a value: nothing, or a whole number. -/
def bound? : Value → Except Fault (Option Int)
  | .null => .ok none
  | v => some <$> v.asWhole

/-- The members of a sequence between two places: a text for a text, a list for a list, and a tuple
otherwise. -/
def slice (v start stop step : Value) : Except Fault Value := do
  let items ← v.items
  let step ← step.bound?
  if step = some 0 then throw .badArgument
  let start ← start.bound?
  let stop ← stop.bound?
  match v with
  | .text s => return .text (String.ofList (← ExtensiveForm.slice s.toList start stop step))
  | .list _ => return .list (← ExtensiveForm.slice items start stop step)
  | _ => return .tuple (← ExtensiveForm.slice items start stop step)

/-- A value is a member of another one. What a text holds are texts, of any length. -/
def holds (v x : Value) : Except Fault Bool :=
  match v, x with
  | .text s, .text t =>
      let places := List.range (s.toList.length + 1)
      .ok (places.any fun place => t.toList.isPrefixOf (s.toList.drop place))
  | .text _, _ => .error .wrongType
  | _, _ => do return x.isAmong (← v.items)

mutual

/-- One value is at least as large as another one. Numbers are compared with numbers, texts with
texts by the first character in which they differ, and tuples with tuples by the first member. -/
def atLeast : Value → Value → Except Fault Bool
  | .text s, b =>
      match b with
      | .text t => .ok (decide (t ≤ s))
      | _ => .error .wrongType
  | .tuple as, b =>
      match b with
      | .tuple bs => allAtLeast as bs
      | _ => .error .wrongType
  | .list as, b =>
      match b with
      | .list bs => allAtLeast as bs
      | _ => .error .wrongType
  | a, b =>
      match a.number?, b.number? with
      | some m, some n => .ok (n.atMost m)
      | _, _ => .error .wrongType
termination_by structural a => a

/-- Some values are at least as large as others: of the first two that differ the former one is, or
none differ and there are no fewer of them. -/
def allAtLeast : List Value → List Value → Except Fault Bool
  | a :: as, b :: bs => if a.alike b then allAtLeast as bs else atLeast a b
  | _, [] => .ok true
  | [], _ :: _ => .ok false
termination_by structural as => as

end

end Value

end ExtensiveForm
