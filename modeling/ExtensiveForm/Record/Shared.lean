import ExtensiveForm.Value.Sequence

/-!
# Records that share a list

A record that only ever grows need not be copied to stay as it was. Records that grew out of one
another are views of the first members of one list. Adding to the newest of them makes that list
longer in place, and adding to an older one copies its members first, so that no view shows what
was added after it was made.
-/

namespace ExtensiveForm

/-- A record kept as the first so many members of a list, which is given by its number. -/
structure View where
  list : Nat
  length : Nat

/-- The lists that views may share, in the order in which they were made. -/
structure Store (α : Type) where
  lists : List (List α)

namespace Store

variable {α : Type}

/-- The list that a view belongs to, with the members that are beyond the view. -/
def listOf (s : Store α) (v : View) : List α :=
  s.lists.getD v.list []

/-- A view of these members, in a list of its own. -/
def make (s : Store α) (items : List α) : View × Store α :=
  (⟨s.lists.length, items.length⟩, ⟨s.lists ++ [items]⟩)

/-- A view with one more member than another one. The list of that view is made longer, unless it
has grown beyond the view already: then the members of the view are copied. -/
def append (s : Store α) (v : View) (x : α) : View × Store α :=
  let items := s.listOf v
  if items.length = v.length then
    (⟨v.list, v.length + 1⟩, ⟨s.lists.set v.list (items ++ [x])⟩)
  else (⟨s.lists.length, v.length + 1⟩, ⟨s.lists ++ [items.take v.length ++ [x]]⟩)

/-- The member at a place counted from the beginning, looked up in the list as it is now. -/
def read? (s : Store α) (v : View) (place : Nat) : Option α :=
  if place < v.length then (s.listOf v)[place]? else none

/-- The members of a view, read one after another. -/
def items (s : Store α) (v : View) : List α :=
  (List.range v.length).filterMap (s.read? v)

/-- The members of a view, read from the last one to the first. -/
def reversed (s : Store α) (v : View) : List α :=
  (List.range v.length).reverse.filterMap (s.read? v)

/-- The member at a place, which may be counted from the end of the view. -/
def member (s : Store α) (v : View) (place : Int) : Except Fault α :=
  ((atPlace? (List.range v.length) place).bind fun i => (s.listOf v)[i]?).elim
    (.error .indexOutOfRange) .ok

/-- The members between two places. -/
def slice (s : Store α) (v : View) (start stop step : Option Int) : Except Fault (List α) :=
  ExtensiveForm.slice ((s.listOf v).take v.length) start stop step

/-- The last member. -/
def last? (s : Store α) (v : View) : Option α :=
  if v.length = 0 then none else (s.listOf v)[v.length - 1]?

/-- Views are equal when they are equally long and their members are equal one by one. Views of one
list are not looked at member by member. -/
def equal [BEq α] (s : Store α) (v w : View) : Bool :=
  v.length == w.length
    && (v.list == w.list || ((s.items v).zip (s.items w)).all fun (a, b) => a == b)

end Store

/-- What may be done with records: one is made of given members, or a member is added to a record
that was made earlier, which stays as it was. -/
inductive Change (α : Type) where
  | make (items : List α)
  | add (record : Nat) (x : α)

/-- The records after a change, if there is one way to make a record and one to add to it. There is
nothing to add to a record that was never made. -/
def Change.apply {α ρ : Type} (make : List α → ρ) (add : ρ → α → ρ) (records : List ρ) :
    Change α → List ρ
  | .make items => records ++ [make items]
  | .add record x =>
      match records[record]? with
      | none => records
      | some r => records ++ [add r x]

/-- The records that some changes make, in the order in which they are made. -/
def recordsOf {α ρ : Type} (make : List α → ρ) (add : ρ → α → ρ) (changes : List (Change α)) :
    List ρ :=
  changes.foldl (Change.apply make add) []

/-- Records kept as views of the lists of one store. -/
structure SharedRecords (α : Type) where
  store : Store α
  views : List View

namespace SharedRecords

variable {α : Type}

/-- No records. -/
def empty : SharedRecords α := ⟨⟨[]⟩, []⟩

/-- The records with one more view, which was just made in the store. -/
def push (rs : SharedRecords α) (made : View × Store α) : SharedRecords α :=
  ⟨made.2, rs.views ++ [made.1]⟩

/-- The records after a change. -/
def apply (rs : SharedRecords α) : Change α → SharedRecords α
  | .make items => rs.push (rs.store.make items)
  | .add record x =>
      match rs.views[record]? with
      | none => rs
      | some v => rs.push (rs.store.append v x)

/-- The records that some changes make. -/
def of (changes : List (Change α)) : SharedRecords α :=
  changes.foldl apply empty

end SharedRecords

end ExtensiveForm
