import ExtensiveForm.Fault

/-!
# Tables keyed by values

A table holds one entry for each key, in the order in which the keys first came. Keys that are alike
are one key, so `1` and `1.0` are, and so is one value that is no number. A value that holds a list
is no key: putting it into a table fails, and so does looking it up, be the table empty or not.
-/

namespace ExtensiveForm

mutual

/-- A form has no list in it. -/
def Form.isHashable : Form → Bool
  | .leaf _ => true
  | .group kind parts => decide (kind ≠ .list) && Form.allHashable parts
termination_by structural f => f

/-- Some forms have no list in them. -/
def Form.allHashable : List Form → Bool
  | [] => true
  | f :: rest => f.isHashable && Form.allHashable rest
termination_by structural fs => fs

end

namespace Value

/-- A value can be the key of a table: it neither is a list nor holds one. -/
def isHashable (v : Value) : Bool :=
  v.form.isHashable

/-- The value as the key of a table. -/
def asKey (v : Value) : Except Fault Value :=
  if v.isHashable then .ok v else .error .wrongType

end Value

/-- Entries by key, in the order in which the keys first came. -/
structure Table (β : Type) where
  entries : List (Value × β)

namespace Table

variable {β γ : Type}

/-- The table without entries. -/
def empty : Table β := ⟨[]⟩

/-- The entry of a key. -/
def find? (t : Table β) (key : Value) : Option β :=
  (t.entries.find? fun entry => entry.1.alike key).map (·.2)

/-- The entry for a value, which has to be a key. -/
def lookUp (t : Table β) (v : Value) : Except Fault (Option β) :=
  return t.find? (← v.asKey)

/-- The entries with one of them changed, or with a new one at the end. -/
def insertEntry (key : Value) (entry : β) : List (Value × β) → List (Value × β)
  | [] => [(key, entry)]
  | (k, e) :: rest =>
      if k.alike key then (k, entry) :: rest else (k, e) :: insertEntry key entry rest

/-- The table with this entry for the key. A key that is there already keeps its place and its
spelling. -/
def insert (t : Table β) (key : Value) (entry : β) : Table β :=
  ⟨insertEntry key entry t.entries⟩

/-- The table of some entries, of which a later one replaces an earlier one with an equal key. -/
def ofList (entries : List (Value × β)) : Table β :=
  entries.foldl (fun t (key, entry) => t.insert key entry) empty

/-- The keys in the order in which they first came. -/
def keys (t : Table β) : List Value :=
  t.entries.map (·.1)

/-- The table with each entry replaced by what the function makes of it. -/
def map (f : β → γ) (t : Table β) : Table γ :=
  ⟨t.entries.map fun (key, entry) => (key, f entry)⟩

end Table

end ExtensiveForm
