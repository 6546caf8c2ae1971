/-!
# Whole numbers of a fixed width

A word has so many bits, with or without one of them for the sign. A sum that does not fit into a
word keeps its remainder modulo the number of words.
-/

namespace ExtensiveForm

/-- How whole numbers are kept: in how many bits, and whether one of them is for the sign. -/
structure Word where
  bits : Nat
  signed : Bool
  deriving DecidableEq

namespace Word

/-- The signed word of 64 bits. -/
def standard : Word := ⟨64, true⟩

/-- The words for a number by itself, from the first to be tried to the last. -/
def all : List Word :=
  [standard, ⟨128, true⟩, ⟨128, false⟩]

/-- The words for many numbers together, from the first to be tried to the last. -/
def narrow : List Word :=
  [standard, ⟨64, false⟩]

/-- How many numbers a word can hold. -/
def modulus (w : Word) : Nat :=
  Nat.pow 2 w.bits

/-- The number that a word holds in place of this one. -/
def wrap (w : Word) (n : Int) : Int :=
  if w.signed then n.bmod w.modulus else n % (w.modulus : Int)

/-- The word can hold the number. -/
def holds (w : Word) (n : Int) : Bool :=
  w.wrap n == n

/-- The first word that can hold the number. -/
def of? (n : Int) : Option Word :=
  all.find? (·.holds n)

/-- The word that can hold whatever one of two words can: the wider one of two with a sign. -/
def wider? (v w : Word) : Option Word :=
  if v = w then some v
  else if v.signed && w.signed then some ⟨max v.bits w.bits, true⟩
  else none

end Word

end ExtensiveForm
