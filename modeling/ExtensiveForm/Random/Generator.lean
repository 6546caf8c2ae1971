import ExtensiveForm.Random.Scale
import ExtensiveForm.Random.Seed

/-!
# Generators of random numbers

A generator yields numbers from zero to below one, one after another. A seeded one is a linear
congruence on 128 bits, of which each number shows 64 bits turned by as many places as the top bits
say. Another one repeats a given sequence of numbers.
-/

namespace ExtensiveForm

/-- The state of a seeded generator and the odd constant added in each step. -/
structure Congruence where
  state : BitVec 128
  increment : BitVec 128

namespace Congruence

/-- The factor of each step. -/
def multiplier : BitVec 128 :=
  BitVec.ofNat 128 (2549297995355413924 * Nat.pow 2 64 + 4865540595714422341)

/-- The state after one step. -/
def step (c : Congruence) : Congruence :=
  { c with state := c.state * multiplier + c.increment }

/-- The generator of a seed. -/
def ofSeed (seed : Nat) : Congruence :=
  match (SeedPool.ofSeed seed).doubleWords with
  | [a, b, c, d] =>
      let start := BitVec.ofNat 128 (a * Nat.pow 2 64 + b)
      let increment := BitVec.ofNat 128 (2 * (c * Nat.pow 2 64 + d) + 1)
      let first := (Congruence.mk 0 increment).step
      { first with state := first.state + start }.step
  | _ => ⟨0, 1⟩

/-- The word that a state shows. -/
def output (c : Congruence) : BitVec 64 :=
  let word := (c.state >>> 64).setWidth 64 ^^^ c.state.setWidth 64
  word.rotateRight (c.state >>> 122).toNat

end Congruence

/-- A source of numbers from zero to below one. -/
inductive Generator (ω : Type) where
  | seeded (c : Congruence)
  | listed (numbers : Nat → ω) (used : Nat)

namespace Generator

variable {ω : Type} [Scale ω]

/-- The generator of a seed, which must not be negative. -/
def ofSeed (seed : Int) : Except Fault (Generator ω) :=
  if 0 ≤ seed then .ok (.seeded (.ofSeed seed.toNat)) else .error .badArgument

/-- The generator that yields the given numbers over and over. -/
def ofNumbers (numbers : List ω) : Generator ω :=
  let numbers := numbers.toArray
  .listed (fun i => numbers[i % numbers.size]?.getD 0) 0

/-- The next number, and the generator after it. A seeded generator uses the top 53 bits of the
word it shows. -/
def uniform : StateM (Generator ω) ω
  | .seeded c =>
      let c := c.step
      (Scale.ratio (c.output.toNat / Nat.pow 2 11) (Nat.pow 2 53), .seeded c)
  | .listed numbers used => (numbers used, .listed numbers (used + 1))

end Generator

end ExtensiveForm
