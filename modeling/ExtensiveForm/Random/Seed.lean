/-!
# Seeds

A seed of any size is spread over a pool of four words, so that every bit of it reaches every word,
and the state of a generator is taken from the pool.
-/

namespace ExtensiveForm

/-- The seed in words of 32 bits, the least significant one first, and at least one of them. -/
def seedWords (seed : Nat) : List UInt32 :=
  if h : seed < 0x100000000 then [seed.toUInt32]
  else seed.toUInt32 :: seedWords (seed / 0x100000000)
termination_by seed
decreasing_by omega

/-- A word with its upper half folded into its lower half. -/
def foldDown (v : UInt32) : UInt32 :=
  v ^^^ (v >>> 16)

/-- One step of a running hash: the multiplier, the key before it and the word give the next key and
the hashed word. -/
def hashStep (multiplier key v : UInt32) : UInt32 × UInt32 :=
  let next := key * multiplier
  (next, foldDown ((v ^^^ key) * next))

/-- Two words mixed into one. -/
def mixWords (x y : UInt32) : UInt32 :=
  foldDown (0xca01f9dd * x - 0x4973f715 * y)

/-- The pool of words that a seed is spread over, and the key of the running hash. -/
structure SeedPool where
  words : List UInt32
  key : UInt32

namespace SeedPool

/-- The pool of the first four words of a seed, missing ones being zero. -/
def fill (seed : List UInt32) : SeedPool :=
  (List.range 4).foldl
    (fun pool i =>
      let (key, v) := hashStep 0x931e8875 pool.key (seed.getD i 0)
      ⟨pool.words ++ [v], key⟩)
    ⟨[], 0x43b0d7e5⟩

/-- The pool with a word hashed and mixed into one of its places. -/
def absorb (pool : SeedPool) (place : Nat) (v : UInt32) : SeedPool :=
  let (key, hashed) := hashStep 0x931e8875 pool.key v
  ⟨pool.words.set place (mixWords (pool.words.getD place 0) hashed), key⟩

/-- The pool with every word mixed into every other one. -/
def stir (pool : SeedPool) : SeedPool :=
  (List.range 4).foldl
    (fun pool source =>
      ((List.range 4).filter (· != source)).foldl
        (fun pool place => pool.absorb place (pool.words.getD source 0)) pool)
    pool

/-- The pool that a whole seed is spread over. -/
def ofSeed (seed : Nat) : SeedPool :=
  let words := seedWords seed
  (words.drop 4).foldl
    (fun pool v => (List.range 4).foldl (fun pool place => pool.absorb place v) pool)
    (fill words).stir

/-- Eight words taken from the pool. -/
def output (pool : SeedPool) : List UInt32 :=
  ((List.range 8).foldl
    (fun (key, done) i =>
      let (key, v) := hashStep 0x58f38ded key (pool.words.getD (i % 4) 0)
      (key, done ++ [v]))
    ((0x8b51f9dd : UInt32), ([] : List UInt32))).2

/-- Four double words taken from the pool. -/
def doubleWords (pool : SeedPool) : List Nat :=
  (List.range 4).map fun i =>
    (pool.output.getD (2 * i) 0).toNat + 0x100000000 * (pool.output.getD (2 * i + 1) 0).toNat

end SeedPool

end ExtensiveForm
