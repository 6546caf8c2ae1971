import ExtensiveForm.Random.Scale
import ExtensiveForm.Run
import ExtensiveForm.Value.Equality

/-!
# Distributions

A finite distribution over values. Weights are divided by their total, so they need not add up to
one, but there have to be some, and they have to be in order: `Weights.InOrder`. A number below one
picks an element: the first one whose cumulative probability lies above the number.
-/

namespace ExtensiveForm

/-- Values with their weights. A value may occur more than once. -/
abbrev Weights (ω : Type) := List (Value × ω)

namespace Weights

variable {ω : Type} [Scale ω]

/-- All weights together. -/
def total (weights : Weights ω) : ω :=
  Scale.total (weights.map (·.2))

/-- There are weights, each of them is finite and none of them negative, and all together they weigh
something. -/
structure InOrder (weights : Weights ω) : Prop where
  nonempty : weights ≠ []
  finite : ∀ entry ∈ weights, Scale.isFinite entry.2 = true
  nonneg : ∀ entry ∈ weights, ¬ entry.2 < 0
  positive : ¬ weights.total ≤ 0

/-- The share that each weight has of the total. -/
def shares (weights : Weights ω) : List (Value × ω) :=
  weights.map fun (v, weight) => (v, weight / weights.total)

end Weights

/-- Values with their probabilities, in the order in which they were given: the shares of weights
that are in order. -/
@[ext] structure Distribution (ω : Type) [Scale ω] where
  entries : List (Value × ω)
  made : ∃ weights : Weights ω, weights.InOrder ∧ entries = weights.shares

/-- The distribution of weights that are in order. -/
def Weights.InOrder.distribution {ω : Type} [Scale ω] {weights : Weights ω} (h : weights.InOrder) :
    Distribution ω :=
  ⟨weights.shares, weights, h, rfl⟩

namespace Distribution

variable {ω : Type} [Scale ω]

/-- The values of a distribution. -/
def elements (d : Distribution ω) : List Value :=
  d.entries.map (·.1)

/-- The probabilities of a distribution. -/
def probabilities (d : Distribution ω) : List ω :=
  d.entries.map (·.2)

/-- The distribution in which each value has the share that its weight has of the total. -/
def ofWeights (weights : Weights ω) : Except Fault (Distribution ω) :=
  let shown := weights.map fun entry => Scale.toValue entry.2
  if nonempty : weights = [] then .error (.refused .emptyDistribution)
  else if finite : ∀ entry ∈ weights, Scale.isFinite entry.2 = true then
    if nonneg : ∀ entry ∈ weights, ¬ entry.2 < 0 then
      if positive : weights.total ≤ 0 then .error (.refused .noPositiveWeight)
      else .ok (Weights.InOrder.mk nonempty finite nonneg positive).distribution
    else .error (.refused (.negativeWeights shown))
  else .error (.refused (.infiniteWeights shown))

/-- The distribution that gives all these values the same weight. -/
def flat (elements : List Value) : Except Fault (Distribution ω) :=
  ofWeights (elements.map fun v => (v, 1))

/-- The distribution that always yields this value. -/
def pure (v : Value) : Except Fault (Distribution ω) :=
  ofWeights [(v, 1)]

/-- The values with a positive probability. -/
def support (d : Distribution ω) : List Value :=
  (d.entries.filter fun entry => 0 < entry.2).map (·.1)

/-- The probability of a value: the sum over all entries equal to it, and nothing if there are
none. -/
def probabilityOf? (d : Distribution ω) (v : Value) : Option ω :=
  match (d.entries.filter (·.1 == v)).map (·.2) with
  | [] => none
  | ps => some (ps.foldl (· + ·) 0)

/-- The sums of the first one, two and so on of the probabilities, added to a number. -/
def runningSums (sum : ω) : List ω → List ω
  | [] => []
  | p :: rest => (sum + p) :: runningSums (sum + p) rest

/-- The cumulative probabilities, scaled so that the last one is one. -/
def cumulative (d : Distribution ω) : List ω :=
  let sums := runningSums 0 d.probabilities
  match sums.getLast? with
  | none => []
  | some last => sums.map (· / last)

/-- The element that a number below one picks: the one after as many elements as have a cumulative
probability not above the number. -/
def pick? (d : Distribution ω) (u : ω) : Option Value :=
  d.elements[d.cumulative.countP (· ≤ u)]?

/-- The probabilities add up to one. They fail to only if the total of the weights is too large for
the scale, and then all of them are zero. -/
def isProper (d : Distribution ω) : Bool :=
  d.probabilities.any (0 < ·)

/-- An element drawn with the next number of a source of numbers from zero to below one. -/
def sample {σ : Type} (d : Distribution ω) (uniform : StateM σ ω) : Run σ Value := do
  unless d.isProper do throw .badArgument
  match d.pick? (← uniform) with
  | some v => return v
  | none => throw .indexOutOfRange

/-- Elements drawn one after another, as many as asked for. -/
def samples {σ : Type} (d : Distribution ω) (uniform : StateM σ ω) (count : Int) :
    Run σ (List Value) := do
  unless d.isProper ∧ 0 ≤ count do throw .badArgument
  (List.replicate count.toNat ()).mapM fun _ => d.sample uniform

/-- Two distributions agree: the same elements with the same probabilities in the same order. -/
def same (d e : Distribution ω) : Bool :=
  Value.tuple d.elements == .tuple e.elements && d.probabilities == e.probabilities

end Distribution

end ExtensiveForm
