import Mathlib.Algebra.BigOperators.Ring.List
import Mathlib.Algebra.Order.BigOperators.Group.List
import Mathlib.Data.List.Count
import ExtensiveForm.Proofs.Draws

/-!
# Draws invert the sums of the probabilities

With exact numbers, the probabilities of a distribution are shares of one (`Normalized`). So those
of its places cut the numbers from zero to below one into intervals: a place covers the numbers from
the sum of the probabilities before it to below the sum of those up to it, and a place with no
probability covers nothing.

A draw returns the element at the place that covers the number drawn (`countP_cumulative_eq_iff`).
`draws_invert_sums` is the main result. It says this of every list of weighted values of which a
distribution is made, and that the intervals of the places of a value are as long together as the
value is probable.
-/

namespace ExtensiveForm

namespace Distribution

/-- The probabilities before a place, added up. -/
def before (d : Distribution Rat) (place : Nat) : Rat :=
  (d.probabilities.take place).sum

/-- The number lies in the interval of a place. -/
structure Covers (d : Distribution Rat) (place : Nat) (u : Rat) : Prop where
  isPlace : place < d.elements.length
  reached : d.before place ≤ u
  notPassed : u < d.before (place + 1)

/-- The places of the elements equal to a value. -/
def placesOf (d : Distribution Rat) (v : Value) : List Nat :=
  (List.range d.elements.length).filter fun place => d.elements[place]?.any (· == v)

/-- The length of the intervals of all places of a value. -/
def lengthOf (d : Distribution Rat) (v : Value) : Rat :=
  ((d.placesOf v).map fun place => d.before (place + 1) - d.before place).sum

/-- The probabilities are shares of one. -/
structure Normalized (d : Distribution Rat) : Prop where
  nonneg : ∀ p ∈ d.probabilities, 0 ≤ p
  sum_eq_one : d.probabilities.sum = 1

/-- Every number from zero to below one draws the element at the only place that covers it. -/
structure InvertsSums (d : Distribution Rat) : Prop where
  covered {u : Rat} (hu : 0 ≤ u) (hu' : u < 1) : ∃! place, d.Covers place u
  place_iff {u : Rat} (hu : 0 ≤ u) (hu' : u < 1) (place : Nat) :
    d.cumulative.countP (· ≤ u) = place ↔ d.Covers place u
  drawn {σ : Type} {uniform : StateM σ Rat} {s : σ} {place : Nat} (hu : 0 ≤ (uniform s).1)
    (hu' : (uniform s).1 < 1) (h : d.Covers place (uniform s).1) :
    ∃ v ∈ d.support, d.elements[place]? = some v ∧
      (d.sample uniform).start s = (.ok v, (uniform s).2)
  reached {v : Value} (hv : v ∈ d.support) :
    ∃ place u, 0 ≤ u ∧ u < 1 ∧ d.Covers place u ∧ d.elements[place]? = some v
  equal_iff {σ : Type} {uniform : StateM σ Rat} {s : σ} (hu : 0 ≤ (uniform s).1)
    (hu' : (uniform s).1 < 1) (v : Value) :
    (∃ w s', (d.sample uniform).start s = (.ok w, s') ∧ (w == v) = true) ↔
      ∃ place ∈ d.placesOf v, d.Covers place (uniform s).1
  length (v : Value) : d.lengthOf v = (d.probabilityOf? v).getD 0

variable {d : Distribution Rat} {weighted : Weights Rat}

/-! ### Weights become probabilities -/

theorem total_eq_sum : weighted.total = (weighted.map (·.2)).sum :=
  List.sum_eq_foldl.symm

/-- What is not negative adds up to something positive exactly if some of it is positive. -/
theorem sum_pos_iff {ws : List Rat} (h : ∀ w ∈ ws, 0 ≤ w) : 0 < ws.sum ↔ ∃ w ∈ ws, 0 < w := by
  constructor
  · intro hpos
    by_contra hnone
    have hzero : ∀ w ∈ ws, w = 0 := fun w hw =>
      le_antisymm (not_lt.1 fun hlt => hnone ⟨w, hw, hlt⟩) (h w hw)
    exact absurd (List.sum_eq_zero hzero) (ne_of_gt hpos)
  · rintro ⟨w, hw, hpos⟩
    exact hpos.trans_le (List.single_le_sum h w hw)

/-- Exact weights are in order if there are any, none of them is negative, and some are
positive. -/
theorem inOrder_iff : weighted.InOrder ↔
    weighted ≠ [] ∧ (∀ entry ∈ weighted, 0 ≤ entry.2) ∧ ∃ entry ∈ weighted, 0 < entry.2 := by
  have htotal (hweights : ∀ entry ∈ weighted, 0 ≤ entry.2) :
      ¬ weighted.total ≤ 0 ↔ ∃ entry ∈ weighted, 0 < entry.2 := by
    rw [total_eq_sum, not_le, sum_pos_iff (List.forall_mem_map.2 hweights)]
    simp only [List.mem_map, exists_exists_and_eq_and]
  constructor
  · intro h
    have hweights : ∀ entry ∈ weighted, 0 ≤ entry.2 :=
      fun entry hentry => not_lt.1 (h.nonneg entry hentry)
    exact ⟨h.nonempty, hweights, (htotal hweights).1 h.positive⟩
  · rintro ⟨hempty, hweights, hpos⟩
    exact ⟨hempty, fun _ _ => rfl, fun entry hentry => not_lt.2 (hweights entry hentry),
      (htotal hweights).2 hpos⟩

theorem sum_pos (h : weighted.InOrder) : 0 < (weighted.map (·.2)).sum := by
  rw [← total_eq_sum]
  exact not_le.1 h.positive

/-- The probabilities of every distribution are shares of one. -/
theorem normalized (d : Distribution Rat) : d.Normalized := by
  obtain ⟨entries, weighted, hweights, rfl⟩ := d
  have htotal := sum_pos hweights
  constructor
  · simp only [probabilities, Weights.shares, List.map_map, List.forall_mem_map, total_eq_sum]
    exact fun entry hentry => div_nonneg (not_lt.1 (hweights.nonneg entry hentry)) htotal.le
  · calc (weighted.shares.map (·.2)).sum
        = (weighted.map fun entry => entry.2 * (weighted.map (·.2)).sum⁻¹).sum := by
          simp only [Weights.shares, List.map_map, Function.comp_def, div_eq_mul_inv, total_eq_sum]
      _ = (weighted.map (·.2)).sum * (weighted.map (·.2)).sum⁻¹ := List.sum_map_mul_right ..
      _ = 1 := mul_inv_cancel₀ (ne_of_gt htotal)

/-- With exact numbers, some element has a positive probability. -/
theorem isProper_eq_true (d : Distribution Rat) : d.isProper = true := by
  have hd := d.normalized
  obtain ⟨p, hp, hpos⟩ := (sum_pos_iff hd.nonneg).1 (hd.sum_eq_one ▸ zero_lt_one)
  exact List.any_eq_true.2 ⟨p, hp, decide_eq_true hpos⟩

/-- Only the shares of the weights matter. -/
theorem ofWeights_scaled (h : ofWeights weighted = .ok d) {c : Rat} (hc : 0 < c) :
    ofWeights (weighted.map fun (v, w) => (v, c * w)) = .ok d := by
  obtain ⟨horder, rfl⟩ := ofWeights_eq_ok_iff.1 h
  obtain ⟨hempty, hweights, entry, hentry, hpos⟩ := inOrder_iff.1 horder
  refine ofWeights_eq_ok_iff.2
    ⟨inOrder_iff.2 ⟨?_, ?_, (entry.1, c * entry.2), ?_, mul_pos hc hpos⟩, ?_⟩
  · simpa using hempty
  · exact List.forall_mem_map.2 fun entry hentry => mul_nonneg hc.le (hweights entry hentry)
  · exact List.mem_map_of_mem hentry
  · have hsum : (weighted.map fun entry => c * entry.2).sum = c * (weighted.map (·.2)).sum :=
      List.sum_map_mul_left ..
    refine Distribution.ext ?_
    simp only [Weights.InOrder.distribution, Weights.shares, total_eq_sum, List.map_map,
      Function.comp_def, hsum,
      mul_div_mul_left _ _ (ne_of_gt hc)]

/-- Of values with the same weight, all have a positive probability. -/
theorem flat_eq {values : List Value} (h : values ≠ []) :
    ∃ d : Distribution Rat, flat values = .ok d ∧ d.support = values := by
  obtain ⟨v, hv⟩ := List.exists_mem_of_ne_nil values h
  have horder : Weights.InOrder (values.map fun v => (v, (1 : Rat))) :=
    inOrder_iff.2 ⟨by simpa using h, List.forall_mem_map.2 fun _ _ => zero_le_one, (v, 1),
      List.mem_map_of_mem hv, zero_lt_one⟩
  refine ⟨_, ofWeights_eq_ok_iff.2 ⟨horder, rfl⟩, ?_⟩
  rw [support, List.filter_eq_self.2]
  · simp only [Weights.InOrder.distribution, Weights.shares, List.map_map, Function.comp_def,
      List.map_id']
  · refine List.forall_mem_map.2 (List.forall_mem_map.2 fun _ _ => decide_eq_true ?_)
    exact one_div_pos.2 (not_le.1 horder.positive)

/-! ### The intervals of the places -/

theorem Normalized.before_le_one (hd : d.Normalized) (place : Nat) : d.before place ≤ 1 := by
  rw [← hd.sum_eq_one, ← List.sum_take_add_sum_drop d.probabilities place]
  exact le_add_of_nonneg_right (List.sum_nonneg fun p hp => hd.nonneg p (List.mem_of_mem_drop hp))

theorem Normalized.before_nonneg (hd : d.Normalized) (place : Nat) : 0 ≤ d.before place :=
  List.sum_nonneg fun p hp => hd.nonneg p (List.mem_of_mem_take hp)

theorem length_probabilities (d : Distribution Rat) :
    d.probabilities.length = d.elements.length := by
  simp only [probabilities, elements, List.length_map]

/-- The interval of a place is as long as its element is probable. -/
theorem before_succ_sub (d : Distribution Rat) {place : Nat} {p : Rat}
    (hp : d.probabilities[place]? = some p) : d.before (place + 1) - d.before place = p := by
  obtain ⟨hplace, rfl⟩ := List.getElem?_eq_some_iff.1 hp
  rw [before, List.sum_take_succ d.probabilities place hplace, before, add_sub_cancel_left]

theorem length_runningSums (sum : Rat) (ps : List Rat) :
    (runningSums sum ps).length = ps.length := by
  induction ps generalizing sum with
  | nil => rfl
  | cons p ps ih => rw [runningSums, List.length_cons, List.length_cons, ih]

theorem getLast?_runningSums {ps : List Rat} (h : ps ≠ []) (sum : Rat) :
    (runningSums sum ps).getLast? = some (sum + ps.sum) := by
  induction ps generalizing sum with
  | nil => exact absurd rfl h
  | cons p ps ih =>
      cases ps with
      | nil => simp [runningSums]
      | cons q ps =>
          have hlast : (runningSums sum (p :: q :: ps)).getLast? =
              (runningSums (sum + p) (q :: ps)).getLast? := rfl
          rw [hlast, ih (List.cons_ne_nil q ps), List.sum_cons (a := p), add_assoc]

theorem Normalized.last_eq_one (hd : d.Normalized) :
    (runningSums 0 d.probabilities).getLast? = some 1 := by
  have hempty : d.probabilities ≠ [] := by
    intro hempty
    have hsum := hd.sum_eq_one
    rw [hempty] at hsum
    exact zero_ne_one hsum
  rw [getLast?_runningSums hempty, zero_add, hd.sum_eq_one]

/-- The sums need no scaling, as the last one is one. -/
theorem Normalized.cumulative_eq (hd : d.Normalized) :
    d.cumulative = runningSums 0 d.probabilities := by
  simp only [cumulative]
  rw [hd.last_eq_one]
  simp only [div_one, List.map_id']

/-- As many sums are not above a number as there are places before the one that covers it. -/
theorem countP_runningSums_eq_iff {ps : List Rat} (hps : ∀ p ∈ ps, 0 ≤ p) {sum u : Rat}
    (hsum : 0 ≤ sum) (hu : sum ≤ u) {place : Nat} (hplace : place < ps.length) :
    (runningSums sum ps).countP (· ≤ u) = place ↔
      sum + (ps.take place).sum ≤ u ∧ u < sum + (ps.take (place + 1)).sum := by
  -- By induction on the probabilities: the first sum is passed or not, and if it is, the rest of
  -- the sums starts from it.
  induction ps generalizing sum place with
  | nil => exact absurd hplace (Nat.not_lt_zero place)
  | cons p ps ih =>
      rw [List.forall_mem_cons] at hps
      have hnext : 0 ≤ sum + p := add_nonneg hsum hps.1
      rw [runningSums]
      by_cases hfirst : sum + p ≤ u
      · rw [List.countP_cons_of_pos (by simpa using hfirst)]
        cases place with
        | zero => simp [hfirst]
        | succ place =>
            rw [Nat.add_right_cancel_iff, ih hps.2 hnext hfirst (Nat.lt_of_succ_lt_succ hplace)]
            simp only [List.take_succ_cons, List.sum_cons, ← add_assoc]
      · have hrest : (runningSums (sum + p) ps).countP (· ≤ u) = 0 := by
          refine List.countP_eq_zero.2 fun x hx hle => hfirst ?_
          exact (le_of_mem_runningSums hps.2 hnext hx).trans (of_decide_eq_true hle)
        rw [List.countP_cons_of_neg (by simpa using hfirst), hrest]
        cases place with
        | zero => simpa [hu] using not_le.1 hfirst
        | succ place =>
            have hmore : 0 ≤ (ps.take place).sum :=
              List.sum_nonneg fun q hq => hps.2 q (List.mem_of_mem_take hq)
            have hpassed : ¬ sum + (p + (ps.take place).sum) ≤ u := fun hle =>
              hfirst ((le_add_of_nonneg_right hmore).trans ((add_assoc ..).trans_le hle))
            simp [hpassed]

/-- A number below one passes some place. -/
theorem Normalized.countP_cumulative_lt (hd : d.Normalized) {u : Rat} (hu : u < 1) :
    d.cumulative.countP (· ≤ u) < d.elements.length := by
  rw [hd.cumulative_eq, ← d.length_probabilities, ← length_runningSums 0 d.probabilities]
  exact List.countP_lt_length_iff.2
    ⟨1, List.mem_of_getLast? hd.last_eq_one, decide_eq_false (not_le.2 hu)⟩

/-- For a number from zero to below one, as many cumulative probabilities are not above it as there
are places before the one that covers it. -/
theorem countP_cumulative_eq_iff (hd : d.Normalized) {u : Rat} (hu : 0 ≤ u) (hu' : u < 1)
    (place : Nat) : d.cumulative.countP (· ≤ u) = place ↔ d.Covers place u := by
  by_cases hplace : place < d.elements.length
  · have hplace' : place < d.probabilities.length := d.length_probabilities.symm ▸ hplace
    rw [hd.cumulative_eq, countP_runningSums_eq_iff hd.nonneg le_rfl hu hplace', zero_add, zero_add]
    exact ⟨fun h => ⟨hplace, h.1, h.2⟩, fun h => ⟨h.reached, h.notPassed⟩⟩
  · refine iff_of_false (fun hcount => hplace ?_) fun h => hplace h.isPlace
    exact hcount ▸ hd.countP_cumulative_lt hu'

theorem pick?_eq (hd : d.Normalized) {u : Rat} (hu : 0 ≤ u) (hu' : u < 1) {place : Nat}
    (h : d.Covers place u) : d.pick? u = d.elements[place]? := by
  rw [pick?, (countP_cumulative_eq_iff hd hu hu' place).2 h]

/-- A number below one picks an element. -/
theorem exists_pick (d : Distribution Rat) {u : Rat} (hu : u < 1) : ∃ v, d.pick? u = some v :=
  ⟨_, List.getElem?_eq_getElem (d.normalized.countP_cumulative_lt hu)⟩

/-- Every element with a positive probability is at a place that covers some number. -/
theorem exists_covered (hd : d.Normalized) {v : Value} (hv : v ∈ d.support) :
    ∃ place u, 0 ≤ u ∧ u < 1 ∧ d.Covers place u ∧ d.elements[place]? = some v := by
  obtain ⟨entry, hentry, rfl⟩ := List.mem_map.1 hv
  rw [List.mem_filter, decide_eq_true_eq] at hentry
  obtain ⟨hentry, hpos⟩ := hentry
  obtain ⟨place, hplace⟩ := List.mem_iff_getElem?.1 hentry
  have helement : d.elements[place]? = some entry.1 := by
    rw [elements, List.getElem?_map, hplace]
    rfl
  have hprobability : d.probabilities[place]? = some entry.2 := by
    rw [probabilities, List.getElem?_map, hplace]
    rfl
  have hless : d.before place < d.before (place + 1) := by
    rw [← sub_pos, before_succ_sub d hprobability]
    exact hpos
  refine ⟨place, d.before place, hd.before_nonneg place, hless.trans_le (hd.before_le_one _),
    ⟨(List.getElem?_eq_some_iff.1 helement).1, le_rfl, hless⟩, helement⟩

theorem exists_number {v : Value} (hv : v ∈ d.support) :
    ∃ u, 0 ≤ u ∧ u < 1 ∧ d.pick? u = some v := by
  have hd := d.normalized
  obtain ⟨place, u, hu, hu', hcovers, helement⟩ := exists_covered hd hv
  exact ⟨u, hu, hu', (pick?_eq hd hu hu' hcovers).trans helement⟩

/-! ### Elements that occur more than once -/

theorem mem_placesOf {place : Nat} {v : Value} :
    place ∈ d.placesOf v ↔ ∃ w, d.elements[place]? = some w ∧ (w == v) = true := by
  rw [placesOf, List.mem_filter, List.mem_range, Option.any_eq_true]
  refine and_iff_right_of_imp ?_
  rintro ⟨w, hw, -⟩
  exact (List.getElem?_eq_some_iff.1 hw).1

/-- The numbers found at the places where a test succeeds are those of the entries that pass it. -/
theorem map_filter_range (entries : List (Value × Rat)) (test : Value → Bool) :
    ((List.range entries.length).filter fun i => (entries.map (·.1))[i]?.any test).map
        (fun i => (entries.map (·.2))[i]?.getD 0) =
      (entries.filter fun entry => test entry.1).map (·.2) := by
  induction entries with
  | nil => rfl
  | cons entry entries ih =>
      rw [List.length_cons, List.range_succ_eq_map, List.filter_cons, List.filter_map]
      cases htest : test entry.1 with
      | true => simpa [htest, Function.comp_def] using ih
      | false => simpa [htest, Function.comp_def] using ih

/-- The intervals of a value are as long together as the value is probable. -/
theorem lengthOf_eq (d : Distribution Rat) (v : Value) :
    d.lengthOf v = (d.probabilityOf? v).getD 0 := by
  have hlengths : (d.placesOf v).map (fun place => d.before (place + 1) - d.before place) =
      (d.placesOf v).map fun place => d.probabilities[place]?.getD 0 := by
    refine List.map_congr_left fun place hplace => ?_
    obtain ⟨w, hw, -⟩ := mem_placesOf.1 hplace
    have hlength := (List.getElem?_eq_some_iff.1 hw).1
    rw [← d.length_probabilities] at hlength
    rw [before_succ_sub d (List.getElem?_eq_getElem hlength), List.getElem?_eq_getElem hlength]
    rfl
  have hentries : (d.placesOf v).map (fun place => d.probabilities[place]?.getD 0) =
      (d.entries.filter (·.1 == v)).map (·.2) := by
    have hcount : d.elements.length = d.entries.length := List.length_map ..
    rw [placesOf, hcount]
    exact map_filter_range d.entries (· == v)
  rw [lengthOf, hlengths, hentries, probabilityOf?]
  cases (d.entries.filter (·.1 == v)).map (·.2) with
  | nil => rfl
  | cons p ps => exact List.sum_eq_foldl

/-! ### Draws -/

/-- A distribution is drawn from by inverting the sums of its probabilities. -/
theorem invertsSums (d : Distribution Rat) : d.InvertsSums where
  covered {u} hu hu' := by
    have hplace := countP_cumulative_eq_iff d.normalized hu hu'
    exact ⟨_, (hplace _).1 rfl, fun place hcovers => ((hplace place).2 hcovers).symm⟩
  place_iff hu hu' place := countP_cumulative_eq_iff d.normalized hu hu' place
  drawn {σ uniform s place} hu hu' hplace := by
    obtain ⟨v, hv⟩ := d.exists_pick hu'
    refine ⟨v, mem_support_of_pick d.isProper_eq_true hu hv, ?_, ?_⟩
    · rw [← pick?_eq d.normalized hu hu' hplace, hv]
    · exact sample_eq_ok_iff.2 ⟨d.isProper_eq_true, hv, rfl⟩
  reached hv := exists_covered d.normalized hv
  equal_iff {σ uniform s} hu hu' v := by
    constructor
    · rintro ⟨w, s', hsample, heq⟩
      obtain ⟨-, hw, -⟩ := sample_eq_ok_iff.1 hsample
      have hplace := countP_cumulative_eq_iff d.normalized hu hu'
      exact ⟨_, mem_placesOf.2 ⟨w, hw, heq⟩, (hplace _).1 rfl⟩
    · rintro ⟨place, hplace, hcovers⟩
      obtain ⟨w, hw, heq⟩ := mem_placesOf.1 hplace
      rw [← pick?_eq d.normalized hu hu' hcovers] at hw
      exact ⟨w, _, sample_eq_ok_iff.2 ⟨d.isProper_eq_true, hw, rfl⟩, heq⟩
  length v := lengthOf_eq d v

/-- A distribution is made of any weights of which none is negative and some are positive. Its
probabilities are shares of one that do not depend on the scale of the weights, and draws invert the
sums of them. -/
theorem draws_invert_sums (weighted : List (Value × Rat)) :
    ((∃ d, ofWeights weighted = .ok d) ↔
      weighted ≠ [] ∧ (∀ entry ∈ weighted, 0 ≤ entry.2) ∧ ∃ entry ∈ weighted, 0 < entry.2) ∧
    ∀ d, ofWeights weighted = .ok d →
      d.elements = weighted.map (·.1) ∧ d.Normalized ∧
      (∀ c : Rat, 0 < c → ofWeights (weighted.map fun (v, w) => (v, c * w)) = .ok d) ∧
      d.InvertsSums := by
  refine ⟨⟨?_, fun hweights => ⟨_, ofWeights_eq_ok_iff.2 ⟨inOrder_iff.2 hweights, rfl⟩⟩⟩,
    fun d h => ⟨?_, d.normalized, fun c hc => ofWeights_scaled h hc, d.invertsSums⟩⟩
  · rintro ⟨d, h⟩
    exact inOrder_iff.1 (ofWeights_eq_ok_iff.1 h).1
  · obtain ⟨horder, rfl⟩ := ofWeights_eq_ok_iff.1 h
    simp only [elements, Weights.InOrder.distribution, Weights.shares, List.map_map,
      Function.comp_def]

/-- Two values, one of them twice, between elements that have no probability. -/
def padded : List (Value × Rat) :=
  [(.int 7, 0), (.int 1, 1), (.int 2, 0), (.int 3, 2), (.int 1, 3), (.int 8, 0)]

/-- A number at which an interval ends belongs to the next one that is not empty. -/
theorem padded_inverts_sums :
    ∃ d, ofWeights padded = .ok d ∧ d.Covers 1 0 ∧ d.Covers 3 (1 / 6) ∧
      (∃ v ∈ d.support, d.elements[3]? = some v ∧
        (d.sample fun () => ((1 / 6 : Rat), ())).start () = (.ok v, ())) ∧
      d.lengthOf (.int 1) = 2 / 3 := by
  have hweights : padded ≠ [] ∧ (∀ entry ∈ padded, 0 ≤ entry.2) ∧ ∃ entry ∈ padded, 0 < entry.2 :=
    ⟨by decide, by decide, by decide⟩
  obtain ⟨d, hd⟩ := (draws_invert_sums padded).1.2 hweights
  have hinverts := ((draws_invert_sums padded).2 d hd).2.2.2
  obtain ⟨horder, rfl⟩ := ofWeights_eq_ok_iff.1 hd
  have hsixth : (0 : Rat) ≤ 1 / 6 ∧ (1 / 6 : Rat) < 1 := by decide +kernel
  have hcovers := (hinverts.place_iff hsixth.1 hsixth.2 3).1 (by with_unfolding_all rfl)
  refine ⟨_, hd, (hinverts.place_iff le_rfl zero_lt_one 1).1 ?_, hcovers,
    hinverts.drawn hsixth.1 hsixth.2 hcovers, (hinverts.length (.int 1)).trans ?_⟩
  · with_unfolding_all rfl
  · with_unfolding_all rfl

end Distribution

end ExtensiveForm
