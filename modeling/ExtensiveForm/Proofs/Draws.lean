import ExtensiveForm.Proofs.Matching
import ExtensiveForm.Proofs.Scale

/-!
# Draws from distributions

An element that is drawn has a positive probability, in spite of rounding: the element that a number
picks is the first one whose cumulative probability lies above the number, so this probability lies
above the one before it. With exact numbers, equal distributions give equal elements for the same
number.
-/

namespace ExtensiveForm

namespace Distribution

/-- A distribution is made of weights that are in order. -/
theorem ofWeights_eq_ok_iff {ω : Type} [Scale ω] {weights : Weights ω} {d : Distribution ω} :
    ofWeights weights = .ok d ↔ ∃ h : weights.InOrder, d = h.distribution := by
  constructor
  · intro h
    unfold ofWeights at h
    dsimp only at h
    split at h
    · cases h
    rename_i nonempty
    split at h
    · rename_i finite
      split at h
      · rename_i nonneg
        split at h
        · cases h
        · rename_i positive
          cases h
          exact ⟨⟨nonempty, finite, nonneg, positive⟩, rfl⟩
      · cases h
    · cases h
  · rintro ⟨h, rfl⟩
    unfold ofWeights
    rw [dif_neg h.nonempty, dif_pos h.finite, dif_pos h.nonneg, dif_neg h.positive]

/-- A draw takes one number, which picks the element. Nothing is drawn where all probabilities are
zero. -/
theorem sample_eq_ok_iff {ω σ : Type} [Scale ω] {d : Distribution ω} {uniform : StateM σ ω}
    {v : Value} {s s' : σ} :
    (d.sample uniform).start s = (.ok v, s') ↔
      d.isProper = true ∧ d.pick? (uniform s).1 = some v ∧ (uniform s).2 = s' := by
  have huniform : (liftM uniform : Run σ ω).start s = (.ok (uniform s).1, (uniform s).2) := rfl
  unfold sample
  cases hproper : d.isProper with
  | false =>
      constructor
      · intro h
        cases h
      · rintro ⟨⟨⟩, -⟩
  | true =>
      simp only [true_and]
      refine Iff.trans (iff_of_eq (congrArg (· = _) (Run.start_bind_ok huniform))) ?_
      cases d.pick? (uniform s).1 with
      | none =>
          constructor
          · intro h
            cases h
          · rintro ⟨⟨⟩, -⟩
      | some w =>
          constructor
          · intro h
            cases h
            exact ⟨rfl, rfl⟩
          · rintro ⟨⟨⟩, rfl⟩
            rfl

/-- A draw changes the state by taking one number or not at all. -/
theorem sample_keeps {ω σ : Type} [Scale ω] {uniform : StateM σ ω} {I : σ → Prop}
    (h : ∀ s, I s → I (uniform s).2) (d : Distribution ω) : Run.Keeps I (d.sample uniform) := by
  unfold sample
  have hnumber : Run.Keeps I (liftM uniform : Run σ ω) := h
  cases d.isProper with
  | false => exact Run.Keeps.liftM (.error _)
  | true =>
      refine hnumber.bind fun u => ?_
      cases d.pick? u with
      | none => exact Run.Keeps.liftM (.error _)
      | some v => exact Run.Keeps.liftM (.ok v)

section Ordered

variable {ω : Type} [Scale ω] [Scale.Ordered ω] {d : Distribution ω}

open Scale.Ordered

/-- No probability is negative, if any of them is positive. -/
theorem probabilities_nonneg (hproper : d.isProper = true) {p : ω} (hp : p ∈ d.probabilities) :
    0 ≤ p := by
  obtain ⟨weights, hweights, hentries⟩ := d.made
  have hweight {entry : Value × ω} (hentry : entry ∈ weights) : 0 ≤ entry.2 :=
    nonneg_of_not_neg (hweights.finite entry hentry) (hweights.nonneg entry hentry)
  simp only [isProper, probabilities, hentries, Weights.shares, List.map_map, List.any_eq_true,
    List.mem_map, decide_eq_true_eq] at hproper hp
  -- A total that some weight is a positive share of is positive itself.
  obtain ⟨_, ⟨entry, hentry, rfl⟩, hpos⟩ := hproper
  have htotal := pos_of_div_pos (hweight hentry) hweights.positive hpos
  obtain ⟨entry', hentry', rfl⟩ := hp
  exact div_nonneg (hweights.finite entry' hentry') (hweight hentry') htotal

/-- The sums only grow. -/
theorem le_of_mem_runningSums {ps : List ω} (hps : ∀ p ∈ ps, 0 ≤ p) {sum x : ω} (hsum : 0 ≤ sum)
    (hx : x ∈ runningSums sum ps) : sum ≤ x := by
  induction ps generalizing sum with
  | nil => cases hx
  | cons p ps ih =>
      rw [List.forall_mem_cons] at hps
      have hnext := le_add_right hsum hps.1
      rcases List.mem_cons.1 hx with rfl | hx
      · exact hnext
      · exact le_trans hnext (ih hps.2 (le_trans hsum hnext) hx)

/-- The last of the sums is at least as large as each probability. -/
theorem le_last {ps : List ω} (hps : ∀ p ∈ ps, 0 ≤ p) {sum last : ω} (hsum : 0 ≤ sum)
    (hlast : (runningSums sum ps).getLast? = some last) {p : ω} (hp : p ∈ ps) : p ≤ last := by
  -- By induction on the probabilities: whichever comes later only adds to the sum.
  induction ps generalizing sum p with
  | nil => cases hp
  | cons q ps ih =>
      rw [List.forall_mem_cons] at hps
      rw [runningSums] at hlast
      have hnext := le_trans hsum (le_add_right hsum hps.1)
      have hq : q ≤ sum + q := le_add_left hsum hps.1
      cases ps with
      | nil =>
          rw [List.mem_singleton] at hp
          cases hlast
          rwa [hp]
      | cons q' ps =>
          have hlast' : (runningSums (sum + q) (q' :: ps)).getLast? = some last := hlast
          rcases List.mem_cons.1 hp with rfl | hp
          · refine le_trans hq (le_of_mem_runningSums hps.2 hnext ?_)
            exact List.mem_of_getLast? hlast'
          · exact ih hps.2 hnext hlast' hp

/-- The entry after as many as have a sum whose share is not above a number has a positive
probability. -/
theorem pos_of_countP {entries : List (Value × ω)} {sum last u : ω}
    (hentries : ∀ p ∈ entries.map (·.2), 0 ≤ p) (hsum : 0 ≤ sum) (hlast : 0 < last)
    (hshare : sum / last ≤ u) {entry : Value × ω}
    (h : entries[(runningSums sum (entries.map (·.2))).countP (· / last ≤ u)]? = some entry) :
    0 < entry.2 := by
  -- By induction on the entries: the share of the sum before the entries that are left is never
  -- above the number.
  induction entries generalizing sum with
  | nil => cases h
  | cons first entries ih =>
      rw [List.map_cons, List.forall_mem_cons] at hentries
      rw [List.map_cons, runningSums] at h
      have hnext := le_add_right hsum hentries.1
      by_cases hfirst : (sum + first.2) / last ≤ u
      · rw [List.countP_cons_of_pos (by simpa using hfirst), List.getElem?_cons_succ] at h
        exact ih hentries.2 (le_trans hsum hnext) hfirst h
      · have hrest :
            (runningSums (sum + first.2) (entries.map (·.2))).countP (· / last ≤ u) = 0 := by
          refine List.countP_eq_zero.2 fun x hx hle => hfirst ?_
          have hgrown := le_of_mem_runningSums hentries.2 (le_trans hsum hnext) hx
          exact div_le_of_le (le_trans hsum hnext) hgrown hlast (of_decide_eq_true hle)
        rw [List.countP_cons_of_neg (by simpa using hfirst), hrest] at h
        cases h
        by_contra hpos
        have hsame := add_le_of_not_pos hsum hentries.1 hpos
        exact hfirst (div_le_of_le (le_trans hsum hnext) hsame hlast hshare)

/-- The cumulative probabilities are shares of the last sum, which is positive. -/
theorem cumulative_eq (hproper : d.isProper = true) :
    ∃ last, (runningSums 0 d.probabilities).getLast? = some last ∧ 0 < last ∧
      d.cumulative = (runningSums 0 d.probabilities).map (· / last) := by
  obtain ⟨p, hp, hpos⟩ := List.any_eq_true.1 hproper
  rw [decide_eq_true_eq] at hpos
  cases hlast : (runningSums 0 d.probabilities).getLast? with
  | none =>
      cases hempty : d.probabilities with
      | nil =>
          rw [hempty] at hp
          cases hp
      | cons q ps =>
          rw [hempty, List.getLast?_eq_none_iff] at hlast
          cases hlast
  | some last =>
      have hle := le_last (fun p hp => probabilities_nonneg hproper hp) zero_le_zero hlast hp
      refine ⟨last, rfl, lt_of_lt_of_le hpos hle, ?_⟩
      simp only [cumulative, hlast]

/-- A number that is not negative picks an element with a positive probability. -/
theorem mem_support_of_pick (hproper : d.isProper = true) {u : ω} (hu : 0 ≤ u) {v : Value}
    (hv : d.pick? u = some v) : v ∈ d.support := by
  obtain ⟨last, -, hlast, hcumulative⟩ := cumulative_eq hproper
  simp only [pick?, hcumulative, List.countP_map, Function.comp_def, elements, List.getElem?_map,
    Option.map_eq_some_iff] at hv
  obtain ⟨entry, hentry, rfl⟩ := hv
  have hpos := pos_of_countP (fun p hp => probabilities_nonneg hproper hp) zero_le_zero hlast
    (zero_div_le hlast hu) hentry
  exact List.mem_map_of_mem (List.mem_filter.2 ⟨List.mem_of_getElem? hentry, decide_eq_true hpos⟩)

/-- A number from zero on draws only what has a positive probability. -/
theorem mem_support_of_sample {σ : Type} {uniform : StateM σ ω} {v : Value} {s s' : σ}
    (hu : 0 ≤ (uniform s).1) (hsample : (d.sample uniform).start s = (.ok v, s')) :
    v ∈ d.support := by
  obtain ⟨hproper, hpick, -⟩ := sample_eq_ok_iff.1 hsample
  exact mem_support_of_pick hproper hu hpick

end Ordered

variable {d e : Distribution Rat}

/-- Equal distributions give elements that match for the same number. -/
theorem pick?_of_same (h : d.same e = true) (u : Rat) :
    Option.Rel (fun v w => v.alike w = true) (d.pick? u) (e.pick? u) := by
  simp only [same, Bool.and_eq_true] at h
  obtain ⟨helements, hprobabilities⟩ := h
  have hprobabilities' : d.probabilities = e.probabilities := eq_of_beq hprobabilities
  have hcumulative : d.cumulative = e.cumulative := by
    unfold cumulative
    rw [hprobabilities']
  unfold pick?
  rw [hcumulative]
  exact forall₂_getElem? (Value.tuple_beq.1 helements) _

/-- A coin, which falls on both sides with the same probability. -/
def coin (heads tails : Value) : Distribution Rat :=
  have positive : ¬ Scale.total [(1 : Rat), 1] ≤ 0 := by decide +kernel
  have h : Weights.InOrder [(heads, (1 : Rat)), (tails, 1)] :=
    { nonempty := List.cons_ne_nil _ _
      finite := fun _ _ => rfl
      nonneg := by simp
      positive := positive }
  h.distribution

@[simp] theorem support_coin (heads tails : Value) :
    (coin heads tails).support = [heads, tails] := by
  have hshare : 0 < (1 : Rat) / Scale.total [(1 : Rat), 1] := by decide +kernel
  simp only [support, coin, Weights.InOrder.distribution, Weights.shares, Weights.total,
    List.map_cons, List.map_nil, List.filter_cons, List.filter_nil, hshare, decide_true, if_true]

end Distribution

/-- As long as the state is of this sort, chance gets no negative number, and whoever draws or is
asked leaves a state of this sort behind. -/
structure Participants.Fair {ω σ : Type} [Scale ω] (ps : Participants ω σ) (I : σ → Prop) :
    Prop where
  nonneg {s : σ} (hs : I s) : 0 ≤ (ps.uniform s).1
  drawn {s : σ} (hs : I s) : I (ps.uniform s).2
  asked {player : Nat} {ask : Context → Run σ Value} (h : ps.ask player = some ask) (c : Context) :
    Run.Keeps I (ask c)

/-- From related states chance draws the same number, and related states are left. -/
structure Participants.DrawsAlike {σ : Type} (ps : Participants Rat σ) (R : σ → σ → Prop) :
    Prop where
  number {s s' : σ} (h : R s s') : (ps.uniform s).1 = (ps.uniform s').1
  after {s s' : σ} (h : R s s') : R (ps.uniform s).2 (ps.uniform s').2

namespace Participants

/-- Numbers from zero on draw only what has a positive probability. -/
theorem drawsPossible_of_nonneg {ω σ : Type} [Scale ω] [Scale.Ordered ω] {ps : Participants ω σ}
    (h : ∀ s, 0 ≤ (ps.uniform s).1) : ps.DrawsPossible := by
  rintro d v ⟨s, s', hsample⟩
  exact Distribution.mem_support_of_sample (h s) hsample

variable {σ : Type} {ps : Participants Rat σ} {R : σ → σ → Prop}

/-- With exact probabilities, equal distributions draw elements that match. -/
theorem DrawsAlike.draw (h : ps.DrawsAlike R) {d e : Distribution Rat} (hsame : d.same e = true) :
    Run.Carries R (fun v w => v.alike w = true) (d.sample ps.uniform) (e.sample ps.uniform) := by
  intro s s' v s₁ hs hsample
  obtain ⟨hproper, hpick, rfl⟩ := Distribution.sample_eq_ok_iff.1 hsample
  have hproper' : e.isProper = true := by
    simp only [Distribution.same, Bool.and_eq_true] at hsame
    have hprobabilities : d.probabilities = e.probabilities := eq_of_beq hsame.2
    rw [Distribution.isProper, ← hprobabilities]
    exact hproper
  have hpicks := Distribution.pick?_of_same hsame (ps.uniform s).1
  rw [hpick] at hpicks
  cases hpick' : e.pick? (ps.uniform s).1 with
  | none =>
      rw [hpick'] at hpicks
      cases hpicks
  | some w =>
      rw [hpick'] at hpicks
      cases hpicks
      rw [h.number hs] at hpick'
      exact ⟨w, _, Distribution.sample_eq_ok_iff.2 ⟨hproper', hpick', rfl⟩, ‹_›, h.after hs⟩

end Participants

end ExtensiveForm
