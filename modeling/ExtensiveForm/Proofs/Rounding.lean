import Mathlib.Algebra.Order.Field.Power
import Mathlib.Algebra.Order.Field.Rat
import Mathlib.Tactic.FieldSimp
import Mathlib.Tactic.Linarith
import Mathlib.Tactic.NormNum

/-!
# Rounding to doubles

How a positive number is rounded to the nearest double. The number is divided by a power of two, the
step, which is as small as 53 bits for the quotient allow, and the quotient is cut off after its
whole part. Two bits tell how much was cut off, and decide whether the whole part goes up by one.

The doubles that are not negative stand in one row, and the place in this row, the rank, is what a
number is rounded to. `Rounds.mono` is the main result: a larger number has no lower rank.
-/

namespace ExtensiveForm

open Float.Model Float.Model.UnpackedFloat

/-! ### Cutting off -/

/-- The mantissa is the whole part of a number. Of the two bits after it, the first tells whether at
least a half was cut off, and the second whether it was neither nothing nor a half. -/
structure Cuts (em : ExtendedMantissa) (x : Rat) : Prop where
  le : (em.mantissa : Rat) ≤ x
  lt : x < em.mantissa + 1
  half : em.roundBit = true ↔ em.mantissa + 1 / 2 ≤ x
  between : em.stickyBit = true ↔ x ≠ em.mantissa ∧ x ≠ em.mantissa + 1 / 2

namespace Cuts

variable {em em' : ExtendedMantissa} {x y : Rat}

/-- The bits tell of the rest that is cut off. -/
theorem of_rest {m : Nat} {r s : Bool} {rest : Rat} (hzero : 0 ≤ rest) (hone : rest < 1)
    (hhalf : r = true ↔ 1 / 2 ≤ rest) (hbetween : s = true ↔ rest ≠ 0 ∧ rest ≠ 1 / 2) :
    Cuts ⟨m, r, s⟩ (m + rest) where
  le := le_add_of_nonneg_right hzero
  lt := (add_lt_add_iff_left _).2 hone
  half := hhalf.trans (add_le_add_iff_left _).symm
  between := hbetween.trans (by simp only [ne_eq, add_eq_left, add_right_inj])

/-- Nothing is cut off of a whole number. -/
theorem whole (m : Nat) : Cuts ⟨m, false, false⟩ m := by
  have hcuts : Cuts ⟨m, false, false⟩ (m + 0) :=
    of_rest le_rfl one_pos (by norm_num) (by norm_num)
  rwa [add_zero] at hcuts

/-- Both bits are off when nothing was cut off. -/
theorem inexact (h : Cuts em x) :
    (em.roundBit || em.stickyBit) = true ↔ x ≠ em.mantissa := by
  rw [Bool.or_eq_true, h.half, h.between]
  constructor
  · rintro (hhalf | ⟨hne, -⟩)
    · intro heq
      linarith
    · exact hne
  · intro hne
    by_cases hhalf : (em.mantissa : Rat) + 1 / 2 ≤ x
    · exact .inl hhalf
    · exact .inr ⟨hne, fun heq => hhalf heq.ge⟩

/-- Dividing by two cuts off one more bit. -/
theorem shiftRightOne (h : Cuts em x) : Cuts em.shiftRightOne (x / 2) := by
  have hle := h.le
  have hlt := h.lt
  have hparts : (em.mantissa : Rat) = 2 * (em.mantissa / 2 : Nat) + (em.mantissa % 2 : Nat) := by
    exact_mod_cast (Nat.div_add_mod em.mantissa 2).symm
  rcases Nat.mod_two_eq_zero_or_one em.mantissa with hbit | hbit <;>
    rw [hbit] at hparts <;> push_cast at hparts
  · refine ⟨?_, ?_, ?_, h.inexact.trans ?_⟩ <;>
      simp only [ExtendedMantissa.shiftRightOne, hbit]
    · linarith
    · linarith
    · simp only [bne_self_eq_false, Bool.false_eq_true, false_iff, not_le]
      linarith
    · constructor
      · intro hne
        exact ⟨fun heq => hne (by linarith), fun heq => by linarith⟩
      · rintro ⟨hne, -⟩ heq
        exact hne (by linarith)
  · refine ⟨?_, ?_, ?_, h.inexact.trans ?_⟩ <;>
      simp only [ExtendedMantissa.shiftRightOne, hbit]
    · linarith
    · linarith
    · simp only [Nat.one_ne_zero, bne_iff_ne, ne_eq, not_false_eq_true, true_iff]
      linarith
    · constructor
      · intro hne
        exact ⟨fun heq => by linarith, fun heq => hne (by linarith)⟩
      · rintro ⟨-, hne⟩ heq
        exact hne (by linarith)

theorem shiftRight (h : Cuts em x) (count : Nat) : Cuts (em >>> count) (x / 2 ^ count) := by
  show Cuts (count.repeat ExtendedMantissa.shiftRightOne em) _
  induction count with
  | zero => simpa [Nat.repeat] using h
  | succ count ih =>
      rw [Nat.repeat, pow_succ, ← div_div]
      exact ih.shiftRightOne

/-- The whole part goes up by at most one. -/
theorem rounded_bounds (em : ExtendedMantissa) :
    em.mantissa ≤ em.roundedMantissa ∧ em.roundedMantissa ≤ em.mantissa + 1 := by
  rcases em with ⟨m, _ | _, _ | _⟩ <;>
    simp only [ExtendedMantissa.roundedMantissa, ExtendedMantissa.accuracy,
      Accuracy.roundToNearestEven] <;> omega

/-- A larger number is rounded to no smaller one. -/
theorem rounded_mono (h : Cuts em x) (h' : Cuts em' y) (hxy : x ≤ y) :
    em.roundedMantissa ≤ em'.roundedMantissa := by
  have hwhole : em.mantissa < em'.mantissa + 1 := by
    exact_mod_cast lt_of_le_of_lt (h.le.trans hxy) h'.lt
  have hbounds := rounded_bounds em
  have hbounds' := rounded_bounds em'
  rcases Nat.lt_or_eq_of_le (Nat.le_of_lt_succ hwhole) with hless | hsame
  · omega
  -- With the same whole part, more is cut off of the larger number.
  have hhalf := h.half
  have hbetween := h.between
  have hhalf' := h'.half
  have hbetween' := h'.between
  rcases em with ⟨m, r, s⟩
  rcases em' with ⟨m', r', s'⟩
  obtain rfl : m = m' := hsame
  have hround : r = true → r' = true := fun hr => hhalf'.2 ((hhalf.1 hr).trans hxy)
  have hsticky : r = true → s = true → s' = true := fun hr hs => by
    have hmore : (m : Rat) + 1 / 2 < y :=
      lt_of_lt_of_le (lt_of_le_of_ne (hhalf.1 hr) (hbetween.1 hs).2.symm) hxy
    exact hbetween'.2 ⟨fun heq => by linarith, fun heq => by linarith⟩
  cases r <;> cases s <;> cases r' <;> cases s' <;>
    simp only [ExtendedMantissa.roundedMantissa, ExtendedMantissa.accuracy,
      Accuracy.roundToNearestEven] at * <;> first | omega | simp at hround hsticky

end Cuts

/-! ### Ranks -/

/-- The number is rounded to the double of this rank: the step is the smallest one there is, or the
quotient has 53 bits. -/
def Rounds (x : Rat) (rank : Int) : Prop :=
  ∃ (e : Int) (em : ExtendedMantissa), Cuts em (x / 2 ^ e) ∧ -1074 ≤ e ∧ em.mantissa < 2 ^ 53 ∧
    (e = -1074 ∨ 2 ^ 52 ≤ em.mantissa) ∧ rank = (e + 1074) * 2 ^ 52 + em.roundedMantissa

namespace Rounds

variable {x y : Rat} {i j : Int}

/-- A larger number has no smaller step. -/
theorem step_mono {e f : Int} {em fm : ExtendedMantissa} (hcuts : Cuts em (x / 2 ^ e))
    (hfew : em.mantissa < 2 ^ 53) (hcuts' : Cuts fm (y / 2 ^ f))
    (hmany : f = -1074 ∨ 2 ^ 52 ≤ fm.mantissa) (he : -1074 ≤ e) (hyx : y ≤ x) : f ≤ e := by
  by_contra hless
  have hf : (2 : Rat) ^ 52 ≤ fm.mantissa := by exact_mod_cast hmany.resolve_left (by omega)
  have hm : (em.mantissa : Rat) + 1 ≤ 2 ^ 53 := by exact_mod_cast hfew
  have hx : x < 2 ^ 53 * 2 ^ e :=
    (div_lt_iff₀ (zpow_pos two_pos e)).1 (lt_of_lt_of_le hcuts.lt hm)
  have hy : 2 ^ 52 * 2 ^ f ≤ y := (le_div_iff₀ (zpow_pos two_pos f)).1 (hf.trans hcuts'.le)
  have hsteps : (2 : Rat) ^ (e + 1) ≤ 2 ^ f := zpow_le_zpow_right₀ one_le_two (by omega)
  rw [zpow_add_one₀ two_ne_zero] at hsteps
  linarith

/-- A larger number has no lower rank. -/
theorem mono (h : Rounds x i) (h' : Rounds y j) (hxy : x ≤ y) : i ≤ j := by
  obtain ⟨e, em, hcuts, hmin, hfew, hmany, rfl⟩ := h
  obtain ⟨f, fm, hcuts', hmin', hfew', hmany', rfl⟩ := h'
  have hstep := step_mono hcuts' hfew' hcuts hmany hmin' hxy
  rcases Int.lt_or_eq_of_le hstep with hless | rfl
  · -- The whole part of the smaller number ends where that of the larger one begins.
    have hbounds := Cuts.rounded_bounds em
    have hbounds' := Cuts.rounded_bounds fm
    have hf := hmany'.resolve_left (by omega)
    omega
  · have hsame := hcuts.rounded_mono hcuts' (div_le_div_of_nonneg_right hxy (zpow_pos two_pos e).le)
    omega

theorem nonneg (h : Rounds x i) : 0 ≤ i := by
  obtain ⟨e, em, -, hmin, -, -, rfl⟩ := h
  omega

/-- A number with a mantissa of its own is rounded to itself. -/
theorem exact {m : Nat} {e : Int} (hmin : -1074 ≤ e) (hfew : m < 2 ^ 53)
    (hmany : e = -1074 ∨ 2 ^ 52 ≤ m) : Rounds (m * 2 ^ e) ((e + 1074) * 2 ^ 52 + m) := by
  refine ⟨e, ⟨m, false, false⟩, ?_, hmin, hfew, hmany, rfl⟩
  rw [mul_div_cancel_right₀ _ (zpow_ne_zero e two_ne_zero)]
  exact Cuts.whole m

end Rounds

namespace UnpackedDouble

/-- The place of a double in the row of all doubles, from the negative infinity to the positive one.
Both zeros stand at one place, and what is no number stands nowhere. -/
def rank? : UnpackedFloat → Option Int
  | .infinity s => some (s.apply (2047 * 2 ^ 52))
  | .notANumber => none
  | .zero _ => some 0
  | .finite s m e _ => some (s.apply ((e + 1074) * 2 ^ 52 + m))

/-- A finite number has the smallest step there is, or a mantissa of 53 bits. -/
def Fits : UnpackedFloat → Prop
  | .finite _ m e _ => -1074 ≤ e ∧ m < 2 ^ 53 ∧ (e = -1074 ∨ 2 ^ 52 ≤ m)
  | _ => True

/-- This is the double that the number is rounded to. -/
def IsRounded (x : Rat) (u : UnpackedFloat) : Prop :=
  Fits u ∧ ∃ rank, Rounds x rank ∧ rank? u = some rank

/-! ### The operations that round -/

variable {x : Rat} {m : Nat} {e : Int} {a : Accuracy}

theorem targetExponent_binary64 (bits : Int) :
    Format.binary64.targetExponent bits = max (bits - 53) (-1074) := rfl

theorem targetExponent_eq (m : Nat) (e : Int) :
    Format.binary64.targetExponent (totalExponent m e) = max (m.log2 + e - 52) (-1074) := by
  rw [targetExponent_binary64, totalExponent]
  omega

theorem shiftRight_mantissa (em : ExtendedMantissa) (count : Nat) :
    (em >>> count).mantissa = em.mantissa / 2 ^ count := by
  show (count.repeat ExtendedMantissa.shiftRightOne em).mantissa = _
  induction count with
  | zero => simp [Nat.repeat]
  | succ count ih =>
      rw [Nat.repeat, ExtendedMantissa.shiftRightOne, ih, Nat.div_div_eq_div_mul, pow_succ]

theorem mantissa_ofMantissaAndAccuracy (m : Nat) (a : Accuracy) :
    (ExtendedMantissa.ofMantissaAndAccuracy m a).mantissa = m := by
  rcases a with _ | _ | _ | _ <;> rfl

/-- A mantissa of at most 53 bits is left as it is. -/
theorem shiftToTargetExponent_few (hmin : -1074 ≤ e) (hfew : m < 2 ^ 53) :
    shiftToTargetExponent Format.binary64 m e .exact = (⟨m, false, false⟩, e) := by
  have hbits : m.log2 < 53 := by
    rcases Nat.eq_zero_or_pos m with rfl | hpos
    · decide
    · exact (Nat.log2_lt hpos.ne').2 hfew
  have hshift : (max (m.log2 + e - 52) (-1074) - e).toNat = 0 := by omega
  simp only [shiftToTargetExponent, targetExponent_eq, shiftToExponent, hshift]
  exact congrArg (Prod.mk _) (add_zero e)

/-- A mantissa that rounding has made one bit too long is halved. -/
theorem shiftToTargetExponent_full (hmin : -1074 ≤ e) :
    shiftToTargetExponent Format.binary64 (2 ^ 53) e .exact = (⟨2 ^ 52, false, false⟩, e + 1) := by
  have hshift : (max (((2 ^ 53 : Nat).log2 : Int) + e - 52) (-1074) - e).toNat = 1 := by
    rw [Nat.log2_two_pow]
    omega
  simp only [shiftToTargetExponent, targetExponent_eq, shiftToExponent, hshift]
  rfl

/-- A mantissa that rounding may have made one bit too long gets the right length, and the rank
stays as it is. -/
theorem shiftToTargetExponent_rounded (hmin : -1074 ≤ e) (hfew : m ≤ 2 ^ 53)
    (hmany : e = -1074 ∨ 2 ^ 52 ≤ m) :
    ∃ n f, shiftToTargetExponent Format.binary64 m e .exact = (⟨n, false, false⟩, f) ∧
      -1074 ≤ f ∧ n < 2 ^ 53 ∧ (f = -1074 ∨ 2 ^ 52 ≤ n) ∧
      (f + 1074) * 2 ^ 52 + n = (e + 1074) * 2 ^ 52 + m := by
  rcases Nat.lt_or_eq_of_le hfew with hless | rfl
  · exact ⟨m, e, shiftToTargetExponent_few hmin hless, hmin, hless, hmany, rfl⟩
  · exact ⟨2 ^ 52, e + 1, shiftToTargetExponent_full hmin, by omega, by omega, .inr le_rfl,
      by omega⟩

/-- A mantissa that was cut off with bits enough is cut off at the step of the number. -/
theorem shiftToTargetExponent_cuts
    (hcuts : Cuts (.ofMantissaAndAccuracy m a) (x / 2 ^ e)) (henough : 2 ^ 52 ≤ m ∨ e ≤ -1074) :
    ∃ em f, shiftToTargetExponent Format.binary64 m e a = (em, f) ∧ Cuts em (x / 2 ^ f) ∧
      -1074 ≤ f ∧ em.mantissa < 2 ^ 53 ∧ (f = -1074 ∨ 2 ^ 52 ≤ em.mantissa) := by
  have hlog : 52 ≤ m.log2 ∨ e ≤ -1074 :=
    henough.imp_left fun hm => (Nat.le_log2 (by omega)).2 hm
  obtain ⟨count, hcount⟩ : ∃ count : Nat, e + count = max (m.log2 + e - 52) (-1074) :=
    ⟨(max (m.log2 + e - 52) (-1074) - e).toNat, by omega⟩
  have hmantissa := shiftRight_mantissa (ExtendedMantissa.ofMantissaAndAccuracy m a) count
  rw [mantissa_ofMantissaAndAccuracy] at hmantissa
  refine ⟨ExtendedMantissa.ofMantissaAndAccuracy m a >>> count, e + count, ?_, ?_, by omega, ?_, ?_⟩
  · have hshift : (max (m.log2 + e - 52) (-1074) - e).toNat = count := by omega
    simp only [shiftToTargetExponent, targetExponent_eq, shiftToExponent, hshift]
  · rw [zpow_add₀ two_ne_zero, zpow_natCast, ← div_div]
    exact hcuts.shiftRight count
  · rw [hmantissa, Nat.div_lt_iff_lt_mul (by positivity), ← pow_add]
    exact lt_of_lt_of_le Nat.lt_log2_self (Nat.pow_le_pow_right two_pos (by omega))
  · by_cases hleast : e + count = -1074
    · exact .inl hleast
    · have hm : m ≠ 0 := by
        rintro rfl
        rw [Nat.log2_zero] at hcount hlog
        omega
      rw [hmantissa, Nat.le_div_iff_mul_le (by positivity), ← pow_add]
      exact .inr ((Nat.pow_le_pow_right two_pos (by omega)).trans (Nat.log2_self_le hm))

/-- The number with a mantissa and a step. -/
def ofMantissa (s : Sign) (em : ExtendedMantissa) (e : Int) : UnpackedFloat :=
  if h : em.mantissa = 0 then .zero s
  else .finite s em.mantissa e (Nat.pos_of_ne_zero h)

theorem roundWithAccuracy_eq {s : Sign} {em fm : ExtendedMantissa} {f g : Int}
    (hfirst : shiftToTargetExponent Format.binary64 m e a = (em, f))
    (hsecond : shiftToTargetExponent Format.binary64 em.roundedMantissa f .exact = (fm, g)) :
    roundWithAccuracy Format.binary64 s m e a = ofMantissa s fm g := by
  have hlast : shiftToTargetExponent Format.binary64
      (shiftToTargetExponent Format.binary64 m e a).1.roundedMantissa
      (shiftToTargetExponent Format.binary64 m e a).2 .exact = (fm, g) := by
    rw [hfirst]
    exact hsecond
  exact congrArg (fun last : ExtendedMantissa × Int => ofMantissa s last.1 last.2) hlast

/-- Rounding a mantissa with an accuracy rounds the number that they were cut off of, if there are
bits enough. -/
theorem roundWithAccuracy_isRounded
    (hcuts : Cuts (.ofMantissaAndAccuracy m a) (x / 2 ^ e)) (henough : 2 ^ 52 ≤ m ∨ e ≤ -1074) :
    IsRounded x (roundWithAccuracy Format.binary64 .positive m e a) := by
  obtain ⟨em, f, hfirst, hshifted, hmin, hfew, hmany⟩ := shiftToTargetExponent_cuts hcuts henough
  have hbounds := Cuts.rounded_bounds em
  obtain ⟨n, g, hsecond, hmin', hfew', hmany', hrank⟩ := shiftToTargetExponent_rounded
    (m := em.roundedMantissa) hmin (by omega) (hmany.imp_right hbounds.1.trans')
  have hrounds : Rounds x ((g + 1074) * 2 ^ 52 + n) :=
    ⟨f, em, hshifted, hmin, hfew, hmany, hrank⟩
  rw [roundWithAccuracy_eq hfirst hsecond, ofMantissa]
  by_cases hzero : n = 0
  · subst hzero
    rw [dif_pos rfl]
    refine ⟨trivial, _, hrounds, congrArg some ?_⟩
    omega
  · rw [dif_neg hzero]
    exact ⟨⟨hmin', hfew', hmany'⟩, _, hrounds, rfl⟩

/-- A number with any mantissa is rounded. -/
theorem round_isRounded (hm : m ≠ 0) (e : Int) :
    IsRounded (m * 2 ^ e) (UnpackedFloat.round Format.binary64 .positive m e) := by
  simp only [UnpackedFloat.round, decreaseExponent, targetExponent_eq, Nat.shiftLeft_eq]
  generalize hcount : (e - max (m.log2 + e - 52) (-1074)).toNat = count
  refine roundWithAccuracy_isRounded ?_ ?_
  · have hwhole : (m : Rat) * 2 ^ e / 2 ^ (e - count) = (m * 2 ^ count : Nat) := by
      rw [zpow_sub₀ two_ne_zero, zpow_natCast]
      push_cast
      field_simp
    rw [hwhole]
    exact Cuts.whole _
  · by_cases hleast : e - count ≤ -1074
    · exact .inr hleast
    · refine .inl (le_trans ?_ (Nat.mul_le_mul_right _ (Nat.log2_self_le hm)))
      rw [← pow_add]
      exact Nat.pow_le_pow_right two_pos (by omega)

/-- The accuracy of a quotient tells how much was cut off of it. -/
theorem cuts_quotient (n : Nat) {d : Nat} (hd : 0 < d) :
    Cuts (.ofMantissaAndAccuracy (n / d) (accuracyOfFraction (n % d) d)) (n / d) := by
  have hpos : (0 : Rat) < d := by exact_mod_cast hd
  have hrest : n % d < d := Nat.mod_lt n hd
  obtain ⟨rest, hless, hparts⟩ : ∃ rest : Rat, rest = (n % d : Nat) / d ∧
      (n : Rat) / d = (n / d : Nat) + rest := by
    refine ⟨_, rfl, ?_⟩
    rw [eq_comm, ← mul_left_inj' hpos.ne', add_mul, div_mul_cancel₀ _ hpos.ne',
      div_mul_cancel₀ _ hpos.ne']
    exact_mod_cast Nat.div_add_mod' n d
  rw [hparts]
  unfold accuracyOfFraction
  split
  · rename_i hzero
    rw [hless, hzero, Nat.cast_zero, zero_div, add_zero]
    exact Cuts.whole _
  rename_i hzero
  have hmore : 0 < rest := by
    rw [hless]
    exact div_pos (by exact_mod_cast Nat.pos_of_ne_zero hzero) hpos
  have hone : rest < 1 := by
    rw [hless, div_lt_one₀ hpos]
    exact_mod_cast hrest
  rcases lt_trichotomy (2 * (n % d)) d with hcase | hcase | hcase
  · have hhalf : rest < 1 / 2 := by
      rw [hless, div_lt_div_iff₀ hpos two_pos]
      exact_mod_cast (by omega : n % d * 2 < 1 * d)
    rw [Nat.compare_eq_lt.2 hcase]
    exact Cuts.of_rest hmore.le hone (by simpa using hhalf)
      ⟨fun _ => ⟨hmore.ne', hhalf.ne⟩, fun _ => rfl⟩
  · have hhalf : rest = 1 / 2 := by
      rw [hless, div_eq_div_iff hpos.ne' two_ne_zero]
      exact_mod_cast (by omega : n % d * 2 = 1 * d)
    rw [Nat.compare_eq_eq.2 hcase]
    exact Cuts.of_rest hmore.le hone (by simp [hhalf]) (by simp [hhalf])
  · have hhalf : 1 / 2 < rest := by
      rw [hless, div_lt_div_iff₀ two_pos hpos]
      exact_mod_cast (by omega : 1 * d < n % d * 2)
    rw [Nat.compare_eq_gt.2 hcase]
    exact Cuts.of_rest hmore.le hone (by simpa using hhalf.le)
      ⟨fun _ => ⟨hmore.ne', hhalf.ne'⟩, fun _ => rfl⟩

/-- A quotient is rounded. -/
theorem divCore_isRounded {n : Nat} {f : Int} (hm : m ≠ 0) (hn : 0 < n) :
    IsRounded (m * 2 ^ e / (n * 2 ^ f)) (roundWithAccuracy Format.binary64 .positive
      (divCore Format.binary64 m e n f).1 (divCore Format.binary64 m e n f).2.1
      (divCore Format.binary64 m e n f).2.2) := by
  obtain ⟨count, step, hcore, hsum, hstep⟩ : ∃ (count : Nat) (step : Int),
      divCore Format.binary64 m e n f =
        (m * 2 ^ count / n, step, accuracyOfFraction (m * 2 ^ count % n) n) ∧
      e - f = step + count ∧ (step ≤ -1074 ∨ n.log2 + 53 ≤ m.log2 + count) := by
    refine ⟨_, _, by simp only [divCore, Nat.shiftLeft_eq]; rfl, ?_, ?_⟩ <;>
      simp only [targetExponent_binary64, totalExponent] <;>
      omega
  rw [hcore]
  refine roundWithAccuracy_isRounded ?_ (hstep.symm.imp_left fun hbits => ?_)
  · have hshare : (m : Rat) * 2 ^ e / (n * 2 ^ f) / 2 ^ step = (m * 2 ^ count : Nat) / n := by
      have hpowers : (2 : Rat) ^ e / 2 ^ f / 2 ^ step = 2 ^ count := by
        rw [← zpow_sub₀ two_ne_zero, ← zpow_sub₀ two_ne_zero, hsum, add_sub_cancel_left,
          zpow_natCast]
      push_cast
      rw [← hpowers]
      field_simp
    rw [hshare]
    exact cuts_quotient _ hn
  · rw [Nat.le_div_iff_mul_le hn]
    calc 2 ^ 52 * n ≤ 2 ^ 52 * 2 ^ (n.log2 + 1) := Nat.mul_le_mul_left _ Nat.lt_log2_self.le
      _ = 2 ^ (n.log2 + 53) := by rw [← pow_add]; congr 1; omega
      _ ≤ 2 ^ (m.log2 + count) := Nat.pow_le_pow_right two_pos hbits
      _ = 2 ^ m.log2 * 2 ^ count := pow_add _ _ _
      _ ≤ m * 2 ^ count := Nat.mul_le_mul_right _ (Nat.log2_self_le hm)

end UnpackedDouble

end ExtensiveForm
