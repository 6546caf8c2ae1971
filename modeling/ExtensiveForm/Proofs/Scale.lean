import Mathlib.Algebra.Order.Field.Rat
import ExtensiveForm.Random.Scale

/-!
# Laws of scales

What can be relied on when weights are added and divided: sums and quotients of what is not negative
are not negative, and both only grow with what is added or divided. Rounding does not break these
laws, and neither does a sum that is too large for the scale, as long as nothing is said about what
is no number. So whatever follows from them holds of doubles as well as of exact numbers.
-/

namespace ExtensiveForm

/-- The laws of a scale that rounding does not break. -/
class Scale.Ordered (ω : Type) [Scale ω] : Prop where
  zero_le_zero : (0 : ω) ≤ 0
  le_trans {a b c : ω} (h : a ≤ b) (h' : b ≤ c) : a ≤ c
  lt_of_lt_of_le {a b c : ω} (h : a < b) (h' : b ≤ c) : a < c
  nonneg_of_not_neg {a : ω} (hfinite : Scale.isFinite a = true) (h : ¬ a < 0) : 0 ≤ a
  le_add_right {a b : ω} (ha : 0 ≤ a) (hb : 0 ≤ b) : a ≤ a + b
  le_add_left {a b : ω} (ha : 0 ≤ a) (hb : 0 ≤ b) : b ≤ a + b
  add_le_of_not_pos {a b : ω} (ha : 0 ≤ a) (hb : 0 ≤ b) (h : ¬ 0 < b) : a + b ≤ a
  div_nonneg {a b : ω} (hfinite : Scale.isFinite a = true) (ha : 0 ≤ a) (hb : 0 < b) : 0 ≤ a / b
  pos_of_div_pos {a b : ω} (ha : 0 ≤ a) (hb : ¬ b ≤ 0) (h : 0 < a / b) : 0 < b
  div_le_of_le {a b c u : ω} (ha : 0 ≤ a) (h : a ≤ b) (hc : 0 < c) (hu : b / c ≤ u) : a / c ≤ u
  zero_div_le {c u : ω} (hc : 0 < c) (hu : 0 ≤ u) : 0 / c ≤ u

/-- Exact numbers obey the laws of an ordered field. -/
instance : Scale.Ordered Rat where
  zero_le_zero := le_rfl
  le_trans := le_trans
  lt_of_lt_of_le := lt_of_lt_of_le
  nonneg_of_not_neg _ h := not_lt.1 h
  le_add_right _ hb := le_add_of_nonneg_right hb
  le_add_left ha _ := le_add_of_nonneg_left ha
  add_le_of_not_pos _ _ h := add_le_of_nonpos_right (not_lt.1 h)
  div_nonneg _ ha hb := div_nonneg ha (le_of_lt hb)
  pos_of_div_pos _ hb _ := not_le.1 hb
  div_le_of_le _ h hc hu := (div_le_div_of_nonneg_right h (le_of_lt hc)).trans hu
  zero_div_le {c _} _ hu := (zero_div c).le.trans hu

/-- The laws of equality on a scale: weights that are equal are both positive or neither. -/
class Scale.Comparable (ω : Type) [Scale ω] : Prop where
  beq_symm {a b : ω} (h : (a == b) = true) : (b == a) = true
  beq_trans {a b c : ω} (h : (a == b) = true) (h' : (b == c) = true) : (a == c) = true
  pos_of_beq {a b : ω} (h : (a == b) = true) (ha : 0 < a) : 0 < b

/-- Exact numbers that are equal are one. -/
instance : Scale.Comparable Rat where
  beq_symm h := beq_iff_eq.2 (eq_of_beq h).symm
  beq_trans h h' := beq_iff_eq.2 ((eq_of_beq h).trans (eq_of_beq h'))
  pos_of_beq h ha := eq_of_beq h ▸ ha

end ExtensiveForm
