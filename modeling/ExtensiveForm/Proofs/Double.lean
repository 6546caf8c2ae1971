import Mathlib.Tactic.Ring
import ExtensiveForm.Proofs.Rounding
import ExtensiveForm.Proofs.Scale

/-!
# Doubles as a scale

Doubles are compared by their ranks, and the rank of a sum or a quotient is that of the rounded
result, cut off at the rank of infinity. So the laws of scales hold of doubles too.
-/

namespace ExtensiveForm

open Float.Model Float.Model.UnpackedFloat

namespace UnpackedDouble

variable {u v : UnpackedFloat} {i j : Int} {m : Nat} {e : Int}

/-! ### Doubles taken apart and put together -/

/-- A double holds the number. -/
def Held (u : UnpackedFloat) : Prop :=
  Fits u ∧ ∀ s m e h, u = .finite s m e h → e ≤ 971

/-- The number that the components of a double stand for. -/
def ofComponents (s : Sign) (exponent : BitVec 11) (mantissa : BitVec 52) : UnpackedFloat :=
  if exponent = -1#11 then
    if mantissa = 0#52 then .infinity s else .notANumber
  else if exponent = 0#11 then
    if h : mantissa = 0#52 then .zero s
    else .finite s mantissa.toNat (-1074) (by simpa [BitVec.toNat_pos, BitVec.pos_iff_ne_zero])
  else .finite s (2 ^ 52 + mantissa.toNat) (exponent.toNat - 1075) (by omega)

theorem finite_congr {s : Sign} {m n : Nat} {e f : Int} {h : 0 < m} {h' : 0 < n} (hm : m = n)
    (he : e = f) : UnpackedFloat.finite s m e h = .finite s n f h' := by
  subst hm he
  rfl

theorem append_implicit (mantissa : BitVec 52) :
    (1#1 ++ mantissa).toNat = 2 ^ 52 + mantissa.toNat := by
  rw [BitVec.toNat_append, ← Nat.shiftLeft_add_eq_or_of_lt mantissa.isLt]
  rfl

theorem unpack_eq (b : BitVec 64) :
    unpack Format.binary64 b = ofComponents (Sign.ofBitVec (@unpackSign Format.binary64 b))
      (@unpackExponent Format.binary64 b) (@unpackMantissa Format.binary64 b) := by
  unfold UnpackedFloat.unpack ofComponents
  by_cases hmost : @unpackExponent Format.binary64 b = -1#11
  · rw [if_pos hmost, if_pos hmost]
  rw [if_neg hmost, if_neg hmost]
  by_cases hleast : @unpackExponent Format.binary64 b = 0#11
  · rw [if_pos hleast, if_pos hleast, hleast]
    rfl
  · rw [if_neg hleast, if_neg hleast]
    exact finite_congr (append_implicit _) rfl

theorem unpackSign_packComponents (s : Sign) (exponent : BitVec 11) (mantissa : BitVec 52) :
    unpackSign (packComponents Format.binary64 s exponent mantissa) = s.toBitVec := by
  show (s.toBitVec ++ exponent ++ mantissa).extractLsb' 63 1 = s.toBitVec
  rw [BitVec.extractLsb'_append_eq_of_le (by decide),
    BitVec.extractLsb'_append_eq_of_le (by decide)]
  cases s <;> rfl

theorem unpack_packComponents (s : Sign) (exponent : BitVec 11) (mantissa : BitVec 52) :
    unpack Format.binary64 (packComponents Format.binary64 s exponent mantissa) =
      ofComponents s exponent mantissa := by
  rw [unpack_eq, unpackSign_packComponents, unpackExponent_packComponents,
    unpackMantissa_packComponents]
  cases s <;> rfl

theorem ofComponents_held (s : Sign) (exponent : BitVec 11) (mantissa : BitVec 52) :
    Held (ofComponents s exponent mantissa) := by
  have hexponent := exponent.isLt
  have hmantissa := mantissa.isLt
  unfold ofComponents
  by_cases hmost : exponent = -1#11
  · rw [if_pos hmost]
    by_cases hnone : mantissa = 0#52
    · rw [if_pos hnone]
      exact ⟨trivial, nofun⟩
    · rw [if_neg hnone]
      exact ⟨trivial, nofun⟩
  rw [if_neg hmost]
  by_cases hleast : exponent = 0#11
  · rw [if_pos hleast]
    by_cases hnone : mantissa = 0#52
    · rw [dif_pos hnone]
      exact ⟨trivial, nofun⟩
    · rw [dif_neg hnone]
      refine ⟨⟨by omega, by omega, .inl rfl⟩, ?_⟩
      rintro s m e h ⟨⟩
      omega
  · have hmost' : exponent.toNat ≠ 2047 := fun h => hmost (BitVec.eq_of_toNat_eq h)
    have hleast' : exponent.toNat ≠ 0 := fun h => hleast (BitVec.eq_of_toNat_eq h)
    rw [if_neg hleast]
    refine ⟨⟨by omega, by omega, .inr (by omega)⟩, ?_⟩
    rintro s m e h ⟨⟩
    omega

theorem pack_finite (s : Sign) {hpos : 0 < m} :
    pack Format.binary64 (.finite s m e hpos) =
      if 2047 ≤ (e + 1075).toNat then packedInfinity Format.binary64 s
      else if m.log2 = 52 then
        packComponents Format.binary64 s (BitVec.ofNat 11 (e + 1075).toNat) (BitVec.ofNat 52 m)
      else packComponents Format.binary64 s 0#11 (BitVec.ofNat 52 m) := by
  have hbias : e + Format.binary64.exponentBias + (52 : Nat) = e + 1075 := by
    show e + 1023 + 52 = _
    omega
  show (if 2 ^ 11 ≤ (e + Format.binary64.exponentBias + (52 : Nat)).toNat + 1 then _
    else if m.log2 + 1 = 53 then packComponents Format.binary64 s (BitVec.ofNat 11 _) _ else _) = _
  rw [hbias]
  exact if_congr (by omega) rfl (if_congr (by omega) rfl rfl)

/-- A mantissa of 53 bits goes without the first of them, which the exponent stands for. -/
theorem ofComponents_long (s : Sign) {hpos : 0 < m} (hlong : 2 ^ 52 ≤ m) (hfew : m < 2 ^ 53)
    (hmin : -1074 ≤ e) (hmax : e ≤ 971) :
    ofComponents s (BitVec.ofNat 11 (e + 1075).toNat) (BitVec.ofNat 52 m) =
      .finite s m e hpos := by
  have hexponent : (BitVec.ofNat 11 (e + 1075).toNat).toNat = (e + 1075).toNat :=
    Nat.mod_eq_of_lt (by omega)
  have hmantissa : (BitVec.ofNat 52 m).toNat = m - 2 ^ 52 := by
    rw [BitVec.toNat_ofNat]
    omega
  have hmost : BitVec.ofNat 11 (e + 1075).toNat ≠ -1#11 := fun h => by
    have hall : (e + 1075).toNat = 2047 := hexponent.symm.trans (congrArg BitVec.toNat h)
    omega
  have hleast : BitVec.ofNat 11 (e + 1075).toNat ≠ 0#11 := fun h => by
    have hnone : (e + 1075).toNat = 0 := hexponent.symm.trans (congrArg BitVec.toNat h)
    omega
  rw [ofComponents, if_neg hmost, if_neg hleast]
  exact finite_congr (by omega) (by omega)

/-- A shorter mantissa goes with the smallest step. -/
theorem ofComponents_short (s : Sign) {hpos : 0 < m} (hshort : m < 2 ^ 52) :
    ofComponents s 0#11 (BitVec.ofNat 52 m) = .finite s m (-1074) hpos := by
  have hmantissa : (BitVec.ofNat 52 m).toNat = m := Nat.mod_eq_of_lt hshort
  have hsome : BitVec.ofNat 52 m ≠ 0#52 := fun h =>
    hpos.ne' (hmantissa.symm.trans (congrArg BitVec.toNat h))
  rw [ofComponents, if_neg (by decide), if_pos rfl, dif_neg hsome]
  exact finite_congr hmantissa rfl

/-- What a double holds is put together and taken apart again without a change. -/
theorem unpack_pack (h : Held u) : unpack Format.binary64 (pack Format.binary64 u) = u := by
  cases u with
  | notANumber => rfl
  | infinity s => cases s <;> rfl
  | zero s => cases s <;> rfl
  | finite s m e hpos =>
      obtain ⟨⟨hmin, hfew, hmany⟩, hmax⟩ := h
      have hmax := hmax s m e hpos rfl
      rw [pack_finite, if_neg (by omega)]
      by_cases hlong : 2 ^ 52 ≤ m
      · rw [if_pos ((Nat.log2_eq_iff hpos.ne').2 ⟨hlong, hfew⟩), unpack_packComponents]
        exact ofComponents_long s hlong hfew hmin hmax
      · obtain rfl := hmany.resolve_right hlong
        rw [if_neg fun h => hlong ((Nat.log2_eq_iff hpos.ne').1 h).1, unpack_packComponents]
        exact ofComponents_short s (not_le.1 hlong)

/-- What is too large for a double becomes infinite. -/
theorem unpack_pack_large {s : Sign} (hpos : 0 < m) (he : 971 < e) :
    unpack Format.binary64 (pack Format.binary64 (.finite s m e hpos)) = .infinity s := by
  rw [pack_finite, if_pos (by omega)]
  cases s <;> rfl

/-! ### Comparison by ranks -/

/-- First the steps are compared, and then the mantissas. -/
theorem compare_steps {n : Nat} {f : Int} (hm : -1074 ≤ e ∧ m < 2 ^ 53 ∧ (e = -1074 ∨ 2 ^ 52 ≤ m))
    (hn : -1074 ≤ f ∧ n < 2 ^ 53 ∧ (f = -1074 ∨ 2 ^ 52 ≤ n)) :
    (compare e f).then (compare m n) =
      compare ((e + 1074) * 2 ^ 52 + m) ((f + 1074) * 2 ^ 52 + n) := by
  rcases lt_trichotomy e f with hstep | rfl | hstep
  · rw [Int.compare_eq_lt.2 hstep, Int.compare_eq_lt.2 (by omega)]
    rfl
  · rw [Int.compare_eq_eq.2 rfl]
    rcases lt_trichotomy m n with hless | rfl | hless
    · rw [Nat.compare_eq_lt.2 hless, Int.compare_eq_lt.2 (by omega)]
      rfl
    · rw [Nat.compare_eq_eq.2 rfl, Int.compare_eq_eq.2 rfl]
      rfl
    · rw [Nat.compare_eq_gt.2 hless, Int.compare_eq_gt.2 (by omega)]
      rfl
  · rw [Int.compare_eq_gt.2 hstep, Int.compare_eq_gt.2 (by omega)]
    rfl

theorem compare_neg (i j : Int) : compare (-i) (-j) = (compare i j).swap := by
  rcases lt_trichotomy i j with hless | rfl | hless
  · rw [Int.compare_eq_lt.2 hless, Int.compare_eq_gt.2 (by omega)]
    rfl
  · rw [Int.compare_eq_eq.2 rfl, Int.compare_eq_eq.2 rfl]
    rfl
  · rw [Int.compare_eq_gt.2 hless, Int.compare_eq_lt.2 (by omega)]
    rfl

theorem Held.rank_bounds {s : Sign} {h : 0 < m} (hu : Held (.finite s m e h)) :
    0 < (e + 1074) * 2 ^ 52 + m ∧ (e + 1074) * 2 ^ 52 + m < 2047 * 2 ^ 52 := by
  obtain ⟨⟨hmin, hfew, hmany⟩, hmax⟩ := hu
  have hmax := hmax s m e h rfl
  omega

/-- What is finite stands between the infinities. -/
theorem Held.rank_between {s : Sign} {h : 0 < m} (hu : Held (.finite s m e h)) :
    -(2047 * 2 ^ 52) < s.apply ((e + 1074) * 2 ^ 52 + m) ∧
      s.apply ((e + 1074) * 2 ^ 52 + m) < 2047 * 2 ^ 52 := by
  obtain ⟨hpos, hless⟩ := hu.rank_bounds
  cases s <;> simp only [Sign.apply] <;> omega

/-- Numbers that a double holds are compared by their ranks. -/
theorem compare_eq (hu : Held u) (hv : Held v) :
    u.compare v = (rank? u).bind fun i => (rank? v).map fun j => compare i j := by
  have hsome {o : Ordering} {i j : Int} (h : compare i j = o) :
      some o = (some i).bind fun i => (some j).map fun j => compare i j := congrArg some h.symm
  rcases u with s | _ | s | ⟨s, m, e, h⟩ <;> rcases v with s' | _ | s' | ⟨s', n, f, h'⟩
  case infinity.finite =>
    cases s
    · exact hsome (Int.compare_eq_lt.2 hv.rank_between.1)
    · exact hsome (Int.compare_eq_gt.2 hv.rank_between.2)
  case finite.infinity =>
    cases s'
    · exact hsome (Int.compare_eq_gt.2 hu.rank_between.1)
    · exact hsome (Int.compare_eq_lt.2 hu.rank_between.2)
  case zero.finite =>
    cases s'
    · exact hsome (Int.compare_eq_gt.2 (neg_neg_of_pos hv.rank_bounds.1))
    · exact hsome (Int.compare_eq_lt.2 hv.rank_bounds.1)
  case finite.zero =>
    cases s
    · exact hsome (Int.compare_eq_lt.2 (neg_neg_of_pos hu.rank_bounds.1))
    · exact hsome (Int.compare_eq_gt.2 hu.rank_bounds.1)
  case finite.finite =>
    have hrank := hu.rank_bounds.1
    have hrank' := hv.rank_bounds.1
    cases s <;> cases s'
    · exact hsome (by rw [Sign.apply, Sign.apply, compare_neg, ← compare_steps hu.1 hv.1])
    · exact hsome (Int.compare_eq_lt.2 ((neg_neg_of_pos hrank).trans hrank'))
    · exact hsome (Int.compare_eq_gt.2 ((neg_neg_of_pos hrank').trans hrank))
    · exact hsome (compare_steps hu.1 hv.1).symm
  -- Without a finite number on either side there are only a few cases left.
  all_goals
    try cases s
    all_goals try cases s'
    all_goals rfl

/-- A number whose rank is not negative is a zero, positive or infinite. -/
theorem of_rank_nonneg (hu : Held u) (hrank : rank? u = some i) (hi : 0 ≤ i) :
    (∃ s, u = .zero s) ∧ i = 0 ∨ u = .infinity .positive ∧ i = 2047 * 2 ^ 52 ∨
      ∃ m e h, u = .finite .positive m e h ∧ i = (e + 1074) * 2 ^ 52 + m ∧ i < 2047 * 2 ^ 52 := by
  rcases u with s | _ | s | ⟨s, m, e, h⟩
  · cases s <;> cases hrank
    · exact absurd hi (by decide)
    · exact .inr (.inl ⟨rfl, rfl⟩)
  · cases hrank
  · cases hrank
    exact .inl ⟨⟨s, rfl⟩, rfl⟩
  · obtain ⟨⟨hmin, hfew, hmany⟩, hmax⟩ := hu
    have hmax := hmax s m e h rfl
    cases s <;> cases hrank
    · simp only [Sign.apply] at hi
      omega
    · exact .inr (.inr ⟨m, e, h, rfl, rfl, by simp only [Sign.apply]; omega⟩)

/-- The rank of a number that is put together is cut off at the rank of infinity. -/
theorem rank?_pack (hu : Fits u) (hrank : rank? u = some i) (hi : 0 ≤ i) :
    rank? (Float.Model.pack u).unpack = some (min i (2047 * 2 ^ 52)) := by
  by_cases hlarge : ∃ s m e h, u = .finite s m e h ∧ 971 < e
  · obtain ⟨s, m, e, h, rfl, he⟩ := hlarge
    have hunpack : (Float.Model.pack (.finite s m e h)).unpack = .infinity s :=
      unpack_pack_large h he
    obtain ⟨hmin, hfew, hmany⟩ := hu
    rw [hunpack]
    cases s <;> cases hrank <;> simp only [Sign.apply] at hi
    · omega
    · exact congrArg some (min_eq_right (by simp only [Sign.apply]; omega)).symm
  · have hheld : Held u := ⟨hu, fun s m e h heq =>
      Int.not_lt.1 fun he => hlarge ⟨s, m, e, h, heq, he⟩⟩
    have hunpack : (Float.Model.pack u).unpack = u := unpack_pack hheld
    rw [hunpack, hrank]
    rcases of_rank_nonneg hheld hrank hi with ⟨-, rfl⟩ | ⟨-, rfl⟩ | ⟨m, e, h, -, -, hless⟩
    · rfl
    · rfl
    · rw [min_eq_left hless.le]

/-! ### Sums and quotients -/

variable {n : Nat} {f : Int}

theorem add_isRounded (hm : 0 < m) (hn : 0 < n) :
    IsRounded (m * 2 ^ e + n * 2 ^ f)
      (add Format.binary64 (.finite .positive m e hm) (.finite .positive n f hn)) := by
  obtain ⟨a, ha⟩ : ∃ a : Nat, e = min e f + a := ⟨(e - min e f).toNat, by omega⟩
  obtain ⟨b, hb⟩ : ∃ b : Nat, f = min e f + b := ⟨(f - min e f).toNat, by omega⟩
  have hadd : add Format.binary64 (.finite .positive m e hm) (.finite .positive n f hn) =
      UnpackedFloat.round Format.binary64 .positive (m * 2 ^ a + n * 2 ^ b) (min e f) := by
    have ha' : (e - min e f).toNat = a := by omega
    have hb' : (f - min e f).toNat = b := by omega
    have hpos : ((m * 2 ^ a + n * 2 ^ b : Nat) : Int) > 0 := by positivity
    show normalize Format.binary64 ((m <<< (e - min e f).toNat : Nat) +
      (n <<< (f - min e f).toNat : Nat)) (min e f) .positive = _
    rw [ha', hb', Nat.shiftLeft_eq, Nat.shiftLeft_eq, ← Nat.cast_add, UnpackedFloat.normalize,
      Int.compare_eq_gt.2 hpos]
    rfl
  have hsum : (m : Rat) * 2 ^ e + n * 2 ^ f =
      (m * 2 ^ a + n * 2 ^ b : Nat) * 2 ^ min e f := by
    have hstep (g : Int) (count : Nat) (h : g = min e f + count) :
        (2 : Rat) ^ g = 2 ^ count * 2 ^ min e f := by
      rw [← zpow_natCast, ← zpow_add₀ two_ne_zero, add_comm, ← h]
    rw [hstep e a ha, hstep f b hb]
    push_cast
    ring
  rw [hadd, hsum]
  exact round_isRounded (by positivity) _

/-- A rounded number has the rank that it is rounded to, cut off at the rank of infinity. -/
theorem IsRounded.rank?_pack {x : Rat} (h : IsRounded x u) :
    ∃ k, Rounds x k ∧ 0 ≤ k ∧
      rank? (Float.Model.pack u).unpack = some (min k (2047 * 2 ^ 52)) := by
  obtain ⟨hfits, k, hrounds, hrank⟩ := h
  exact ⟨k, hrounds, hrounds.nonneg, UnpackedDouble.rank?_pack hfits hrank hrounds.nonneg⟩

theorem rank?_pack_held (h : Held u) : rank? (Float.Model.pack u).unpack = rank? u :=
  congrArg rank? (unpack_pack h)

theorem Held.rounds {h : 0 < m} (hu : Held (.finite .positive m e h)) :
    Rounds (m * 2 ^ e) ((e + 1074) * 2 ^ 52 + m) :=
  .exact hu.1.1 hu.1.2.1 hu.1.2.2

/-- The rank of a sum is no lower than those of its parts, and nothing is added by a zero. -/
theorem rank?_add (hu : Held u) (hv : Held v) (hi : rank? u = some i) (hi' : 0 ≤ i)
    (hj : rank? v = some j) (hj' : 0 ≤ j) :
    ∃ k, rank? (Float.Model.pack (UnpackedFloat.add Format.binary64 u v)).unpack = some k ∧
      i ≤ k ∧ j ≤ k ∧ (j = 0 → k = i) := by
  rcases of_rank_nonneg hu hi hi' with ⟨⟨s, rfl⟩, rfl⟩ | ⟨rfl, rfl⟩ | ⟨m, e, h, rfl, rfl, hless⟩ <;>
    rcases of_rank_nonneg hv hj hj' with
      ⟨⟨s', rfl⟩, rfl⟩ | ⟨rfl, rfl⟩ | ⟨n, f, h', rfl, rfl, hless'⟩
  · refine ⟨0, ?_, le_rfl, le_rfl, fun _ => rfl⟩
    cases s <;> cases s' <;> rfl
  · exact ⟨_, (rank?_pack_held hv).trans hj, hj', le_rfl, fun h => h⟩
  · exact ⟨_, (rank?_pack_held hv).trans hj, hj', le_rfl, fun h => h⟩
  · exact ⟨_, (rank?_pack_held hu).trans hi, le_rfl, hi', fun _ => rfl⟩
  · exact ⟨_, (rank?_pack_held hu).trans hi, le_rfl, le_rfl, nofun⟩
  · exact ⟨_, (rank?_pack_held hu).trans hi, le_rfl, hless'.le, fun h =>
      absurd h hv.rank_bounds.1.ne'⟩
  · exact ⟨_, (rank?_pack_held hu).trans hi, le_rfl, hi', fun _ => rfl⟩
  · exact ⟨_, (rank?_pack_held hv).trans hj, hless.le, le_rfl, nofun⟩
  · obtain ⟨k, hrounds, -, hrank⟩ := (add_isRounded h h').rank?_pack
    have hleft : (m : Rat) * 2 ^ e ≤ m * 2 ^ e + n * 2 ^ f :=
      le_add_of_nonneg_right (by positivity)
    have hright : (n : Rat) * 2 ^ f ≤ m * 2 ^ e + n * 2 ^ f :=
      le_add_of_nonneg_left (by positivity)
    exact ⟨_, hrank, le_min (hu.rounds.mono hrounds hleft) hless.le,
      le_min (hv.rounds.mono hrounds hright) hless'.le,
      fun h => absurd h hv.rank_bounds.1.ne'⟩

theorem div_isRounded (hm : 0 < m) (hn : 0 < n) :
    IsRounded (m * 2 ^ e / (n * 2 ^ f))
      (UnpackedFloat.div Format.binary64 (.finite .positive m e hm) (.finite .positive n f hn)) :=
  divCore_isRounded hm.ne' hn

theorem rank?_pack_zero (s : Sign) : rank? (Float.Model.pack (.zero s)).unpack = some 0 :=
  rank?_pack_held ⟨trivial, nofun⟩

/-- The rank of a quotient of what is not infinite is not negative, and zero gives zero. -/
theorem rank?_div (hu : Held u) (hv : Held v) (hi : rank? u = some i) (hi' : 0 ≤ i)
    (hfinite : i < 2047 * 2 ^ 52) (hj : rank? v = some j) (hj' : 0 < j) :
    ∃ k, rank? (Float.Model.pack (UnpackedFloat.div Format.binary64 u v)).unpack = some k ∧
      0 ≤ k ∧ k ≤ 2047 * 2 ^ 52 ∧ (i = 0 → k = 0) := by
  rcases of_rank_nonneg hu hi hi' with ⟨⟨s, rfl⟩, rfl⟩ | ⟨rfl, rfl⟩ | ⟨m, e, h, rfl, rfl, -⟩ <;>
    rcases of_rank_nonneg hv hj hj'.le with ⟨-, rfl⟩ | ⟨rfl, rfl⟩ | ⟨n, f, h', rfl, rfl, -⟩ <;>
    try omega
  · exact ⟨0, rank?_pack_zero _, le_rfl, by decide, fun _ => rfl⟩
  · exact ⟨0, rank?_pack_zero _, le_rfl, by decide, fun _ => rfl⟩
  · exact ⟨0, rank?_pack_zero _, le_rfl, by decide, fun _ => rfl⟩
  · obtain ⟨k, -, hk, hrank⟩ := (div_isRounded h h').rank?_pack
    exact ⟨_, hrank, le_min hk (by decide), min_le_right _ _, fun h =>
      absurd h hu.rank_bounds.1.ne'⟩

/-- What is finite and stands in no later place is no larger. -/
theorem value_mono {h : 0 < m} {h' : 0 < n} (hu : Held (.finite .positive m e h))
    (hv : Held (.finite .positive n f h'))
    (hle : (e + 1074) * 2 ^ 52 + m ≤ (f + 1074) * 2 ^ 52 + n) :
    (m : Rat) * 2 ^ e ≤ n * 2 ^ f := by
  by_contra hless
  have hback := hv.rounds.mono hu.rounds (not_le.1 hless).le
  -- Two such numbers in one place are the same.
  obtain ⟨hmin, hfew, hmany⟩ := hu.1
  obtain ⟨hmin', hfew', hmany'⟩ := hv.1
  obtain ⟨rfl, rfl⟩ : e = f ∧ m = n := by omega
  exact hless le_rfl

/-- Of two positive numbers, the larger one has the larger quotient. -/
theorem rank?_div_mono_finite {p : Nat} {g : Int} {h : 0 < m} {h' : 0 < n} {h'' : 0 < p}
    (hu : Held (.finite .positive m e h)) (hv : Held (.finite .positive n f h'))
    (hle : (e + 1074) * 2 ^ 52 + m ≤ (f + 1074) * 2 ^ 52 + n) :
    ∃ k l,
      rank? (Float.Model.pack (UnpackedFloat.div Format.binary64 (.finite .positive m e h)
        (.finite .positive p g h''))).unpack = some k ∧
      rank? (Float.Model.pack (UnpackedFloat.div Format.binary64 (.finite .positive n f h')
        (.finite .positive p g h''))).unpack = some l ∧ k ≤ l := by
  obtain ⟨k, hrounds, -, hk⟩ := (div_isRounded h h'').rank?_pack
  obtain ⟨l, hrounds', -, hl⟩ := (div_isRounded h' h'').rank?_pack
  have hquotients : (m : Rat) * 2 ^ e / (p * 2 ^ g) ≤ n * 2 ^ f / (p * 2 ^ g) :=
    div_le_div_of_nonneg_right (value_mono hu hv hle) (by positivity)
  exact ⟨_, _, hk, hl, min_le_min_right _ (hrounds.mono hrounds' hquotients)⟩

theorem eq_infinity (hu : Held u) (hi : rank? u = some i) (hinfinite : 2047 * 2 ^ 52 ≤ i) :
    u = .infinity .positive := by
  rcases of_rank_nonneg hu hi (by omega) with ⟨-, rfl⟩ | ⟨rfl, -⟩ | ⟨m, e, h, -, -, hless⟩
  · omega
  · rfl
  · omega

variable {w : UnpackedFloat} {c l : Int}

/-- What is infinite stays so when it is divided, unless it is divided by infinity. -/
theorem rank?_infinity_div (hw : Held w) (hc : rank? w = some c) (hc' : 0 < c)
    (hl : rank? (Float.Model.pack (UnpackedFloat.div Format.binary64 (.infinity .positive)
      w)).unpack = some l) : l = 2047 * 2 ^ 52 := by
  have hinfinity : rank? (Float.Model.pack (.infinity .positive)).unpack = some (2047 * 2 ^ 52) :=
    rank?_pack_held ⟨trivial, nofun⟩
  rcases of_rank_nonneg hw hc hc'.le with ⟨-, rfl⟩ | ⟨rfl, -⟩ | ⟨p, g, h, rfl, -, -⟩
  · omega
  · cases hl
  · exact Option.some.inj (hl.symm.trans hinfinity)

/-- The rank of a quotient grows with the rank of what is divided. -/
theorem rank?_div_mono (hu : Held u) (hv : Held v) (hw : Held w) (hi : rank? u = some i)
    (hi' : 0 ≤ i) (hj : rank? v = some j) (hij : i ≤ j) (hc : rank? w = some c) (hc' : 0 < c)
    (hl : rank? (Float.Model.pack (UnpackedFloat.div Format.binary64 v w)).unpack = some l) :
    ∃ k, rank? (Float.Model.pack (UnpackedFloat.div Format.binary64 u w)).unpack = some k ∧
      k ≤ l := by
  rcases lt_or_ge j (2047 * 2 ^ 52) with hless | hinfinite
  · obtain ⟨k, hk, hnonneg, -, hzero⟩ := rank?_div hu hw hi hi' (by omega) hc hc'
    obtain ⟨l', hl', hnonneg', -, -⟩ := rank?_div hv hw hj (hi'.trans hij) hless hc hc'
    obtain rfl : l' = l := Option.some.inj (hl'.symm.trans hl)
    rcases of_rank_nonneg hu hi hi' with ⟨-, rfl⟩ | ⟨-, rfl⟩ | ⟨m, e, h, rfl, rfl, -⟩
    · exact ⟨k, hk, (hzero rfl).le.trans hnonneg'⟩
    · omega
    have hpos := hu.rank_bounds.1
    rcases of_rank_nonneg hv hj (hi'.trans hij) with ⟨-, rfl⟩ | ⟨-, rfl⟩ | ⟨n, f, h', rfl, rfl, -⟩
    · omega
    · omega
    rcases of_rank_nonneg hw hc hc'.le with ⟨-, rfl⟩ | ⟨rfl, -⟩ | ⟨p, g, h'', rfl, -, -⟩
    · omega
    · exact ⟨0, rank?_pack_zero _, hnonneg'⟩
    · obtain ⟨k, l, hk, hl'', hle⟩ := rank?_div_mono_finite hu hv hij
      obtain rfl := Option.some.inj (hl''.symm.trans hl)
      exact ⟨k, hk, hle⟩
  · obtain rfl := eq_infinity hv hj hinfinite
    obtain rfl := rank?_infinity_div hw hc hc' hl
    rcases lt_or_ge i (2047 * 2 ^ 52) with hless | hinfinite'
    · obtain ⟨k, hk, -, hle, -⟩ := rank?_div hu hw hi hi' hless hc hc'
      exact ⟨k, hk, hle⟩
    · obtain rfl := eq_infinity hu hi hinfinite'
      exact ⟨_, hl, le_rfl⟩

end UnpackedDouble

namespace Double

open UnpackedDouble

variable {x y z : Float} {i j k : Int}

/-- The place of a double in the row of all doubles. -/
def rank? (x : Float) : Option Int :=
  UnpackedDouble.rank? x.toModel.unpack

theorem unpack_held (x : Float) : Held x.toModel.unpack := by
  rw [Float.Model.unpack, unpack_eq]
  exact ofComponents_held _ _ _

/-- One double is at most another one when it stands in no later place. -/
theorem le_iff : x ≤ y ↔ ∃ i j, rank? x = some i ∧ rank? y = some j ∧ i ≤ j := by
  have hcompare := compare_eq (unpack_held x) (unpack_held y)
  show decide (x.toModel ≤ y.toModel) = true ↔ _
  rw [decide_eq_true_iff]
  show (x.toModel.unpack.compare y.toModel.unpack).any (·.isLE) = true ↔ _
  rw [hcompare]
  show _ ↔ ∃ i j, UnpackedDouble.rank? x.toModel.unpack = some i ∧
    UnpackedDouble.rank? y.toModel.unpack = some j ∧ i ≤ j
  cases UnpackedDouble.rank? x.toModel.unpack <;>
    cases UnpackedDouble.rank? y.toModel.unpack <;> simp [Int.isLE_compare]

/-- One double is below another one when it stands in an earlier place. -/
theorem lt_iff : x < y ↔ ∃ i j, rank? x = some i ∧ rank? y = some j ∧ i < j := by
  have hcompare := compare_eq (unpack_held x) (unpack_held y)
  show decide (x.toModel < y.toModel) = true ↔ _
  rw [decide_eq_true_iff]
  show (x.toModel.unpack.compare y.toModel.unpack == some .lt) = true ↔ _
  rw [hcompare]
  show _ ↔ ∃ i j, UnpackedDouble.rank? x.toModel.unpack = some i ∧
    UnpackedDouble.rank? y.toModel.unpack = some j ∧ i < j
  cases UnpackedDouble.rank? x.toModel.unpack <;>
    cases UnpackedDouble.rank? y.toModel.unpack <;> simp [Int.compare_eq_lt]

/-- Two doubles are equal when they stand in the same place. -/
theorem beq_iff : (x == y) = true ↔ ∃ i, rank? x = some i ∧ rank? y = some i := by
  have hcompare := compare_eq (unpack_held x) (unpack_held y)
  show (x.toModel.unpack.compare y.toModel.unpack == some .eq) = true ↔ _
  rw [hcompare]
  show _ ↔ ∃ i, UnpackedDouble.rank? x.toModel.unpack = some i ∧
    UnpackedDouble.rank? y.toModel.unpack = some i
  cases UnpackedDouble.rank? x.toModel.unpack <;>
    cases UnpackedDouble.rank? y.toModel.unpack <;> simp
  exact eq_comm

theorem rank?_zero : rank? 0 = some 0 := rfl

theorem nonneg_iff : 0 ≤ x ↔ ∃ i, rank? x = some i ∧ 0 ≤ i := by
  rw [le_iff]
  constructor
  · rintro ⟨i, j, hi, hj, hle⟩
    cases hi
    exact ⟨j, hj, hle⟩
  · rintro ⟨j, hj, hle⟩
    exact ⟨0, j, rank?_zero, hj, hle⟩

theorem pos_iff : 0 < x ↔ ∃ i, rank? x = some i ∧ 0 < i := by
  rw [lt_iff]
  constructor
  · rintro ⟨i, j, hi, hj, hless⟩
    cases hi
    exact ⟨j, hj, hless⟩
  · rintro ⟨j, hj, hless⟩
    exact ⟨0, j, rank?_zero, hj, hless⟩

/-- A finite double stands somewhere, before infinity. -/
theorem exists_rank (h : x.isFinite = true) : ∃ i, rank? x = some i ∧ i < 2047 * 2 ^ 52 := by
  have hheld := unpack_held x
  have hfinite : x.toModel.unpack.isFinite = true := h
  show ∃ i, UnpackedDouble.rank? x.toModel.unpack = some i ∧ _
  generalize x.toModel.unpack = u at hheld hfinite ⊢
  rcases u with s | _ | s | ⟨s, m, e, hpos⟩
  · cases hfinite
  · cases hfinite
  · exact ⟨0, rfl, by decide⟩
  · exact ⟨_, rfl, hheld.rank_between.2⟩

/-- What is divided by no number is no number. -/
theorem rank?_div_none (h : rank? y = none) : rank? (x / y) = none := by
  show UnpackedDouble.rank? (Float.Model.pack (UnpackedFloat.div Format.binary64 x.toModel.unpack
    y.toModel.unpack)).unpack = none
  have hnone : y.toModel.unpack = .notANumber := by
    rw [rank?] at h
    generalize y.toModel.unpack = v at h ⊢
    cases v <;> first | rfl | cases h
  have hdiv : UnpackedFloat.div Format.binary64 x.toModel.unpack .notANumber = .notANumber := by
    cases x.toModel.unpack <;> rfl
  rw [hnone, hdiv]
  rfl

/-- Of two doubles that are not negative, the sum stands in no earlier place than either. -/
theorem rank?_add (hx : 0 ≤ x) (hy : 0 ≤ y) :
    ∃ i j k, rank? x = some i ∧ rank? y = some j ∧ rank? (x + y) = some k ∧ i ≤ k ∧ j ≤ k ∧
      (j ≤ 0 → k = i) := by
  obtain ⟨i, hi, hi'⟩ := nonneg_iff.1 hx
  obtain ⟨j, hj, hj'⟩ := nonneg_iff.1 hy
  obtain ⟨k, hk, hle, hle', hsame⟩ :=
    UnpackedDouble.rank?_add (unpack_held x) (unpack_held y) hi hi' hj hj'
  exact ⟨i, j, k, hi, hj, hk, hle, hle', fun h => hsame (le_antisymm h hj')⟩

end Double

/-- Doubles obey the laws of scales. -/
instance : Scale.Ordered Float where
  zero_le_zero := Double.nonneg_iff.2 ⟨0, Double.rank?_zero, le_rfl⟩
  le_trans {a b c} h h' := by
    obtain ⟨i, j, hi, hj, hle⟩ := Double.le_iff.1 h
    obtain ⟨j', k, hj', hk, hle'⟩ := Double.le_iff.1 h'
    cases hj.symm.trans hj'
    exact Double.le_iff.2 ⟨i, k, hi, hk, hle.trans hle'⟩
  lt_of_lt_of_le {a b c} h h' := by
    obtain ⟨i, j, hi, hj, hless⟩ := Double.lt_iff.1 h
    obtain ⟨j', k, hj', hk, hle'⟩ := Double.le_iff.1 h'
    cases hj.symm.trans hj'
    exact Double.lt_iff.2 ⟨i, k, hi, hk, hless.trans_le hle'⟩
  nonneg_of_not_neg {a} hfinite h := by
    obtain ⟨i, hi, -⟩ := Double.exists_rank hfinite
    refine Double.nonneg_iff.2 ⟨i, hi, not_lt.1 fun hneg => ?_⟩
    exact h (Double.lt_iff.2 ⟨i, 0, hi, Double.rank?_zero, hneg⟩)
  le_add_right {a b} ha hb := by
    obtain ⟨i, -, k, hi, -, hk, hle, -, -⟩ := Double.rank?_add ha hb
    exact Double.le_iff.2 ⟨i, k, hi, hk, hle⟩
  le_add_left {a b} ha hb := by
    obtain ⟨-, j, k, -, hj, hk, -, hle, -⟩ := Double.rank?_add ha hb
    exact Double.le_iff.2 ⟨j, k, hj, hk, hle⟩
  add_le_of_not_pos {a b} ha hb h := by
    obtain ⟨i, j, k, hi, hj, hk, -, -, hsame⟩ := Double.rank?_add ha hb
    have hzero : j ≤ 0 := not_lt.1 fun hpos => h (Double.pos_iff.2 ⟨j, hj, hpos⟩)
    exact Double.le_iff.2 ⟨k, i, hk, hi, (hsame hzero).le⟩
  div_nonneg {a b} hfinite ha hb := by
    obtain ⟨i, hi, hless⟩ := Double.exists_rank hfinite
    obtain ⟨i', hi', hnonneg⟩ := Double.nonneg_iff.1 ha
    cases hi.symm.trans hi'
    obtain ⟨j, hj, hpos⟩ := Double.pos_iff.1 hb
    obtain ⟨k, hk, hk', -, -⟩ := UnpackedDouble.rank?_div (Double.unpack_held a)
      (Double.unpack_held b) hi hnonneg hless hj hpos
    exact Double.nonneg_iff.2 ⟨k, hk, hk'⟩
  pos_of_div_pos {a b} _ hb h := by
    obtain ⟨k, hk, -⟩ := Double.pos_iff.1 h
    cases hj : Double.rank? b with
    | none =>
        rw [Double.rank?_div_none hj] at hk
        cases hk
    | some j =>
        refine Double.pos_iff.2 ⟨j, hj, not_le.1 fun hle => ?_⟩
        exact hb (Double.le_iff.2 ⟨j, 0, hj, Double.rank?_zero, hle⟩)
  div_le_of_le {a b c u} ha h hc hu := by
    obtain ⟨i, j, hi, hj, hle⟩ := Double.le_iff.1 h
    obtain ⟨i', hi', hnonneg⟩ := Double.nonneg_iff.1 ha
    cases hi.symm.trans hi'
    obtain ⟨p, hp, hpos⟩ := Double.pos_iff.1 hc
    obtain ⟨l, q, hl, hq, hle'⟩ := Double.le_iff.1 hu
    obtain ⟨k, hk, hkl⟩ := UnpackedDouble.rank?_div_mono (Double.unpack_held a)
      (Double.unpack_held b) (Double.unpack_held c) hi hnonneg hj hle hp hpos hl
    exact Double.le_iff.2 ⟨k, q, hk, hq, hkl.trans hle'⟩
  zero_div_le {c u} hc hu := by
    obtain ⟨j, hj, hpos⟩ := Double.pos_iff.1 hc
    obtain ⟨q, hq, hnonneg⟩ := Double.nonneg_iff.1 hu
    obtain ⟨k, hk, -, -, hzero⟩ := UnpackedDouble.rank?_div (Double.unpack_held 0)
      (Double.unpack_held c) Double.rank?_zero le_rfl (by decide) hj hpos
    exact Double.le_iff.2 ⟨k, q, hk, hq, (hzero rfl).le.trans hnonneg⟩

/-- Of doubles that are equal, all are positive or none. -/
instance : Scale.Comparable Float where
  beq_symm h := by
    obtain ⟨i, ha, hb⟩ := Double.beq_iff.1 h
    exact Double.beq_iff.2 ⟨i, hb, ha⟩
  beq_trans h h' := by
    obtain ⟨i, ha, hb⟩ := Double.beq_iff.1 h
    obtain ⟨j, hb', hc⟩ := Double.beq_iff.1 h'
    cases hb.symm.trans hb'
    exact Double.beq_iff.2 ⟨i, ha, hc⟩
  pos_of_beq h ha := by
    obtain ⟨i, hi, hpos⟩ := Double.pos_iff.1 ha
    obtain ⟨j, hj, hb⟩ := Double.beq_iff.1 h
    cases hi.symm.trans hj
    exact Double.pos_iff.2 ⟨i, hb, hpos⟩

end ExtensiveForm
