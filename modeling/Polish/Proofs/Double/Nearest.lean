import Polish.Proofs.Double.Decimal
import Mathlib.Algebra.Order.Field.Power
import Mathlib.Algebra.Order.Ring.Abs

namespace Polish.Double

def value (rank : Nat) : ℚ := magnitude rank / inUnits 1

/-- No other rank is nearer to a number, and another one is equally near only if this one is even. -/
def IsNearest (v : ℚ) (rank : Nat) : Prop :=
  ∀ other, other ≠ rank → |v - value rank| < |v - value other| ∨
    |v - value rank| = |v - value other| ∧ rank % 2 = 0

theorem inUnits_one_pos : (0 : ℚ) < inUnits 1 := Nat.cast_pos.2 (inUnits_pos Nat.zero_lt_one)

theorem value_strictMono : StrictMono value := fun _ _ h =>
  div_lt_div_of_pos_right (Nat.cast_lt.2 (magnitude_strictMono h)) inUnits_one_pos

theorem abs_sub_le_iff_midpoint {v a b : ℚ} : |v - a| ≤ |v - b| ↔ 0 ≤ (b - a) * (a + b - 2 * v) := by
  rw [← sq_le_sq, ← sub_nonneg, show (v - b) ^ 2 - (v - a) ^ 2 = (b - a) * (a + b - 2 * v) by ring]

theorem abs_sub_lt_iff_midpoint {v a b : ℚ} : |v - a| < |v - b| ↔ 0 < (b - a) * (a + b - 2 * v) := by
  rw [← sq_lt_sq, ← sub_pos, show (v - b) ^ 2 - (v - a) ^ 2 = (b - a) * (a + b - 2 * v) by ring]

theorem midpoint_le_iff {units den : Nat} (hden : 0 < den) (a b : Nat) :
    value a + value b ≤ 2 * (units / (den * inUnits 1)) ↔ (magnitude a + magnitude b) * den ≤ 2 * units := by
  have hd : (0 : ℚ) < den := Nat.cast_pos.2 hden
  have hu := inUnits_one_pos
  rw [value, value, ← add_div, mul_div_assoc', div_le_div_iff₀ hu (mul_pos hd hu), ← mul_assoc,
    mul_le_mul_iff_of_pos_right hu]
  exact_mod_cast Iff.rfl

theorem le_midpoint_iff {units den : Nat} (hden : 0 < den) (a b : Nat) :
    2 * (units / (den * inUnits 1)) ≤ value a + value b ↔ 2 * units ≤ (magnitude a + magnitude b) * den := by
  have hd : (0 : ℚ) < den := Nat.cast_pos.2 hden
  have hu := inUnits_one_pos
  rw [value, value, ← add_div, mul_div_assoc', div_le_div_iff₀ (mul_pos hd hu) hu, ← mul_assoc,
    mul_le_mul_iff_of_pos_right hu]
  exact_mod_cast Iff.rfl

/-- The rank between whose midpoints a number lies is the nearest. -/
theorem Rounds.isNearest {rank units den : Nat} (hden : 0 < den) (h : Rounds rank units den) :
    IsNearest (units / (den * inUnits 1)) rank := by
  intro other hne
  have hlow := (midpoint_le_iff hden (rank - 1) rank).2 h.low
  have hhigh := (le_midpoint_iff hden rank (rank + 1)).2 h.high
  have hlow' (hodd : rank % 2 = 1) : value (rank - 1) + value rank < 2 * (units / (den * inUnits 1)) :=
    lt_of_not_ge fun hle => Nat.not_le_of_lt (h.odd hodd).1 ((le_midpoint_iff hden _ _).1 hle)
  have hhigh' (hodd : rank % 2 = 1) : 2 * (units / (den * inUnits 1)) < value rank + value (rank + 1) :=
    lt_of_not_ge fun hle => Nat.not_le_of_lt (h.odd hodd).2 ((midpoint_le_iff hden _ _).1 hle)
  generalize (units : ℚ) / (den * inUnits 1) = v at hlow hhigh hlow' hhigh' ⊢
  -- the midpoint with the neighbour on the side of the other rank decides; only an even rank may lie on it
  obtain hlt | hgt := Nat.lt_or_gt_of_ne hne
  · have hother : value other ≤ value (rank - 1) := value_strictMono.monotone (by omega)
    have hgap : value other < value rank := value_strictMono hlt
    obtain heven | hodd := Nat.mod_two_eq_zero_or_one rank
    · have hle := abs_sub_le_iff_midpoint.2 (mul_nonneg_of_nonpos_of_nonpos (sub_nonpos.2 hgap.le)
        (show value rank + value other - 2 * v ≤ 0 by linarith))
      exact hle.lt_or_eq.imp_right fun he => ⟨he, heven⟩
    · have := hlow' hodd
      exact .inl (abs_sub_lt_iff_midpoint.2 (mul_pos_of_neg_of_neg (sub_neg.2 hgap) (by linarith)))
  · have hother : value (rank + 1) ≤ value other := value_strictMono.monotone hgt
    have hgap : value rank < value other := value_strictMono hgt
    obtain heven | hodd := Nat.mod_two_eq_zero_or_one rank
    · have hle := abs_sub_le_iff_midpoint.2 (mul_nonneg (sub_nonneg.2 hgap.le)
        (show 0 ≤ value rank + value other - 2 * v by linarith))
      exact hle.lt_or_eq.imp_right fun he => ⟨he, heven⟩
    · have := hhigh' hodd
      exact .inl (abs_sub_lt_iff_midpoint.2 (mul_pos (sub_pos.2 hgap) (by linarith)))

namespace IsNearest

variable {v : ℚ} {rank : Nat}

theorem le (h : IsNearest v rank) (other : Nat) : |v - value rank| ≤ |v - value other| := by
  by_cases hne : other = rank
  · rw [hne]
  · exact (h other hne).elim le_of_lt fun he => he.1.le

theorem le_of_value_le (h : IsNearest v rank) {r : Nat} (hr : value r ≤ v) : r ≤ rank := by
  by_contra hlt
  have hgap : value rank < value r := value_strictMono (Nat.lt_of_not_le hlt)
  have := abs_sub_le_iff_midpoint.1 (h.le r)
  exact absurd this (not_le_of_gt (mul_neg_of_pos_of_neg (sub_pos.2 hgap) (by linarith)))

theorem eq_zero (h : IsNearest v rank) (hv : 2 * v < value 1) : rank = 0 := by
  by_contra hne
  have hpos : value 1 ≤ value rank := value_strictMono.monotone (Nat.pos_of_ne_zero hne)
  have hzero : value 0 = 0 := by rw [value, show magnitude 0 = 0 by decide, Nat.cast_zero, zero_div]
  have hgap : value 0 < value 1 := value_strictMono Nat.zero_lt_one
  have := abs_sub_le_iff_midpoint.1 (h.le 0)
  rw [hzero] at this hgap
  exact absurd this (not_le_of_gt (mul_neg_of_neg_of_pos (by linarith) (by linarith)))

end IsNearest

theorem value_rankLimit : value rankLimit = 2 ^ 1024 := by
  rw [value, magnitude_rankLimit, inUnits_eq, Nat.cast_mul, mul_div_assoc, div_self inUnits_one_pos.ne', mul_one,
    Nat.cast_pow, Nat.cast_ofNat]

theorem value_one : value 1 = 1 / inUnits 1 := by rw [value, show magnitude 1 = 1 by decide, Nat.cast_one]

theorem ofRank_of_limit_le {rank : Nat} (negative : Bool) (h : rankLimit ≤ rank) :
    ofRank negative rank = .infinite negative := dif_neg (Nat.not_lt_of_le h)

theorem ofRank_injective {negative : Bool} {rank rank' : Nat} (h : rank < rankLimit)
    (he : ofRank negative rank = ofRank negative rank') : rank = rank' := by
  unfold ofRank at he
  rw [dif_pos h] at he
  split at he
  · exact congrArg Fin.val (Double.finite.inj he).2
  · cases he

theorem value_unit : value (1023 * binade) = 1 := by
  rw [value, show magnitude (1023 * binade) = inUnits 1 by decide +kernel, div_self inUnits_one_pos.ne']

section Size

variable {digits : Nat} {exponent : Int}

theorem ofDecimal_of_small (negative : Bool) (h : digits = 0 ∨ exponent + (Nat.toDigits 10 digits).length < -330) :
    ofDecimal negative digits exponent = ofRank negative 0 := if_pos h

theorem ofDecimal_of_large (negative : Bool) (hd : digits ≠ 0)
    (h : 310 < exponent + (Nat.toDigits 10 digits).length) :
    ofDecimal negative digits exponent = .infinite negative := (if_neg (by omega)).trans (if_pos h)

/-- A decimal as a ratio. Where its size does not decide at once, it is rounded as this ratio. -/
theorem exists_ratio (digits : Nat) (exponent : Int) : ∃ units den : Nat, 0 < den ∧
    (digits : ℚ) * 10 ^ exponent = units / (den * inUnits 1) ∧
    ∀ negative, digits ≠ 0 → -330 ≤ exponent + (Nat.toDigits 10 digits).length →
      exponent + (Nat.toDigits 10 digits).length ≤ 310 →
      ofDecimal negative digits exponent = ofRank negative (nearestRank units den) := by
  have hu := inUnits_one_pos.ne'
  cases exponent with
  | ofNat e =>
      refine ⟨inUnits (digits * 10 ^ e), 1, Nat.zero_lt_one, ?_, fun negative hd hlow hhigh => ?_⟩
      · rw [inUnits_eq, Nat.cast_mul _ (inUnits 1), Nat.cast_one, one_mul, mul_div_cancel_right₀ _ hu,
          Int.ofNat_eq_natCast, zpow_natCast, Nat.cast_mul, Nat.cast_pow, Nat.cast_ofNat]
      · rw [ofDecimal, if_neg (by omega), if_neg (by omega)]
        rfl
  | negSucc e =>
      refine ⟨inUnits digits, 10 ^ (e + 1), Nat.pow_pos (by decide), ?_, fun negative hd hlow hhigh => ?_⟩
      · rw [inUnits_eq, Nat.cast_mul, mul_div_mul_right _ _ hu, zpow_negSucc, Nat.cast_pow, Nat.cast_ofNat,
          div_eq_mul_inv]
      · rw [ofDecimal, if_neg (by omega), if_neg (by omega)]
        rfl

theorem lt_pow_size (digits : Nat) (exponent : Int) :
    (digits : ℚ) * 10 ^ exponent < 10 ^ (exponent + (Nat.toDigits 10 digits).length) := by
  have hten : (0 : ℚ) < 10 ^ exponent := zpow_pos (by norm_num) _
  have hlt : (digits : ℚ) < 10 ^ (Nat.toDigits 10 digits).length := by exact_mod_cast lt_pow_length digits
  rw [add_comm exponent, zpow_add₀ (by norm_num), zpow_natCast]
  exact mul_lt_mul_of_pos_right hlt hten

theorem pow_size_le (hd : 0 < digits) (exponent : Int) :
    (10 : ℚ) ^ (exponent + (Nat.toDigits 10 digits).length - 1) ≤ digits * 10 ^ exponent := by
  have hten : (0 : ℚ) < 10 ^ exponent := zpow_pos (by norm_num) _
  have hle : (10 : ℚ) ^ ((Nat.toDigits 10 digits).length - 1) ≤ digits := by exact_mod_cast pow_length_le hd
  have hsize : exponent + (Nat.toDigits 10 digits).length - 1 = ((Nat.toDigits 10 digits).length - 1 : Nat) + exponent := by
    have := Nat.length_toDigits_pos (b := 10) (n := digits)
    omega
  rw [hsize, zpow_add₀ (by norm_num), zpow_natCast]
  exact mul_le_mul_of_nonneg_right hle hten.le

theorem two_mul_lt_value_one (h : exponent + (Nat.toDigits 10 digits).length < -330) :
    2 * ((digits : ℚ) * 10 ^ exponent) < value 1 := by
  have hbits : (2 : ℚ) * inUnits 1 < 10 ^ 324 := by
    have : 2 * inUnits 1 < 10 ^ 324 := by decide +kernel
    exact_mod_cast this
  have hv : (digits : ℚ) * 10 ^ exponent < 10 ^ (-324 : Int) :=
    (lt_pow_size digits exponent).trans_le (zpow_le_zpow_right₀ (by norm_num) (by omega))
  have hten : (0 : ℚ) < 10 ^ (-324 : Int) := zpow_pos (by norm_num) _
  rw [value_one, lt_div_iff₀ inUnits_one_pos]
  calc 2 * ((digits : ℚ) * 10 ^ exponent) * inUnits 1 = (digits * 10 ^ exponent) * (2 * inUnits 1) := by ring
    _ ≤ 10 ^ (-324 : Int) * (2 * inUnits 1) :=
        mul_le_mul_of_nonneg_right hv.le (mul_nonneg zero_le_two inUnits_one_pos.le)
    _ < 10 ^ (-324 : Int) * 10 ^ 324 := mul_lt_mul_of_pos_left hbits hten
    _ = 1 := by rw [zpow_neg, zpow_ofNat, inv_mul_cancel₀ (pow_ne_zero _ (by norm_num))]

theorem value_rankLimit_le (hd : 0 < digits) (h : 310 < exponent + (Nat.toDigits 10 digits).length) :
    value rankLimit ≤ digits * 10 ^ exponent := by
  have hlarge : (2 : ℚ) ^ 1024 ≤ 10 ^ 310 := by
    have : 2 ^ 1024 ≤ 10 ^ 310 := by decide +kernel
    exact_mod_cast this
  have hpow : (10 : ℚ) ^ 310 ≤ 10 ^ (exponent + (Nat.toDigits 10 digits).length - 1) := by
    rw [← zpow_natCast]
    exact zpow_le_zpow_right₀ (by norm_num) (by omega)
  rw [value_rankLimit]
  exact hlarge.trans (hpow.trans (pow_size_le hd exponent))

end Size

theorem ofDecimal_nearest (negative : Bool) (digits : Nat) (exponent : Int) :
    ∃ rank, IsNearest (digits * 10 ^ exponent) rank ∧ ofDecimal negative digits exponent = ofRank negative rank := by
  obtain ⟨units, den, hden, hratio, hround⟩ := exists_ratio digits exponent
  have hnear := (rounds_nearestRank units hden).isNearest hden
  rw [← hratio] at hnear
  refine ⟨_, hnear, ?_⟩
  -- a size that decides at once is below half of the smallest double, or beyond the largest
  by_cases hd : digits = 0
  · have hpos : 0 < value 1 := by rw [value_one]; exact one_div_pos.2 inUnits_one_pos
    rw [hnear.eq_zero (by simpa [hd] using hpos), ofDecimal_of_small negative (.inl hd)]
  by_cases hsmall : exponent + (Nat.toDigits 10 digits).length < -330
  · rw [hnear.eq_zero (two_mul_lt_value_one hsmall), ofDecimal_of_small negative (.inr hsmall)]
  by_cases hlarge : 310 < exponent + (Nat.toDigits 10 digits).length
  · have hlimit := hnear.le_of_value_le (value_rankLimit_le (Nat.pos_of_ne_zero hd) hlarge)
    rw [ofRank_of_limit_le negative hlimit, ofDecimal_of_large negative hd hlarge]
  · exact hround negative hd (by omega) (by omega)

end Polish.Double
