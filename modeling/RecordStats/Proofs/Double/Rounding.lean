import Mathlib
import RecordStats.Proofs.Double.Rounded

/-! What the steps by which doubles are rounded do to the numbers they stand for. -/

namespace RecordStats.Double

open Float.Model Float.Model.UnpackedFloat

/-! ### Mantissas and what is left of them -/

/-- The number that a mantissa begins, by what is known of the rest: nothing, less than a half, a half, or more. -/
inductive Extends : ExtendedMantissa → ℚ → Prop
  | exact (m : Nat) : Extends ⟨m, false, false⟩ m
  | low {m : Nat} {v : ℚ} (above : (m : ℚ) < v) (below : v < m + 1 / 2) : Extends ⟨m, false, true⟩ v
  | half (m : Nat) : Extends ⟨m, true, false⟩ (m + 1 / 2)
  | high {m : Nat} {v : ℚ} (above : (m : ℚ) + 1 / 2 < v) (below : v < m + 1) : Extends ⟨m, true, true⟩ v

namespace Extends

variable {em : ExtendedMantissa} {v : ℚ}

theorem bounds (h : Extends em v) : (em.mantissa : ℚ) ≤ v ∧ v < em.mantissa + 1 := by
  cases h with
  | exact m => exact ⟨le_rfl, lt_add_one _⟩
  | low above below => exact ⟨above.le, by linarith⟩
  | half m => exact ⟨by linarith, by linarith⟩
  | high above below => exact ⟨by linarith, below⟩

/-- A quotient, with what the division tells of its remainder. -/
theorem quotient (n : Nat) {d : Nat} (hd : 0 < d) :
    Extends (.ofMantissaAndAccuracy (n / d) (accuracyOfFraction (n % d) d)) (n / d) := by
  have hpos : (0 : ℚ) < d := by exact_mod_cast hd
  obtain ⟨a, ha⟩ : ∃ a, n / d = a := ⟨_, rfl⟩
  obtain ⟨r, hr⟩ : ∃ r, n % d = r := ⟨_, rfl⟩
  have hlt : r < d := hr ▸ Nat.mod_lt n hd
  have parts : (n : ℚ) / d = a + r / d := by
    have whole : n = d * a + r := by rw [← ha, ← hr, Nat.div_add_mod]
    rw [whole]
    push_cast
    field_simp
  have below (k : Nat) (h : k * r < d) (hk : 0 < k) : (r : ℚ) / d < 1 / k := by
    rw [div_lt_div_iff₀ hpos (by exact_mod_cast hk)]
    exact_mod_cast (by rw [mul_comm]; omega : r * k < 1 * d)
  rw [ha, hr, parts, accuracyOfFraction]
  split
  · next h =>
    rw [h, Nat.cast_zero, zero_div, add_zero]
    exact exact a
  · next h =>
    have hr0 : 0 < (r : ℚ) / d := div_pos (by exact_mod_cast Nat.pos_of_ne_zero h) hpos
    -- Twice the remainder against the divisor tells on which side of the middle the quotient is.
    rcases lt_trichotomy (2 * r) d with hlow | hhalf | hhigh
    · rw [Nat.compare_eq_lt.mpr hlow]
      exact low (by linarith) (by linarith [below 2 hlow two_pos])
    · rw [Nat.compare_eq_eq.mpr hhalf]
      have : (r : ℚ) / d = 1 / 2 := by
        rw [div_eq_div_iff hpos.ne' two_ne_zero]
        exact_mod_cast (by omega : r * 2 = 1 * d)
      rw [this]
      exact half a
    · rw [Nat.compare_eq_gt.mpr hhigh]
      have : 1 / 2 < (r : ℚ) / d := by
        rw [div_lt_div_iff₀ two_pos hpos]
        exact_mod_cast (by omega : 1 * d < r * 2)
      have := below 1 (by omega) one_pos
      exact high (by linarith) (by push_cast at this; linarith)

theorem shiftRightOne_even (c : Nat) (r s : Bool) :
    (⟨2 * c, r, s⟩ : ExtendedMantissa).shiftRightOne = ⟨c, false, r || s⟩ := by
  simp [ExtendedMantissa.shiftRightOne]

theorem shiftRightOne_odd (c : Nat) (r s : Bool) :
    (⟨2 * c + 1, r, s⟩ : ExtendedMantissa).shiftRightOne = ⟨c, true, r || s⟩ := by
  simp only [ExtendedMantissa.shiftRightOne, ExtendedMantissa.mk.injEq, bne_iff_ne, and_true]
  omega

theorem shiftRightOne (h : Extends em v) : Extends em.shiftRightOne (v / 2) := by
  obtain ⟨m, r, s⟩ := em
  -- An even mantissa drops less than a half, an odd one a half or more.
  obtain ⟨c, rfl | rfl⟩ : ∃ c, m = 2 * c ∨ m = 2 * c + 1 := ⟨m / 2, by omega⟩
  · rw [shiftRightOne_even]
    cases h with
    | exact =>
      rw [Nat.cast_mul, Nat.cast_two, mul_div_cancel_left₀ _ two_ne_zero]
      exact exact c
    | low above below | high above below =>
      push_cast at above below
      exact low (by linarith) (by linarith)
    | half =>
      push_cast
      exact low (by linarith) (by linarith)
  · rw [shiftRightOne_odd]
    cases h with
    | exact =>
      have : ((2 * c + 1 : Nat) : ℚ) / 2 = c + 1 / 2 := by
        push_cast
        ring
      rw [this]
      exact half c
    | low above below | high above below =>
      push_cast at above below
      exact high (by linarith) (by linarith)
    | half =>
      push_cast
      exact high (by linarith) (by linarith)

theorem shiftRight (h : Extends em v) (k : Nat) : Extends (em >>> k) (v / 2 ^ k) := by
  induction k with
  | zero =>
    rw [pow_zero, div_one]
    exact h
  | succ k ih =>
    rw [pow_succ, ← div_div]
    exact ih.shiftRightOne

/-- The mantissa is rounded as the number is. -/
theorem isHalfEven (h : Extends em v) : IsHalfEven v em.roundedMantissa := by
  cases h with
  | exact m => exact IsHalfEven.intCast m
  | @low m _ above below =>
    show IsHalfEven v (m : Nat)
    constructor
    · rw [Int.cast_natCast, abs_of_pos (by linarith)]
      linarith
    · intro tie
      rw [Int.cast_natCast, abs_of_pos (by linarith)] at tie
      linarith
  | half m =>
    show IsHalfEven _ (m + m % 2 : Nat)
    rcases Nat.mod_two_eq_zero_or_one m with hm | hm
    · rw [hm]
      constructor
      · norm_num
      · intro _
        exact_mod_cast Nat.even_iff.mpr hm
    · rw [hm]
      constructor
      · norm_num
      · intro _
        exact_mod_cast Nat.even_iff.mpr (by omega : (m + 1) % 2 = 0)
  | @high m _ above below =>
    show IsHalfEven v (m + 1 : Nat)
    constructor
    · push_cast
      rw [abs_of_neg (by linarith)]
      linarith
    · intro tie
      push_cast at tie
      rw [abs_of_neg (by linarith)] at tie
      linarith

end Extends

/-! ### Rounding -/

/-- What is known of the mantissa and the exponent of a double other than zero. -/
structure Canonical (m : Nat) (e : Int) : Prop where
  mantissa_lt : m < 2 ^ 53
  exponent_ge : -1074 ≤ e
  full : 2 ^ 52 ≤ m ∨ e = -1074

/-- A number with a sign is rounded to a double, if there were no largest one. -/
inductive Rounds (s : Sign) (q : ℚ) : UnpackedFloat → Prop
  | zero (h : rounded q = 0) : Rounds s q (.zero s)
  | finite {m : Nat} {e : Int} (h : 0 < m) (canonical : Canonical m e) (eq : m * 2 ^ e = rounded q) :
      Rounds s q (.finite s m e h)

theorem log_mul_two_pow {m : Nat} {v : ℚ} (hm : m ≠ 0) (hle : (m : ℚ) ≤ v) (hlt : v < m + 1) (e : Int) :
    Int.log 2 (v * 2 ^ e) = m.log2 + e := by
  have hpos : 0 < v * 2 ^ e := mul_pos ((Nat.cast_pos.mpr (Nat.pos_of_ne_zero hm)).trans_le hle) (two_pow_pos e)
  have low : (2 : ℚ) ^ m.log2 ≤ m := by exact_mod_cast Nat.log2_self_le hm
  have high : (m : ℚ) + 1 ≤ 2 ^ (m.log2 + 1) := by exact_mod_cast (Nat.lt_log2_self : m < 2 ^ (m.log2 + 1))
  refine le_antisymm (Int.lt_add_one_iff.mp ((Int.lt_zpow_iff_log_lt one_lt_two hpos).mp ?_))
    ((Int.zpow_le_iff_le_log one_lt_two hpos).mp ?_)
  · rw [Nat.cast_ofNat, add_right_comm, zpow_add₀ two_ne_zero]
    exact mul_lt_mul_of_pos_right (hlt.trans_le (by exact_mod_cast high)) (two_pow_pos e)
  · rw [Nat.cast_ofNat, zpow_add₀ two_ne_zero]
    have low' : (2 : ℚ) ^ (m.log2 : Int) ≤ m := by exact_mod_cast low
    exact mul_le_mul_of_nonneg_right (low'.trans hle) (two_pow_pos e).le

theorem targetExponent_eq (m : Nat) (e : Int) :
    Format.binary64.targetExponent (totalExponent m e) = max (m.log2 + e - 52) (-1074) := by
  simp only [Format.targetExponent, totalExponent, Format.mantissaBits, Format.minExponent]
  omega

theorem targetExponent_eq_grid {m : Nat} {v : ℚ} {e : Int} (hv : 0 < v) (hle : (m : ℚ) ≤ v) (hlt : v < m + 1)
    (he : e ≤ Format.binary64.targetExponent (totalExponent m e)) :
    Format.binary64.targetExponent (totalExponent m e) = grid (v * 2 ^ e) := by
  have hpos : 0 < v * 2 ^ e := mul_pos hv (two_pow_pos e)
  rw [targetExponent_eq] at he ⊢
  rw [grid, abs_of_pos hpos]
  rcases eq_or_ne m 0 with rfl | hm
  · -- less than the least double
    have hlog : Int.log 2 (v * 2 ^ e) < e := by
      refine (Int.lt_zpow_iff_log_lt one_lt_two hpos).mp ?_
      rw [Nat.cast_zero, zero_add] at hlt
      simpa using mul_lt_mul_of_pos_right hlt (two_pow_pos e)
    have : Nat.log2 0 = 0 := rfl
    omega
  · rw [log_mul_two_pow hm hle hlt]

theorem shiftToTargetExponent_exact {m : Nat} {e : Int} (hm : m < 2 ^ 53) (he : -1074 ≤ e) :
    shiftToTargetExponent Format.binary64 m e .exact = (⟨m, false, false⟩, e) := by
  have hlog : m.log2 ≤ 52 := by
    rcases eq_or_ne m 0 with rfl | hne
    · decide
    · exact Nat.lt_succ_iff.mp ((Nat.log2_lt hne).mpr hm)
  have hshift : (Format.binary64.targetExponent (totalExponent m e) - e).toNat = 0 := by
    rw [targetExponent_eq]
    omega
  simp only [shiftToTargetExponent, shiftToExponent, hshift]
  exact Prod.ext rfl (Int.add_zero e)

theorem shiftToTargetExponent_carry {e : Int} (he : -1074 ≤ e) :
    shiftToTargetExponent Format.binary64 (2 ^ 53) e .exact = (⟨2 ^ 52, false, false⟩, e + 1) := by
  have hshift : (Format.binary64.targetExponent (totalExponent (2 ^ 53) e) - e).toNat = 1 := by
    rw [targetExponent_eq, Nat.log2_two_pow]
    omega
  simp only [shiftToTargetExponent, shiftToExponent, hshift]
  rfl

theorem mantissa_ofMantissaAndAccuracy (m : Nat) (accuracy : Accuracy) :
    (ExtendedMantissa.ofMantissaAndAccuracy m accuracy).mantissa = m := by
  cases accuracy with
  | exact => rfl
  | inexact o => cases o <;> rfl

/-- The number of bits that are left is right: no more than 53, and no fewer unless the number is next to zero. -/
theorem halfEven_grid_bounds {q : ℚ} (hq : 0 < q) :
    halfEven (q / 2 ^ grid q) ≤ 2 ^ 53 ∧ (2 ^ 52 ≤ halfEven (q / 2 ^ grid q) ∨ grid q = -1074) := by
  have hgrid : grid q = max (Int.log 2 q - 52) (-1074) := by rw [grid, abs_of_pos hq]
  have shifted (k : Nat) : (2 : ℚ) ^ k * 2 ^ grid q = 2 ^ (grid q + k) := by
    rw [zpow_add₀ two_ne_zero, zpow_natCast, mul_comm]
  constructor
  · have above : q / 2 ^ grid q ≤ (2 ^ 53 : Int) := by
      rw [div_le_iff₀ (two_pow_pos _)]
      rw [Int.cast_pow, Int.cast_ofNat, shifted]
      exact (Int.lt_zpow_succ_log_self one_lt_two q).le.trans (zpow_le_zpow_right₀ one_le_two (by omega))
    exact (halfEven_mono above).trans_eq (halfEven_intCast _)
  · by_cases least : grid q = -1074
    · exact .inr least
    · have below : (2 ^ 52 : Int) ≤ q / 2 ^ grid q := by
        rw [le_div_iff₀ (two_pow_pos _)]
        rw [Int.cast_pow, Int.cast_ofNat, shifted]
        have low : (2 : ℚ) ^ Int.log 2 q ≤ q := Int.zpow_log_le_self one_lt_two hq
        exact (zpow_le_zpow_right₀ one_le_two (by omega)).trans low
      exact .inl ((halfEven_intCast _).symm.trans_le (halfEven_mono below))

theorem roundWithAccuracy_rounds (s : Sign) {m : Nat} {e : Int} {accuracy : Accuracy} {v : ℚ}
    (h : Extends (.ofMantissaAndAccuracy m accuracy) v) (hv : 0 < v)
    (he : e ≤ Format.binary64.targetExponent (totalExponent m e)) :
    Rounds s (v * 2 ^ e) (roundWithAccuracy Format.binary64 s m e accuracy) := by
  obtain ⟨hle, hlt⟩ := h.bounds
  rw [mantissa_ofMantissaAndAccuracy] at hle hlt
  have hpos : 0 < v * 2 ^ e := mul_pos hv (two_pow_pos e)
  obtain ⟨T, hT⟩ : ∃ T, grid (v * 2 ^ e) = T := ⟨_, rfl⟩
  have htarget : Format.binary64.targetExponent (totalExponent m e) = T :=
    (targetExponent_eq_grid hv hle hlt he).trans hT
  rw [htarget] at he
  have hT1074 : -1074 ≤ T := hT ▸ le_max_right _ _
  obtain ⟨k, hk⟩ : ∃ k : Nat, T = e + k := ⟨(T - e).toNat, by omega⟩
  have hshift : (T - e).toNat = k := by omega
  -- the first shift leaves the number as a multiple of its grid
  have scaled : v / 2 ^ k = v * 2 ^ e / 2 ^ T := by
    rw [hk, add_comm, zpow_add₀ two_ne_zero, zpow_natCast, mul_div_mul_right _ _ (two_pow_pos e).ne']
  obtain ⟨R, hR⟩ : ∃ R, (ExtendedMantissa.ofMantissaAndAccuracy m accuracy >>> k).roundedMantissa = R := ⟨_, rfl⟩
  have first : shiftToTargetExponent Format.binary64 m e accuracy =
      (ExtendedMantissa.ofMantissaAndAccuracy m accuracy >>> k, T) := by
    simp only [shiftToTargetExponent, shiftToExponent, htarget, hshift, ← hk]
  have hround : halfEven (v * 2 ^ e / 2 ^ T) = R := by
    rw [← scaled, ← hR]
    exact halfEven_eq (h.shiftRight k).isHalfEven
  obtain ⟨hhigh, hfull⟩ := halfEven_grid_bounds hpos
  rw [hT, hround] at hhigh hfull
  have hnumber : rounded (v * 2 ^ e) = R * 2 ^ T := by rw [rounded, hT, hround, Int.cast_natCast]
  have hR53 : R ≤ 2 ^ 53 := by exact_mod_cast hhigh
  have hfull' : 2 ^ 52 ≤ R ∨ T = -1074 := hfull.imp (fun h => by exact_mod_cast h) id
  rcases hR53.lt_or_eq with hlt | rfl
  · have second := shiftToTargetExponent_exact hlt hT1074
    rcases eq_or_ne R 0 with rfl | hzero
    · simp only [roundWithAccuracy, first, hR, second, ↓reduceDIte]
      refine .zero ?_
      rw [hnumber, Nat.cast_zero, zero_mul]
    · simp only [roundWithAccuracy, first, hR, second, hzero, ↓reduceDIte]
      exact .finite _ ⟨hlt, hT1074, hfull'⟩ hnumber.symm
  · have second := shiftToTargetExponent_carry hT1074
    simp only [roundWithAccuracy, first, hR, second]
    rw [dif_neg (by decide)]
    refine .finite _ ⟨by decide, by omega, .inl le_rfl⟩ ?_
    rw [hnumber, zpow_add₀ two_ne_zero]
    push_cast
    ring

end RecordStats.Double
