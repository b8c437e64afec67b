import Mathlib
import RecordStats.Builtin.Apply
import RecordStats.Proofs.Double.Integer
import RecordStats.Proofs.Double.Tens
import RecordStats.Proofs.Evaluation.Arithmetic

/-! Rounding integers to multiples of a power of ten. It is done with doubles. As long as integers are doubles
    themselves, up to `2 ^ 53`, the result is the nearest multiple; larger ones may be off it by as much as doubles of
    their size are apart. Powers of ten that are infinite as doubles leave no result at all. -/

namespace RecordStats

/-- `m` is the multiple of `t` nearest to `n`; of two as near ones it is the one that is even in units of `t`. -/
structure NearestMultiple (t n m : Int) : Prop where
  divides : t ∣ m
  near : 2 * |n - m| ≤ t
  even : 2 * |n - m| = t → Even (m / t)

namespace Double

variable {n z : Int} {t : Nat}

theorem abs_sub_mul (q : ℚ) (z : Int) (ht : 0 < t) : |q - z * t| = |q / t - z| * t := by
  have hpos : (0 : ℚ) < t := by exact_mod_cast ht
  rw [← abs_of_pos hpos, ← abs_mul, abs_of_pos hpos, sub_mul, div_mul_cancel₀ _ hpos.ne']

theorem nearestMultiple_of_isHalfEven (ht : 0 < t) (h : IsHalfEven (n / t) z) : NearestMultiple t n (z * t) := by
  have hpos : (0 : ℚ) < t := by exact_mod_cast ht
  have scaled := abs_sub_mul n z ht
  refine ⟨Int.dvd_mul_left _ _, ?_, fun tie => ?_⟩
  · have : 2 * |(n : ℚ) - z * t| ≤ t := by
      rw [scaled]
      nlinarith [h.near]
    exact_mod_cast this
  · rw [Int.mul_ediv_cancel _ (by omega)]
    have tie' : 2 * |(n : ℚ) - z * t| = t := by exact_mod_cast tie
    rw [scaled, ← mul_assoc] at tie'
    have half : 2 * |(n : ℚ) / t - z| = 1 := mul_right_cancel₀ hpos.ne' (tie'.trans (one_mul _).symm)
    exact h.even (by linarith)

/-- Halfway between two whole numbers is a double, if they are not too large. -/
theorem rounded_half {s : Int} (hs : (2 * z + s).natAbs ≤ 2 ^ 53) : rounded (z + s / 2) = z + s / 2 := by
  refine rounded_eq (z := 2 * z + s) (e := -1) ?_ hs (by decide)
  push_cast
  rw [zpow_neg_one]
  ring

/-- What is between two doubles is still between them when it has been rounded. -/
theorem abs_rounded_sub_le_half {q : ℚ} (hz : z.natAbs < 2 ^ 52) (h : |q - z| ≤ 1 / 2) : |rounded q - z| ≤ 1 / 2 := by
  obtain ⟨low, high⟩ := abs_le.mp h
  have above := rounded_mono (show q ≤ z + (1 : Int) / 2 by push_cast; linarith)
  have below := rounded_mono (show z + (-1 : Int) / 2 ≤ q by push_cast; linarith)
  rw [rounded_half (by omega)] at above below
  push_cast at above below
  exact abs_le.mpr ⟨by linarith, by linarith⟩

theorem abs_cast_le (hn : n.natAbs ≤ 2 ^ 53) : |(n : ℚ)| ≤ 2 ^ 53 := by
  rw [← Int.cast_abs, Int.abs_eq_natAbs]
  exact_mod_cast hn

theorem natAbs_lt_of_isHalfEven (ht : 10 ≤ t) (hn : n.natAbs ≤ 2 ^ 53) (h : IsHalfEven (n / t) z) :
    z.natAbs < 2 ^ 52 := by
  have quotient : |(n : ℚ) / t| ≤ 2 ^ 53 / 10 := by
    rw [abs_div, Nat.abs_cast]
    exact div_le_div₀ (by positivity) (abs_cast_le hn) (by norm_num) (by exact_mod_cast ht)
  have apart : |(z : ℚ)| ≤ |(n : ℚ) / t| + |(n : ℚ) / t - z| := by
    have := abs_sub (n / t : ℚ) (n / t - z)
    rwa [sub_sub_cancel] at this
  have : |(z : ℚ)| < 2 ^ 52 := by linarith [h.near]
  rw [← Int.cast_abs, Int.abs_eq_natAbs] at this
  exact_mod_cast this

/-- The quotient of whole numbers is not next to zero. -/
theorem abs_rounded_sub_lt_of_ne_zero (hn : n ≠ 0) (ht : 0 < t) (hle : t ≤ 10 ^ 22) :
    |rounded ((n : ℚ) / t) - n / t| < |(n : ℚ) / t| / 2 ^ 53 := by
  refine abs_rounded_sub_lt ?_
  have one : (1 : ℚ) ≤ |(n : ℚ)| := by exact_mod_cast Int.one_le_abs hn
  calc (2 : ℚ) ^ (-1022 : Int) ≤ 2 ^ (-74 : Int) := zpow_le_zpow_right₀ one_le_two (by decide)
    _ ≤ 1 / 10 ^ 22 := by norm_num
    _ ≤ |(n : ℚ)| / t := div_le_div₀ (abs_nonneg _) one (by exact_mod_cast ht) (by exact_mod_cast hle)
    _ = |(n : ℚ) / t| := by rw [abs_div, Nat.abs_cast]

/-- The quotient is rounded before it is rounded to a whole number, but that leads to the same whole number. -/
theorem isHalfEven_rounded (ht : 10 ≤ t) (even : 2 ∣ t) (hle : t ≤ 10 ^ 22) (hn : n.natAbs ≤ 2 ^ 53)
    (h : IsHalfEven (n / t) z) : IsHalfEven (rounded (n / t)) z := by
  have ht0 : 0 < t := by omega
  have hpos : (0 : ℚ) < t := by exact_mod_cast ht0
  refine ⟨abs_rounded_sub_le_half (natAbs_lt_of_isHalfEven ht hn h) h.near, fun tie => ?_⟩
  by_cases same : |(n : ℚ) / t - z| = 1 / 2
  · exact h.even same
  exfalso
  -- short of the middle by at least one part of `t`, which is more than rounding makes up for
  have short : |(n : ℚ) / t - z| ≤ 1 / 2 - 1 / t := by
    have scaled := abs_sub_mul n z ht0
    have below : 2 * |n - z * t| < t := by
      have : 2 * |(n : ℚ) - z * t| < t := by
        rw [scaled]
        nlinarith [lt_of_le_of_ne h.near same]
      exact_mod_cast this
    have gap : 2 * |n - z * t| + 2 ≤ t := by omega
    have gap' : 2 * |(n : ℚ) - z * t| + 2 ≤ t := by exact_mod_cast gap
    rw [scaled] at gap'
    rw [le_sub_iff_add_le, ← mul_le_mul_iff_of_pos_right hpos, add_mul, div_mul_cancel₀ _ hpos.ne']
    linarith
  have moved : |rounded ((n : ℚ) / t) - n / t| < 1 / t := by
    rcases eq_or_ne n 0 with rfl | hn0
    · rw [Int.cast_zero, zero_div, rounded_zero, sub_zero, abs_zero]
      positivity
    have size := abs_cast_le hn
    refine (abs_rounded_sub_lt_of_ne_zero hn0 ht0 hle).trans_le ?_
    rw [abs_div, Nat.abs_cast, div_div, div_le_div_iff₀ (by positivity) hpos]
    nlinarith
  have triangle := abs_sub_le (rounded ((n : ℚ) / t)) (n / t) z
  linarith

/-- The multiple is a double again. -/
theorem rounded_multiple {k : Nat} (hk : 0 < k) (hle : k ≤ 22) (hn : n.natAbs ≤ 2 ^ 53)
    (h : IsHalfEven (n / (10 ^ k : Nat)) z) : rounded (z * 10 ^ k) = z * 10 ^ k := by
  refine rounded_mul_ten_pow ?_
  have near := (nearestMultiple_of_isHalfEven (Nat.pow_pos (by decide)) h).near
  have five : (5 : Int) ^ k ≤ 5 ^ 22 := pow_le_pow_right₀ (by decide) hle
  have two : (2 : Int) ≤ 2 ^ k := le_self_pow₀ (by decide) hk.ne'
  have ten : ((10 ^ k : Nat) : Int) = 5 ^ k * 2 ^ k := by
    rw [← mul_pow]
    norm_num
  rw [ten] at near
  have size : |z * (5 ^ k * 2 ^ k)| ≤ |n| + |n - z * (5 ^ k * 2 ^ k)| := by
    have := abs_sub n (n - z * (5 ^ k * 2 ^ k))
    rwa [sub_sub_cancel] at this
  rw [← mul_assoc z, abs_mul (z * 5 ^ k), abs_of_pos (pow_pos (by decide : (0 : Int) < 2) k), mul_assoc z] at size
  by_contra large
  have large' : (2 : Int) ^ 53 + 1 ≤ |z * 5 ^ k| := by
    rw [Int.abs_eq_natAbs]
    omega
  have small : |n| ≤ 2 ^ 53 := by
    rw [Int.abs_eq_natAbs]
    omega
  have product : (2 ^ 54 + 2 - 5 ^ 22) * 2 ≤ (2 * |z * 5 ^ k| - 5 ^ k) * 2 ^ k :=
    mul_le_mul (by linarith) two (by decide) (by linarith)
  linarith

theorem abs_halfEven_le {q : ℚ} {m : Int} (h : |q| ≤ m) : |halfEven q| ≤ m := by
  obtain ⟨low, high⟩ := abs_le.mp h
  have above := halfEven_mono high
  have below := halfEven_mono low
  rw [← Int.cast_neg] at below
  rw [halfEven_intCast] at above below
  exact abs_le.mpr ⟨below, above⟩

end Double

namespace Builtin

open Double
open Decimal (Fits)

variable {x : Float} {q : ℚ} {k : Nat}

theorem denotes_roundTens (hx : Denotes x q) (hq : |q| ≤ 2 ^ 63) (hk : k ≤ 22) :
    Denotes (roundTens x k) (rounded (halfEven (rounded (q / 10 ^ k)) * 10 ^ k)) := by
  have scale : Denotes (powNat 10 (min k 2147483647)) (10 ^ k) := by
    rw [min_eq_left (by omega)]
    exact denotes_powNat_ten hk
  have size : |q / 10 ^ k| ≤ 2 ^ 63 := by
    rw [abs_div, abs_of_pos (by positivity : (0 : ℚ) < 10 ^ k)]
    exact (div_le_self (abs_nonneg q) (one_le_pow₀ (by norm_num))).trans hq
  have quotient := hx.div scale (by positivity) (abs_rounded_lt (e := 63) size (by decide) (by decide))
  refine quotient.roundEvenFloat.mul scale (abs_rounded_lt (e := 137) ?_ (by decide) (by decide))
  have whole : |halfEven (rounded (q / 10 ^ k))| ≤ 2 ^ 63 := by
    refine abs_halfEven_le (m := 2 ^ 63) ?_
    rw [Int.cast_pow, Int.cast_ofNat]
    simpa using abs_rounded_le (z := 1) (e := 63) (by simpa using size) (by decide) (by decide)
  have whole' : |(halfEven (rounded (q / 10 ^ k)) : ℚ)| ≤ 2 ^ 63 := by exact_mod_cast whole
  rw [abs_mul, abs_of_pos (by positivity : (0 : ℚ) < 10 ^ k)]
  calc |(halfEven (rounded (q / 10 ^ k)) : ℚ)| * 10 ^ k ≤ 2 ^ 63 * 10 ^ 22 :=
        mul_le_mul whole' (pow_le_pow_right₀ (by norm_num) hk) (by positivity) (by positivity)
    _ ≤ 2 ^ (137 : Int) := by norm_num

/-- Integers are lost in a power of ten that is as large as this. -/
theorem denotes_roundTens_zero (hx : Denotes x q) (hq : |q| ≤ 2 ^ 63) (hk : 20 ≤ k) (hk' : k ≤ 308) :
    Denotes (roundTens x k) 0 := by
  obtain ⟨v, near, scale⟩ := (powNat_ten k).1 hk'
  rw [← min_eq_left (by omega : k ≤ 2147483647)] at scale
  have hv : 2 ^ 65 ≤ v := near.large hk
  have hv0 : 0 < v := zero_lt_one.trans_le near.one_le
  have size : |q / v| ≤ (1 : Int) * 2 ^ (-2 : Int) := by
    rw [abs_div, abs_of_pos hv0, div_le_iff₀ hv0]
    norm_num
    linarith
  have small := abs_rounded_le size (by decide) (by decide)
  have quotient := hx.div scale hv0.ne' (abs_rounded_lt (e := -2) (by simpa using size) (by decide) (by decide))
  have none : halfEven (rounded (q / v)) = 0 := by
    have quarter : |rounded (q / v)| ≤ 1 / 4 := by
      norm_num at small
      linarith
    refine halfEven_eq ⟨?_, fun tie => ?_⟩
    · rw [Int.cast_zero, sub_zero]
      linarith
    · rw [Int.cast_zero, sub_zero] at tie
      linarith
  have product := quotient.roundEvenFloat.mul scale
  rw [none, Int.cast_zero, zero_mul, rounded_zero, abs_zero] at product
  exact product (two_pow_pos _)

theorem isFinite_eq_false_of_isNaN (h : x.isNaN = true) : x.isFinite = false := by
  have number : x.toModel.unpack.isNaN = true := h
  show x.toModel.unpack.isFinite = false
  cases hu : x.toModel.unpack with
  | notANumber | infinity s => rfl
  | zero s | finite s m e hm =>
    rw [hu] at number
    cases number

theorem isNaN_roundTens (hx : Denotes x q) (hk : 309 ≤ k) : (roundTens x k).isNaN = true := by
  have scale := (powNat_ten (min k 2147483647)).2 (by omega)
  have quotient := (Infinite.denotes_div hx scale).roundEvenFloat
  rw [← Int.cast_zero, halfEven_intCast, Int.cast_zero] at quotient
  exact Infinite.isNaN_zero_mul quotient scale

/-! ### Integers -/

theorem abs_nearestWhole_le {n : Int} (h : |n| ≤ 2 ^ 63) : |nearestWhole n| ≤ 2 ^ 63 := by
  have := abs_rounded_le (q := n) (z := 1) (e := 63) (by simpa using (by exact_mod_cast h : |(n : ℚ)| ≤ 2 ^ 63))
    (by decide) (by decide)
  rw [rounded_intCast] at this
  exact_mod_cast (by simpa using this : |(nearestWhole n : ℚ)| ≤ 2 ^ 63)

theorem abs_nearestWhole_sub_le {n : Int} (h : |n| < 2 ^ 64) : |nearestWhole n - n| ≤ 2 ^ 10 := by
  rcases eq_or_ne n 0 with rfl | hn
  · decide
  have size : |(n : ℚ)| < 2 ^ ((11 : Int) + 53) := by
    rw [← Int.cast_abs]
    exact_mod_cast h
  have unit : (2 : ℚ) ^ grid n ≤ 2 ^ (11 : Int) :=
    zpow_le_zpow_right₀ one_le_two (grid_le_of_abs_lt (Int.cast_ne_zero.mpr hn) size (by decide))
  have moved := abs_rounded_sub_le n
  rw [rounded_intCast] at moved
  have : |(nearestWhole n : ℚ) - n| ≤ 2 ^ 10 := by
    norm_num at unit ⊢
    linarith
  exact_mod_cast this

/-- What becomes of an integer that is rounded to a multiple of `10 ^ k`. It is the nearest multiple if the integer is a
    double, or if that multiple is zero anyway and the power is not infinite. Else it is near to it, and only an
    integer next to the limits can be rounded out of them. -/
structure RoundsToTens (n : Int) (k : Nat) (result : Except Cause Value) : Prop where
  exact : n.natAbs ≤ 2 ^ 53 ∨ 20 ≤ k → k ≤ 308 →
    ∃ w : Int64, result = .ok (.integer w) ∧ NearestMultiple (10 ^ k) n w.toInt
  close : k ≤ 19 → (∃ w : Int64, result = .ok (.integer w) ∧ 2 * |n - w.toInt| ≤ 10 ^ k + 2 ^ 13) ∨
    ((Cause.outOfRange round.name).kind = .runtime ∧ result = .error (.outOfRange round.name) ∧
      2 ^ 64 ≤ 2 * |n| + 10 ^ k + 2 ^ 13)
  infinite : 309 ≤ k → ∃ x : Float, x.isNaN = true ∧ (Cause.notIntegral round.name x).kind = .runtime ∧
    result = .error (.notIntegral round.name x)

theorem apply_round {n d : Int64} (hd : d.toInt < 0) : round.apply [.integer n, .integer d] =
    integral .round (roundTens (ofWord n) (-d.toInt).toNat) truncate := by
  show (if 0 ≤ d.toInt then Except.ok (Value.integer n) else _) = _
  rw [if_neg (not_le.mpr hd)]

theorem integral_of_denotes (b : Builtin) {z : Int} (h : Denotes x z) : integral b x truncate = word b z := by
  rw [integral, if_pos h.isFinite, h.truncate]

theorem word_of_fits (b : Builtin) {z : Int} (h : Fits z) : ∃ w : Int64, word b z = .ok (.integer w) ∧ w.toInt = z := by
  have fitting : Decimal.word? z = some (Int64.ofInt z) := if_pos h
  exact ⟨_, by rw [word, Builtin.fitting, fitting], Lexeme.toInt_of_word? fitting⟩

theorem word_of_not_fits (b : Builtin) {z : Int} (h : ¬ Fits z) : word b z = .error (.outOfRange b.name) := by
  have fitting : Decimal.word? z = none := if_neg h
  rw [word, Builtin.fitting, fitting]

theorem abs_toInt_le (n : Int64) : |n.toInt| ≤ 2 ^ 63 := abs_le.mpr ⟨Int64.le_toInt n, (Int64.toInt_lt n).le⟩

/-- A power of ten, as a natural number and as what else it is used for. -/
theorem exists_tens (k : Nat) : ∃ t : Nat, 10 ^ k = t ∧ (10 : ℚ) ^ k = t ∧ (10 : Int) ^ k = t :=
  ⟨10 ^ k, rfl, (Nat.cast_pow 10 k).symm, (Nat.cast_pow 10 k).symm⟩

theorem roundsToTens_exact {n : Int64} (hn : n.toInt.natAbs ≤ 2 ^ 53) (hk : 0 < k) (hle : k ≤ 19) :
    ∃ w : Int64, integral .round (roundTens (ofWord n) k) truncate = .ok (.integer w) ∧
      NearestMultiple (10 ^ k) n.toInt w.toInt := by
  have hx := denotes_ofWord n
  rw [nearestWhole_eq hn] at hx
  obtain ⟨t, ht, cast, cast'⟩ := exists_tens k
  have small : t ≤ 10 ^ 19 := ht ▸ Nat.pow_le_pow_right (by decide) hle
  have large : 10 ≤ t := ht ▸ Nat.le_self_pow hk.ne' 10
  have even : 2 ∣ t := ht ▸ dvd_pow (by decide) hk.ne'
  obtain ⟨z, hz⟩ : ∃ z, halfEven (n.toInt / t) = z := ⟨_, rfl⟩
  have h : IsHalfEven (n.toInt / t) z := hz ▸ isHalfEven _
  have multiple := nearestMultiple_of_isHalfEven (by omega) h
  have still := rounded_multiple hk (by omega) hn (ht.symm ▸ h)
  have result := denotes_roundTens hx (by exact_mod_cast abs_toInt_le n) (by omega : k ≤ 22)
  rw [cast, halfEven_eq (isHalfEven_rounded large even (by omega) hn h), ← cast, still, cast,
    ← Int.cast_natCast, ← Int.cast_mul] at result
  have fits : Fits (z * t) := by
    have near := multiple.near
    obtain ⟨low, high⟩ := abs_le.mp (by omega : |n.toInt - z * t| ≤ t / 2)
    unfold Fits
    omega
  obtain ⟨w, hw, hwz⟩ := word_of_fits .round fits
  rw [integral_of_denotes .round result, cast', hw]
  exact ⟨w, rfl, hwz ▸ multiple⟩

theorem roundsToTens_zero (n : Int64) (hk : 20 ≤ k) (hk' : k ≤ 308) :
    ∃ w : Int64, integral .round (roundTens (ofWord n) k) truncate = .ok (.integer w) ∧
      NearestMultiple (10 ^ k) n.toInt w.toInt := by
  have size : |(nearestWhole n.toInt : ℚ)| ≤ 2 ^ 63 := by exact_mod_cast abs_nearestWhole_le (abs_toInt_le n)
  have result := denotes_roundTens_zero (denotes_ofWord n) size hk hk'
  rw [← Int.cast_zero] at result
  have none : word .round 0 = .ok (.integer 0) := rfl
  have far : 2 * |n.toInt| < 10 ^ k := by
    calc 2 * |n.toInt| ≤ 2 * 2 ^ 63 := by linarith [abs_toInt_le n]
      _ < 10 ^ 20 := by norm_num
      _ ≤ 10 ^ k := pow_le_pow_right₀ (by norm_num) hk
  rw [integral_of_denotes .round result, none]
  refine ⟨0, rfl, dvd_zero _, ?_, fun tie => ?_⟩
  · rw [Int64.toInt_zero, sub_zero]
    exact far.le
  · rw [Int64.toInt_zero, sub_zero] at tie
    exact absurd tie far.ne

/-- The multiple that is found is at most a half of the power away, and what the quotient is moved by. -/
theorem abs_multiple_sub_le {N : Int} {t : Nat} (ht : 0 < t) (hN : |N| ≤ 2 ^ 63) (hle : t ≤ 10 ^ 22) :
    2 * |N - halfEven (rounded (N / t)) * t| ≤ t + 2 ^ 11 := by
  have hpos : (0 : ℚ) < t := by exact_mod_cast ht
  have size : |(N : ℚ)| ≤ 2 ^ 63 := by exact_mod_cast hN
  have moved : |rounded ((N : ℚ) / t) - N / t| * t ≤ 2 ^ 10 := by
    rcases eq_or_ne N 0 with rfl | hN0
    · rw [Int.cast_zero, zero_div, rounded_zero, sub_zero, abs_zero, zero_mul]
      norm_num
    calc |rounded ((N : ℚ) / t) - N / t| * t ≤ |(N : ℚ) / t| / 2 ^ 53 * t :=
          mul_le_mul_of_nonneg_right (abs_rounded_sub_lt_of_ne_zero hN0 ht hle).le hpos.le
      _ = |(N : ℚ)| / 2 ^ 53 := by
          rw [abs_div, Nat.abs_cast]
          field_simp
      _ ≤ 2 ^ 10 := by
          rw [div_le_iff₀ (by norm_num)]
          linarith
  -- From the quotient to the multiple that is found, by way of the rounded quotient.
  obtain ⟨z, hz⟩ : ∃ z, halfEven (rounded ((N : ℚ) / t)) = z := ⟨_, rfl⟩
  have near : |rounded ((N : ℚ) / t) - z| ≤ 1 / 2 := hz ▸ (isHalfEven _).near
  have apart : |(N : ℚ) / t - z| ≤ |rounded ((N : ℚ) / t) - N / t| + |rounded ((N : ℚ) / t) - z| := by
    have := abs_sub_le ((N : ℚ) / t) (rounded (N / t)) z
    rwa [abs_sub_comm (N / t : ℚ) (rounded (N / t))] at this
  have : 2 * |(N : ℚ) - z * t| ≤ t + 2 ^ 11 := by
    rw [abs_sub_mul _ _ ht]
    nlinarith
  rw [hz]
  exact_mod_cast this

/-- Beside the one to a multiple there are three roundings, each by at most `2 ^ 10`. -/
theorem denotes_roundTens_close (n : Int64) (hle : k ≤ 19) :
    ∃ r : Int, Denotes (roundTens (ofWord n) k) r ∧ 2 * |n.toInt - r| ≤ 10 ^ k + 2 ^ 13 := by
  obtain ⟨t, ht, cast, cast'⟩ := exists_tens k
  have small : t ≤ 10 ^ 19 := ht ▸ Nat.pow_le_pow_right (by decide) hle
  have pos : 0 < t := ht ▸ Nat.pow_pos (by decide)
  obtain ⟨N, hN⟩ : ∃ N, nearestWhole n.toInt = N := ⟨_, rfl⟩
  have hx := denotes_ofWord n
  have size := abs_nearestWhole_le (abs_toInt_le n)
  have first := abs_nearestWhole_sub_le ((abs_toInt_le n).trans_lt (by norm_num))
  rw [hN] at hx size first
  have second := abs_multiple_sub_le pos size (small.trans (by decide))
  have result := denotes_roundTens hx (by exact_mod_cast size) (by omega : k ≤ 22)
  obtain ⟨z, hz⟩ : ∃ z, halfEven (rounded ((N : ℚ) / t)) = z := ⟨_, rfl⟩
  rw [hz] at second
  rw [cast, hz, ← Int.cast_natCast, ← Int.cast_mul, rounded_intCast] at result
  have third : |nearestWhole (z * t) - z * t| ≤ 2 ^ 10 := by
    refine abs_nearestWhole_sub_le ?_
    have := abs_sub N (N - z * t)
    rw [sub_sub_cancel] at this
    omega
  -- The distances of the integer, its double, the multiple and the double of that are added up.
  refine ⟨nearestWhole (z * t), result, ?_⟩
  rw [cast']
  rw [abs_sub_comm] at first third
  have path := abs_sub_le n.toInt N (nearestWhole (z * t))
  have path' := abs_sub_le N (z * t) (nearestWhole (z * t))
  omega

/-- Rounding integers to multiples of powers of ten. -/
theorem roundsToTens {n d : Int64} (hd : d.toInt < 0) :
    RoundsToTens n.toInt (-d.toInt).toNat (round.apply [.integer n, .integer d]) := by
  rw [apply_round hd]
  refine ⟨fun h hk => ?_, fun hk => ?_, fun hk => ?_⟩
  · by_cases far : 20 ≤ (-d.toInt).toNat
    · exact roundsToTens_zero n far hk
    · exact roundsToTens_exact (h.resolve_right far) (by omega) (by omega)
  · obtain ⟨r, result, near⟩ := denotes_roundTens_close n hk
    rw [integral_of_denotes .round result]
    by_cases fits : Fits r
    · obtain ⟨w, hw, hwr⟩ := word_of_fits .round fits
      exact .inl ⟨w, hw, hwr ▸ near⟩
    · refine .inr ⟨rfl, word_of_not_fits .round fits, ?_⟩
      have large : 2 ^ 63 ≤ |r| := by
        unfold Fits at fits
        rw [le_abs]
        omega
      have path := abs_sub n.toInt (n.toInt - r)
      rw [sub_sub_cancel] at path
      omega
  · have nan := isNaN_roundTens (denotes_ofWord n) hk
    refine ⟨_, nan, rfl, ?_⟩
    rw [integral, if_neg (by rw [isFinite_eq_false_of_isNaN nan]; exact Bool.false_ne_true)]

/-- In the middle between two multiples the even one is taken. -/
theorem roundsToTens_middle :
    ∃ w : Int64, w.toInt = 1200 ∧ round.apply [.integer 1250, .integer (-2)] = .ok (.integer w) := by
  have rounds := roundsToTens (n := 1250) (d := -2) (by decide)
  obtain ⟨w, hw, ⟨c, hc⟩, near, even⟩ := rounds.exact (.inl (by decide)) (by decide)
  have number : (1250 : Int64).toInt = 1250 := rfl
  have hundred : (10 : Int) ^ (-(-2 : Int64).toInt).toNat = 100 := rfl
  rw [number, hundred] at near even
  rw [hundred] at hc
  rw [hc, Int.mul_ediv_cancel_left _ (by decide), Int.even_iff] at even
  rw [hc] at near
  refine ⟨w, ?_, hw⟩
  obtain ⟨low, high⟩ := abs_le.mp (by omega : |1250 - 100 * c| ≤ 50)
  have tie : c = 13 → |1250 - 100 * c| = 50 := by
    rintro rfl
    rfl
  omega

/-- Rounding integers is not exact: above `2 ^ 53` the nearest multiple of ten need not be a double. -/
theorem round_not_exact : ¬ ∀ (n d : Int64) (m : Int), d.toInt < 0 →
    NearestMultiple (10 ^ (-d.toInt).toNat) n.toInt m → Fits m →
      ∃ w : Int64, w.toInt = m ∧ round.apply [.integer n, .integer d] = .ok (.integer w) := by
  intro exact
  have nearest : NearestMultiple (10 ^ 1) 4611686018427387905 4611686018427387900 := ⟨by decide, by decide, by decide⟩
  obtain ⟨w, hw, result⟩ := exact 4611686018427387905 (-1) 4611686018427387900 (by decide) nearest (by decide)
  obtain ⟨r, hr, -⟩ := denotes_roundTens_close (k := 1) 4611686018427387905 (by decide)
  rw [apply_round (by decide)] at result
  have found := (integral_of_denotes .round hr).symm.trans result
  have fits : Fits r := by
    by_contra large
    rw [word_of_not_fits .round large] at found
    cases found
  obtain ⟨w', hw', hwr⟩ := word_of_fits .round fits
  have same : w' = w := Value.integer.inj (Except.ok.inj (hw'.symm.trans found))
  have double := hr.rounded_eq
  rw [← hwr, same, hw, rounded_intCast] at double
  exact absurd (Int.cast_inj.mp double) (by decide)

end Builtin

end RecordStats
