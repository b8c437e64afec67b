import Mathlib
import RecordStats.Proofs.Double.Whole

/-! Powers of ten as doubles. They are found by squaring, and every product is rounded. Up to `10 ^ 22` they are exact,
    up to `10 ^ 308` they are doubles near the exact powers, and the ones above are infinite. -/

namespace RecordStats.Double

/-! ### Squaring -/

section Squaring
variable {P : Nat → Float → Prop}

theorem powNat_go_induction (mul : ∀ {i j : Nat} {y z : Float}, P i y → P j z → P (i + j) (y * z)) {i j : Nat}
    {product square : Float} (n : Nat) (hproduct : P i product) (hsquare : P j square) :
    P (i + j * n) (powNat.go product square n) := by
  induction n using Nat.strongRecOn generalizing i j product square with
  | _ n ih =>
    rw [powNat.go]
    split
    · next small =>
      split
      · next h =>
        rw [h, Nat.mul_one]
        exact mul hproduct hsquare
      · next h =>
        obtain rfl : n = 0 := by omega
        exact hproduct
    · next large =>
      -- The square stands for twice as many factors from here on, and half of the exponent is left.
      have halves : n = n % 2 + 2 * (n / 2) := (Nat.mod_add_div n 2).symm
      have hlt : n / 2 < n := by omega
      split
      · next odd =>
        have : i + j * n = i + j + (j + j) * (n / 2) := by
          conv_lhs => rw [halves, odd]
          ring
        rw [this]
        exact ih _ hlt (mul hproduct hsquare) (mul hsquare hsquare)
      · next even =>
        have : i + j * n = i + (j + j) * (n / 2) := by
          conv_lhs => rw [halves, (Nat.mod_two_eq_zero_or_one n).resolve_right even]
          ring
        rw [this]
        exact ih _ hlt hproduct (mul hsquare hsquare)

/-- What is true of one and of a number, and is kept by products, is true of its powers. -/
theorem powNat_induction {x : Float} (zero : P 0 1) (one : P 1 x)
    (mul : ∀ {i j : Nat} {y z : Float}, P i y → P j z → P (i + j) (y * z)) (n : Nat) : P n (powNat x n) := by
  have := powNat_go_induction mul n zero one
  rwa [Nat.one_mul, Nat.zero_add] at this

end Squaring

/-! ### Exact powers -/

theorem denotes_natCast {n : Nat} (hn : n ≤ 2 ^ 53) : Denotes (Float.ofNat n) n := by
  have still : rounded n = n := rounded_eq (z := n) (e := 0) (by simp) hn (by decide)
  have fits : |rounded n| < 2 ^ (1024 : Int) := by
    refine abs_rounded_lt (e := 53) ?_ (by decide) (by decide)
    rw [abs_of_nonneg (Nat.cast_nonneg n)]
    exact_mod_cast hn
  have number := denotes_ofNat fits
  rwa [still] at number

theorem denotes_one : Denotes 1 1 := by
  have := denotes_natCast (n := 1) (by decide)
  rwa [Nat.cast_one] at this

theorem denotes_ten : Denotes 10 10 := by
  have := denotes_natCast (n := 10) (by decide)
  rwa [Nat.cast_ofNat] at this

/-- Of the factors of ten only the fives take bits. -/
theorem rounded_mul_ten_pow {z : Int} {k : Nat} (short : (z * 5 ^ k).natAbs ≤ 2 ^ 53) :
    rounded (z * 10 ^ k) = z * 10 ^ k := by
  refine rounded_eq (z := z * 5 ^ k) (e := k) ?_ short (by omega)
  push_cast
  rw [zpow_natCast, mul_assoc, ← mul_pow]
  norm_num

theorem rounded_ten_pow {k : Nat} (hk : k ≤ 22) : rounded (10 ^ k) = 10 ^ k := by
  have short : ((1 : Int) * 5 ^ k).natAbs ≤ 2 ^ 53 := by
    rw [one_mul, Int.natAbs_pow]
    calc 5 ^ k ≤ 5 ^ 22 := Nat.pow_le_pow_right (by decide) hk
      _ ≤ 2 ^ 53 := by norm_num
  have still := rounded_mul_ten_pow short
  rwa [Int.cast_one, one_mul] at still

theorem denotes_powNat_ten {k : Nat} (hk : k ≤ 22) : Denotes (powNat 10 k) (10 ^ k) := by
  refine powNat_induction (P := fun i y => i ≤ 22 → Denotes y (10 ^ i)) (fun _ => ?_) (fun _ => ?_)
    (fun {i j y z} hy hz hij => ?_) k hk
  · rw [pow_zero]
    exact denotes_one
  · rw [pow_one]
    exact denotes_ten
  · have still := rounded_ten_pow hij
    have fits : |rounded ((10 : ℚ) ^ (i + j))| < 2 ^ (1024 : Int) := by
      refine abs_rounded_lt (e := 74) ?_ (by decide) (by decide)
      rw [abs_of_pos (by positivity)]
      calc (10 : ℚ) ^ (i + j) ≤ 10 ^ 22 := pow_le_pow_right₀ (by norm_num) hij
        _ ≤ 2 ^ (74 : Int) := by norm_num
    rw [pow_add] at still fits ⊢
    rw [← still]
    exact (hy (by omega)).mul (hz (by omega)) fits

/-! ### Rounded powers -/

/-- A number near a power of ten: each of the roundings on the way to it has moved it by less than a thousandth. -/
structure NearTen (i : Nat) (v : ℚ) : Prop where
  above : 10 ^ i * (999 / 1000) ^ (i - 1) ≤ v
  below : v ≤ 10 ^ i * (1001 / 1000) ^ (i - 1)

/-- A number of at least one is moved by less than a thousandth when it is rounded. -/
theorem rounded_bounds {q : ℚ} (hq : 1 ≤ q) : 999 / 1000 * q ≤ rounded q ∧ rounded q ≤ 1001 / 1000 * q := by
  have least : (2 : ℚ) ^ (-1022 : Int) ≤ |q| :=
    (zpow_le_one_of_nonpos₀ one_le_two (by decide)).trans (hq.trans (le_abs_self q))
  have moved := abs_lt.mp (abs_rounded_sub_lt least)
  rw [abs_of_pos (by linarith)] at moved
  have small : q / 2 ^ 53 ≤ q / 1000 := div_le_div_of_nonneg_left (by linarith) (by norm_num) (by norm_num)
  constructor <;> linarith

theorem two_pow_quarters : ((2 : ℚ) ^ 256) ^ 4 = 2 ^ (1024 : Int) := (pow_mul 2 256 4).symm

namespace NearTen

variable {i j : Nat} {v w : ℚ}

theorem zero : NearTen 0 1 := ⟨by norm_num, by norm_num⟩

theorem one : NearTen 1 10 := ⟨by norm_num, by norm_num⟩

theorem pow_le (h : NearTen i v) : (999 / 100) ^ i ≤ v := by
  refine le_trans ?_ h.above
  have split : (999 / 100 : ℚ) ^ i = 10 ^ i * (999 / 1000) ^ i := by
    rw [← mul_pow]
    norm_num
  rw [split]
  refine mul_le_mul_of_nonneg_left ?_ (by positivity)
  exact pow_le_pow_of_le_one (by norm_num) (by norm_num) (Nat.sub_le i 1)

theorem le_pow (h : NearTen i v) : v ≤ (1001 / 100) ^ i := by
  refine h.below.trans ?_
  have split : (1001 / 100 : ℚ) ^ i = 10 ^ i * (1001 / 1000) ^ i := by
    rw [← mul_pow]
    norm_num
  rw [split]
  refine mul_le_mul_of_nonneg_left ?_ (by positivity)
  exact pow_le_pow_right₀ (by norm_num) (Nat.sub_le i 1)

theorem one_le (h : NearTen i v) : 1 ≤ v := (one_le_pow₀ (by norm_num)).trans h.pow_le

theorem eq_one (h : NearTen 0 v) : v = 1 := le_antisymm (by simpa using h.below) (by simpa using h.above)

theorem mul_of_pos (hi : 0 < i) (hj : 0 < j) (hv : NearTen i v) (hw : NearTen j w) :
    NearTen (i + j) (rounded (v * w)) := by
  have hv1 := hv.one_le
  have hw1 := hw.one_le
  obtain ⟨low, high⟩ := rounded_bounds (q := v * w) (one_le_mul_of_one_le_of_one_le hv1 hw1)
  have steps : i + j - 1 = 1 + (i - 1) + (j - 1) := by omega
  constructor
  · calc 10 ^ (i + j) * (999 / 1000 : ℚ) ^ (i + j - 1)
          = 999 / 1000 * ((10 ^ i * (999 / 1000) ^ (i - 1)) * (10 ^ j * (999 / 1000) ^ (j - 1))) := by
            rw [steps, pow_add, pow_add, pow_add, pow_one]
            ring
      _ ≤ 999 / 1000 * (v * w) := by
            refine mul_le_mul_of_nonneg_left ?_ (by norm_num)
            exact mul_le_mul hv.above hw.above (by positivity) (by linarith)
      _ ≤ rounded (v * w) := low
  · calc rounded (v * w) ≤ 1001 / 1000 * (v * w) := high
      _ ≤ 1001 / 1000 * ((10 ^ i * (1001 / 1000) ^ (i - 1)) * (10 ^ j * (1001 / 1000) ^ (j - 1))) := by
            refine mul_le_mul_of_nonneg_left ?_ (by norm_num)
            exact mul_le_mul hv.below hw.below (by linarith) (by positivity)
      _ = 10 ^ (i + j) * (1001 / 1000) ^ (i + j - 1) := by
            rw [steps, pow_add, pow_add, pow_add, pow_one]
            ring

theorem mul (hv : NearTen i v) (hw : NearTen j w) (still : rounded v = v) (still' : rounded w = w) :
    NearTen (i + j) (rounded (v * w)) := by
  rcases Nat.eq_zero_or_pos i with rfl | hi
  · rw [hv.eq_one, one_mul, still', Nat.zero_add]
    exact hw
  rcases Nat.eq_zero_or_pos j with rfl | hj
  · rw [hw.eq_one, mul_one, still]
    exact hv
  · exact hv.mul_of_pos hi hj hw

/-- The powers up to this one are in the range of doubles, however they have been rounded. -/
theorem lt (h : NearTen i v) (hi : i ≤ 308) : v < 2 ^ (1024 : Int) := by
  have quarter : (1001 / 100 : ℚ) ^ 77 < 2 ^ 256 := by norm_num
  calc v ≤ (1001 / 100) ^ i := h.le_pow
    _ ≤ (1001 / 100) ^ (77 * 4) := pow_le_pow_right₀ (by norm_num) hi
    _ = ((1001 / 100) ^ 77) ^ 4 := pow_mul _ 77 4
    _ < (2 ^ 256) ^ 4 := pow_lt_pow_left₀ quarter (by positivity) (by decide)
    _ = 2 ^ (1024 : Int) := two_pow_quarters

/-- The ones above are out of it. -/
theorem le_rounded_mul (hv : NearTen i v) (hw : NearTen j w) (hij : 309 ≤ i + j) :
    2 ^ (1024 : Int) ≤ rounded (v * w) := by
  have power : rounded (2 ^ (1024 : Int)) = 2 ^ (1024 : Int) :=
    rounded_eq (z := 1) (e := 1024) (by rw [Int.cast_one, one_mul]) (by decide) (by decide)
  rw [← power]
  refine rounded_mono ?_
  have quarter : (3 * 2 ^ 254 : ℚ) ≤ (999 / 100) ^ 77 := by norm_num
  calc (2 : ℚ) ^ (1024 : Int) = (2 ^ 256) ^ 4 := two_pow_quarters.symm
    _ ≤ (3 * 2 ^ 254) ^ 4 * (999 / 100) := by
        have unit : (2 : ℚ) ^ 256 = 4 * 2 ^ 254 := by norm_num
        rw [unit, mul_pow, mul_pow, mul_right_comm]
        exact mul_le_mul_of_nonneg_right (by norm_num) (by positivity)
    _ ≤ ((999 / 100) ^ 77) ^ 4 * (999 / 100) := by
        refine mul_le_mul_of_nonneg_right ?_ (by norm_num)
        exact pow_le_pow_left₀ (by positivity) quarter 4
    _ = (999 / 100) ^ 309 := by rw [← pow_mul, ← pow_succ]
    _ ≤ (999 / 100) ^ (i + j) := pow_le_pow_right₀ (by norm_num) hij
    _ = (999 / 100) ^ i * (999 / 100) ^ j := pow_add _ i j
    _ ≤ v * w := mul_le_mul hv.pow_le hw.pow_le (by positivity) (zero_le_one.trans hv.one_le)

theorem large (h : NearTen i v) (hi : 20 ≤ i) : 2 ^ 65 ≤ v :=
  calc (2 : ℚ) ^ 65 ≤ (999 / 100) ^ 20 := by norm_num
    _ ≤ (999 / 100) ^ i := pow_le_pow_right₀ (by norm_num) hi
    _ ≤ v := h.pow_le

end NearTen

/-- Powers of ten as doubles. -/
theorem powNat_ten (k : Nat) :
    (k ≤ 308 → ∃ v, NearTen k v ∧ Denotes (powNat 10 k) v) ∧ (309 ≤ k → Infinite (powNat 10 k)) := by
  refine powNat_induction (P := fun i y => (i ≤ 308 → ∃ v, NearTen i v ∧ Denotes y v) ∧ (309 ≤ i → Infinite y))
    ⟨fun _ => ⟨1, .zero, denotes_one⟩, by omega⟩ ⟨fun _ => ⟨10, .one, denotes_ten⟩, by omega⟩
    (fun {i j y z} hy hz => ⟨fun hij => ?_, fun hij => ?_⟩) k
  · obtain ⟨v, near, hv⟩ := hy.1 (by omega)
    obtain ⟨w, near', hw⟩ := hz.1 (by omega)
    have product := near.mul near' hv.rounded_eq hw.rounded_eq
    refine ⟨_, product, hv.mul hw ?_⟩
    rw [abs_of_pos (zero_lt_one.trans_le product.one_le)]
    exact product.lt hij
  · by_cases hi : 309 ≤ i <;> by_cases hj : 309 ≤ j
    · exact (hy.2 hi).mul (hz.2 hj)
    · obtain ⟨w, near', hw⟩ := hz.1 (by omega)
      exact (hy.2 hi).mul_denotes hw (zero_lt_one.trans_le near'.one_le)
    · obtain ⟨v, near, hv⟩ := hy.1 (by omega)
      exact .denotes_mul hv (zero_lt_one.trans_le near.one_le) (hz.2 hj)
    · obtain ⟨v, near, hv⟩ := hy.1 (by omega)
      obtain ⟨w, near', hw⟩ := hz.1 (by omega)
      exact .of_mul hv hw (zero_lt_one.trans_le near.one_le) (zero_lt_one.trans_le near'.one_le)
        (near.le_rounded_mul near' hij)

end RecordStats.Double
