import Mathlib
import RecordStats.Proofs.Double.Number

/-! What arithmetic does to the numbers that doubles stand for: the result is the exact one, rounded once. -/

namespace RecordStats.Double

open Float.Model Float.Model.UnpackedFloat

/-! ### Products -/

theorem mul_rounds {m n : Nat} {e f : Int} (s : Sign) (hm : 0 < m) (hn : 0 < n) (hcm : Canonical m e)
    (hcn : Canonical n f) :
    Rounds s (m * 2 ^ e * (n * 2 ^ f)) (roundWithAccuracy Format.binary64 s (m * n) (e + f) .exact) := by
  have hmn : 0 < m * n := Nat.mul_pos hm hn
  have enough : e + f ≤ Format.binary64.targetExponent (totalExponent (m * n) (e + f)) := by
    rw [targetExponent_eq]
    by_cases short : 2 ^ 52 ≤ m * n
    · have : 52 ≤ (m * n).log2 := (Nat.le_log2 hmn.ne').mpr short
      omega
    · -- both numbers are next to zero
      have he : e = -1074 := hcm.full.resolve_left fun h => short (h.trans (Nat.le_mul_of_pos_right m hn))
      have hf : f = -1074 := hcn.full.resolve_left fun h => short (h.trans (Nat.le_mul_of_pos_left n hm))
      omega
  have whole : Extends (.ofMantissaAndAccuracy (m * n) .exact) (m * n : Nat) := .exact (m * n)
  have product := roundWithAccuracy_rounds s whole (by exact_mod_cast hmn) enough
  have : ((m * n : Nat) : ℚ) * 2 ^ (e + f) = m * 2 ^ e * (n * 2 ^ f) := by
    rw [zpow_add₀ two_ne_zero]
    push_cast
    ring
  rwa [this] at product

/-- The exact product is rounded, unless it is too large. -/
theorem IsNumber.mul {u v : UnpackedFloat} {p q : ℚ} (hu : IsNumber u p) (hv : IsNumber v q)
    (fits : |rounded (p * q)| < 2 ^ (1024 : Int)) :
    IsNumber (UnpackedFloat.mul Format.binary64 u v) (rounded (p * q)) := by
  cases hu with
  | zero s =>
    rw [zero_mul, rounded_zero]
    cases hv with
    | zero t => exact .zero (s * t)
    | finite t hn canonical' hf => exact .zero (s * t)
  | finite s hm canonical he =>
    cases hv with
    | zero t =>
      rw [mul_zero, rounded_zero]
      exact .zero (s * t)
    | finite t hn canonical' hf =>
      rw [mul_mul_mul_comm, ← signum_mul, rounded_signum_mul] at fits ⊢
      exact (mul_rounds (s * t) hm hn canonical canonical').isNumber fits

/-! ### Quotients -/

theorem div_rounds {m n : Nat} (e f : Int) (s : Sign) (hm : 0 < m) (hn : 0 < n) :
    Rounds s (m * 2 ^ e / (n * 2 ^ f))
      (match divCore Format.binary64 m e n f with
        | (m, e, accuracy) => roundWithAccuracy Format.binary64 s m e accuracy) := by
  obtain ⟨T, hT⟩ : ∃ T, min (e - f) (Format.binary64.targetExponent (totalExponent m e - totalExponent n f)) = T :=
    ⟨_, rfl⟩
  obtain ⟨k, hk⟩ : ∃ k, (e - f - T).toNat = k := ⟨_, rfl⟩
  simp only [divCore, hT, hk, Nat.shiftLeft_eq]
  have target : T ≤ max (m.log2 + e - (n.log2 + f) - 53) (-1074) := by
    rw [← hT]
    refine (min_le_right _ _).trans (le_of_eq ?_)
    simp only [Format.targetExponent, totalExponent, Format.mantissaBits, Format.minExponent]
    omega
  have shifted : e - f = T + k := by
    have : T ≤ e - f := hT ▸ min_le_left _ _
    omega
  have enough : T ≤ Format.binary64.targetExponent (totalExponent (m * 2 ^ k / n) T) := by
    rw [targetExponent_eq]
    by_cases least : T ≤ -1074
    · omega
    · -- the quotient has all the bits that are kept
      have low : 2 ^ m.log2 ≤ m := Nat.log2_self_le hm.ne'
      have high : n < 2 ^ (n.log2 + 1) := Nat.lt_log2_self
      have full : 2 ^ 52 ≤ m * 2 ^ k / n := by
        rw [Nat.le_div_iff_mul_le hn]
        calc 2 ^ 52 * n ≤ 2 ^ 52 * 2 ^ (n.log2 + 1) := Nat.mul_le_mul_left _ high.le
          _ = 2 ^ (52 + (n.log2 + 1)) := (pow_add 2 _ _).symm
          _ ≤ 2 ^ (m.log2 + k) := Nat.pow_le_pow_right two_pos (by omega)
          _ = 2 ^ m.log2 * 2 ^ k := pow_add 2 _ _
          _ ≤ m * 2 ^ k := Nat.mul_le_mul_right _ low
      have : 52 ≤ (m * 2 ^ k / n).log2 := (Nat.le_log2 (by omega)).mpr full
      omega
  have quotient := roundWithAccuracy_rounds s (.quotient (m * 2 ^ k) hn) (by positivity) enough
  have : ((m * 2 ^ k : Nat) : ℚ) / n * 2 ^ T = m * 2 ^ e / (n * 2 ^ f) := by
    have power : (2 : ℚ) ^ e = 2 ^ T * 2 ^ k * 2 ^ f := by
      rw [← zpow_natCast, ← zpow_add₀ two_ne_zero, ← zpow_add₀ two_ne_zero]
      congr 1
      omega
    rw [power]
    push_cast
    field_simp
  rwa [this] at quotient

/-- The exact quotient is rounded, unless it is too large. -/
theorem IsNumber.div {u v : UnpackedFloat} {p q : ℚ} (hu : IsNumber u p) (hv : IsNumber v q) (hq : q ≠ 0)
    (fits : |rounded (p / q)| < 2 ^ (1024 : Int)) :
    IsNumber (UnpackedFloat.div Format.binary64 u v) (rounded (p / q)) := by
  cases hv with
  | zero t => exact absurd rfl hq
  | finite t hn canonical' hf =>
    cases hu with
    | zero s =>
      rw [zero_div, rounded_zero]
      exact .zero (s / t)
    | finite s hm canonical he =>
      rw [mul_div_mul_comm, ← signum_div, rounded_signum_mul] at fits ⊢
      exact (div_rounds _ _ (s / t) hm hn).isNumber fits

/-! ### Operators -/

theorem IsNumber.neg {u : UnpackedFloat} {q : ℚ} (h : IsNumber u q) : IsNumber u.neg (-q) := by
  cases h with
  | zero s =>
    rw [neg_zero]
    exact .zero (-s)
  | finite s hm canonical he =>
    rw [← neg_mul, ← signum_neg]
    exact .finite (-s) hm canonical he

variable {x y : Float} {p q : ℚ}

theorem IsNumber.denotes {u : UnpackedFloat} (h : IsNumber u q) : Denotes ⟨Float.Model.pack u⟩ q := by
  show IsNumber (UnpackedFloat.unpack Format.binary64 (UnpackedFloat.pack Format.binary64 u)) q
  rw [h.unpack_pack]
  exact h

namespace Denotes

theorem neg (h : Denotes x q) : Denotes (-x) (-q) := (IsNumber.neg h).denotes

theorem mul (hx : Denotes x p) (hy : Denotes y q) (fits : |rounded (p * q)| < 2 ^ (1024 : Int)) :
    Denotes (x * y) (rounded (p * q)) := (IsNumber.mul hx hy fits).denotes

theorem div (hx : Denotes x p) (hy : Denotes y q) (hq : q ≠ 0) (fits : |rounded (p / q)| < 2 ^ (1024 : Int)) :
    Denotes (x / y) (rounded (p / q)) := (IsNumber.div hx hy hq fits).denotes

end Denotes

/-! ### Infinity -/

theorem IsNumber.eq_finite {u : UnpackedFloat} {q : ℚ} (h : IsNumber u q) (hq : 0 < q) :
    ∃ m e h, Canonical m e ∧ q = m * 2 ^ e ∧ u = .finite .positive m e h := by
  cases h with
  | zero s => exact absurd hq (lt_irrefl 0)
  | @finite s m e hm canonical he =>
    cases s with
    | negative =>
      rw [signum, neg_one_mul] at hq
      exact absurd hq (neg_neg_of_pos (mantissa_mul_pos hm e)).not_gt
    | positive => exact ⟨m, e, hm, canonical, one_mul _, rfl⟩

theorem IsNumber.eq_zero {u : UnpackedFloat} (h : IsNumber u 0) : ∃ s, u = .zero s := by
  generalize hq : (0 : ℚ) = q at h
  cases h with
  | zero s => exact ⟨s, rfl⟩
  | @finite s m e hm canonical he =>
    have pos := mantissa_mul_pos hm e
    cases s <;> simp only [signum, neg_one_mul, one_mul] at hq <;> linarith

theorem unpack_pack_infinity (s : Sign) :
    UnpackedFloat.unpack Format.binary64 (UnpackedFloat.pack Format.binary64 (.infinity s)) = .infinity s := by
  cases s <;> rfl

theorem unpack_pack_notANumber :
    UnpackedFloat.unpack Format.binary64 (UnpackedFloat.pack Format.binary64 .notANumber) = .notANumber := rfl

namespace Infinite

/-- A product that is too large for a double. -/
theorem of_mul (hx : Denotes x p) (hy : Denotes y q) (hp : 0 < p) (hq : 0 < q)
    (large : 2 ^ (1024 : Int) ≤ rounded (p * q)) : Infinite (x * y) := by
  obtain ⟨m, e, hm, hcm, rfl, hu⟩ := IsNumber.eq_finite hx hp
  obtain ⟨n, f, hn, hcn, rfl, hv⟩ := IsNumber.eq_finite hy hq
  show UnpackedFloat.unpack Format.binary64 (UnpackedFloat.pack Format.binary64
    (UnpackedFloat.mul Format.binary64 x.toModel.unpack y.toModel.unpack)) = _
  rw [hu, hv]
  exact (mul_rounds .positive hm hn hcm hcn).infinite large

theorem mul (hx : Infinite x) (hy : Infinite y) : Infinite (x * y) := by
  show UnpackedFloat.unpack Format.binary64 (UnpackedFloat.pack Format.binary64
    (UnpackedFloat.mul Format.binary64 x.toModel.unpack y.toModel.unpack)) = _
  rw [hx, hy]
  exact unpack_pack_infinity .positive

theorem mul_denotes (hx : Infinite x) (hy : Denotes y q) (hq : 0 < q) : Infinite (x * y) := by
  obtain ⟨n, f, hn, -, -, hv⟩ := IsNumber.eq_finite hy hq
  show UnpackedFloat.unpack Format.binary64 (UnpackedFloat.pack Format.binary64
    (UnpackedFloat.mul Format.binary64 x.toModel.unpack y.toModel.unpack)) = _
  rw [hx, hv]
  exact unpack_pack_infinity .positive

theorem denotes_mul (hx : Denotes x p) (hp : 0 < p) (hy : Infinite y) : Infinite (x * y) := by
  obtain ⟨m, e, hm, -, -, hu⟩ := IsNumber.eq_finite hx hp
  show UnpackedFloat.unpack Format.binary64 (UnpackedFloat.pack Format.binary64
    (UnpackedFloat.mul Format.binary64 x.toModel.unpack y.toModel.unpack)) = _
  rw [hu, hy]
  exact unpack_pack_infinity .positive

/-- Nothing is left when a number is divided by infinity. -/
theorem denotes_div (hx : Denotes x p) (hy : Infinite y) : Denotes (x / y) 0 := by
  refine IsNumber.denotes (u := UnpackedFloat.div Format.binary64 x.toModel.unpack y.toModel.unpack) ?_
  rw [hy]
  obtain ⟨u, hu⟩ : ∃ u, x.toModel.unpack = u := ⟨_, rfl⟩
  unfold Denotes at hx
  rw [hu] at hx ⊢
  cases hx with
  | zero s => exact .zero (s / .positive)
  | finite s hm canonical he => exact .zero (s / .positive)

/-- There is no product of zero and infinity. -/
theorem isNaN_zero_mul (hx : Denotes x 0) (hy : Infinite y) : (x * y).isNaN = true := by
  show (UnpackedFloat.unpack Format.binary64 (UnpackedFloat.pack Format.binary64
    (UnpackedFloat.mul Format.binary64 x.toModel.unpack y.toModel.unpack))).isNaN = true
  obtain ⟨s, hs⟩ := IsNumber.eq_zero hx
  rw [hs, hy]
  exact congrArg UnpackedFloat.isNaN unpack_pack_notANumber

end Infinite

/-! ### Whole numbers -/

/-- A natural number is rounded from a mantissa that has been made long enough. -/
theorem natCast_rounds {n s : Nat} (hlong : 2 ^ 52 ≤ n * 2 ^ s) :
    Rounds .positive n (roundWithAccuracy Format.binary64 .positive (n * 2 ^ s) (-s) .exact) := by
  have hpos : 0 < n * 2 ^ s := (Nat.two_pow_pos 52).trans_le hlong
  have enough : -(s : Int) ≤ Format.binary64.targetExponent (totalExponent (n * 2 ^ s) (-s)) := by
    rw [targetExponent_eq]
    have : 52 ≤ (n * 2 ^ s).log2 := (Nat.le_log2 hpos.ne').mpr hlong
    omega
  have whole : Extends (.ofMantissaAndAccuracy (n * 2 ^ s) .exact) (n * 2 ^ s : Nat) := .exact (n * 2 ^ s)
  have number := roundWithAccuracy_rounds .positive whole (by exact_mod_cast hpos) enough
  have : ((n * 2 ^ s : Nat) : ℚ) * 2 ^ (-(s : Int)) = n := by
    push_cast
    rw [mul_assoc, ← zpow_natCast, ← zpow_add₀ two_ne_zero, add_neg_cancel, zpow_zero, mul_one]
  rwa [this] at number

theorem ofNat_rounds (n : Nat) : Rounds .positive n (UnpackedFloat.ofNat Format.binary64 n) := by
  rcases Nat.eq_zero_or_pos n with rfl | hpos
  · exact .zero (by rw [Nat.cast_zero, rounded_zero])
  obtain ⟨s, hs⟩ : ∃ s : Nat, (-Format.binary64.targetExponent (totalExponent n 0)).toNat = s := ⟨_, rfl⟩
  have unfolded : UnpackedFloat.ofNat Format.binary64 n =
      roundWithAccuracy Format.binary64 .positive (n * 2 ^ s) (-s) .exact := by
    have hcompare : compare (n : Int) 0 = .gt := Int.compare_eq_gt.mpr (by omega)
    simp only [UnpackedFloat.ofNat, UnpackedFloat.ofInt, UnpackedFloat.normalize, hcompare, UnpackedFloat.round,
      decreaseExponent, Int.toNat_natCast, Nat.shiftLeft_eq, Int.zero_sub, hs]
  rw [unfolded]
  refine natCast_rounds ?_
  rw [targetExponent_eq] at hs
  calc 2 ^ 52 ≤ 2 ^ (n.log2 + s) := Nat.pow_le_pow_right two_pos (by omega)
    _ = 2 ^ n.log2 * 2 ^ s := pow_add 2 _ _
    _ ≤ n * 2 ^ s := Nat.mul_le_mul_right _ (Nat.log2_self_le hpos.ne')

theorem denotes_toFloat {n : Nat} (hn : n < 2 ^ 64) : Denotes n.toUInt64.toFloat (rounded n) := by
  have word : n.toUInt64.toNat = n := Nat.mod_eq_of_lt hn
  have fits : |signum .positive * rounded n| < 2 ^ (1024 : Int) := by
    rw [signum, one_mul]
    refine abs_rounded_lt (e := 64) ?_ (by decide) (by decide)
    rw [abs_of_nonneg (Nat.cast_nonneg n)]
    exact_mod_cast hn.le
  have number := ((ofNat_rounds n).isNumber fits).denotes
  rw [signum, one_mul] at number
  show Denotes ⟨Float.Model.pack (UnpackedFloat.ofNat Format.binary64 n.toUInt64.toNat)⟩ _
  rwa [word]

theorem denotes_tenPowZero : Denotes Float.exactlyRepresentablePowersOfTen[0] 1 := by
  have number : IsNumber (.finite .positive (2 ^ 52) (-52) (by decide))
      (signum .positive * ((2 ^ 52 : Nat) * 2 ^ (-52 : Int))) :=
    .finite .positive (by decide) ⟨by decide, by decide, .inl le_rfl⟩ (by decide)
  have value : signum .positive * (((2 ^ 52 : Nat) : ℚ) * 2 ^ (-52 : Int)) = 1 := by norm_num [signum]
  rw [value] at number
  exact number

theorem denotes_ofNat {n : Nat} (fits : |rounded n| < 2 ^ (1024 : Int)) : Denotes (Float.ofNat n) (rounded n) := by
  show Denotes (Float.ofScientific n false 0) _
  unfold Float.ofScientific
  split
  · next h =>
    have number := (denotes_toFloat (h.1.trans (by decide))).mul denotes_tenPowZero
    rw [mul_one, (denotes_toFloat (h.1.trans (by decide))).rounded_eq] at number
    exact number fits
  · next h =>
    have hn : 2 ^ 53 ≤ n := by
      by_contra hlt
      exact h ⟨not_le.mp hlt, by decide⟩
    have unfolded : UnpackedFloat.ofScientific Format.binary64 n 0 =
        roundWithAccuracy Format.binary64 .positive (n * 2 ^ 53) (-(53 : Nat)) .exact := by
      have hn0 : n ≠ 0 := by omega
      have large : ¬ (0 : Int) > 2 ^ Format.binary64.exponentBits := by decide
      have small : ¬ (0 : Int) < -(2 ^ Format.binary64.exponentBits + (n.log2 : Int)) := by omega
      simp only [UnpackedFloat.ofScientific, hn0, large, small, ↓reduceDIte, ↓reduceIte, le_refl, Int.toNat_zero,
        pow_zero, UnpackedFloat.mul, Nat.mul_one, Int.add_zero, Nat.shiftLeft_eq]
      rfl
    have number := (natCast_rounds (n := n) (s := 53) (by omega)).isNumber (by rwa [signum, one_mul])
    rw [signum, one_mul, ← unfolded] at number
    exact number.denotes

theorem denotes_ofInt {n : Int} (fits : |rounded n| < 2 ^ (1024 : Int)) : Denotes (Float.ofInt n) (rounded n) := by
  cases n with
  | ofNat n => exact denotes_ofNat fits
  | negSucc n =>
    rw [Int.cast_negSucc, rounded_neg] at fits ⊢
    rw [abs_neg] at fits
    exact (denotes_ofNat fits).neg

end RecordStats.Double
