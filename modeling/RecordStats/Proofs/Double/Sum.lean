import Mathlib
import RecordStats.Proofs.Double.Order

/-! Sums of doubles that are not negative. The exact sum is rounded, and from `2 ^ 1024` on it is infinite. So adding is
    monotone, and nothing is lost by adding more. -/

namespace RecordStats.Double

open Float.Model Float.Model.UnpackedFloat

/-! ### Sums of numbers -/

/-- A number is rounded from a mantissa that has been made long enough. -/
theorem round_rounds (s : Sign) {m : Nat} (hm : 0 < m) (e : Int) :
    Rounds s (m * 2 ^ e) (UnpackedFloat.round Format.binary64 s m e) := by
  obtain ⟨T, hT⟩ : ∃ T, Format.binary64.targetExponent (totalExponent m e) = T := ⟨_, rfl⟩
  obtain ⟨k, hk⟩ : ∃ k : Nat, (e - T).toNat = k := ⟨_, rfl⟩
  have unfolded : UnpackedFloat.round Format.binary64 s m e =
      roundWithAccuracy Format.binary64 s (m * 2 ^ k) (e - k) .exact := by
    simp only [UnpackedFloat.round, decreaseExponent, hT, hk, Nat.shiftLeft_eq]
  have hpos : 0 < m * 2 ^ k := Nat.mul_pos hm (Nat.two_pow_pos k)
  have hlog : (m * 2 ^ k).log2 = m.log2 + k := by
    refine (Nat.log2_eq_iff hpos.ne').mpr ⟨?_, ?_⟩
    · rw [pow_add]
      exact Nat.mul_le_mul_right _ (Nat.log2_self_le hm.ne')
    · rw [add_right_comm, pow_add]
      exact Nat.mul_lt_mul_of_pos_right Nat.lt_log2_self (Nat.two_pow_pos k)
  have enough : e - k ≤ Format.binary64.targetExponent (totalExponent (m * 2 ^ k) (e - k)) := by
    rw [targetExponent_eq] at hT ⊢
    omega
  have whole : Extends (.ofMantissaAndAccuracy (m * 2 ^ k) .exact) (m * 2 ^ k : Nat) := .exact (m * 2 ^ k)
  have number := roundWithAccuracy_rounds s whole (by exact_mod_cast hpos) enough
  have same : ((m * 2 ^ k : Nat) : ℚ) * 2 ^ (e - k) = m * 2 ^ e := by
    push_cast
    rw [mul_assoc, ← zpow_natCast, ← zpow_add₀ two_ne_zero, add_sub_cancel]
  rwa [same, ← unfolded] at number

/-- The exact sum is rounded. -/
theorem add_rounds {m n : Nat} (hm : 0 < m) (hn : 0 < n) (e f : Int) :
    Rounds .positive (m * 2 ^ e + n * 2 ^ f)
      (UnpackedFloat.add Format.binary64 (.finite .positive m e hm) (.finite .positive n f hn)) := by
  obtain ⟨g, hg⟩ : ∃ g, min e f = g := ⟨_, rfl⟩
  obtain ⟨a, ha⟩ : ∃ a : Nat, (e - g).toNat = a := ⟨_, rfl⟩
  obtain ⟨b, hb⟩ : ∃ b : Nat, (f - g).toNat = b := ⟨_, rfl⟩
  have hpos : 0 < m * 2 ^ a + n * 2 ^ b := Nat.add_pos_left (Nat.mul_pos hm (Nat.two_pow_pos a)) _
  have unfolded : UnpackedFloat.add Format.binary64 (.finite .positive m e hm) (.finite .positive n f hn) =
      UnpackedFloat.round Format.binary64 .positive (m * 2 ^ a + n * 2 ^ b) g := by
    have shifted : UnpackedFloat.add Format.binary64 (.finite .positive m e hm) (.finite .positive n f hn) =
        UnpackedFloat.normalize Format.binary64 ((m * 2 ^ a + n * 2 ^ b : Nat) : Int) g .positive := by
      simp only [UnpackedFloat.add, decreaseExponent, hg, ha, hb, Nat.shiftLeft_eq]
      rfl
    have hcompare : compare ((m * 2 ^ a + n * 2 ^ b : Nat) : Int) 0 = .gt := Int.compare_eq_gt.mpr (by omega)
    rw [shifted]
    simp only [UnpackedFloat.normalize, hcompare, Int.toNat_natCast]
  -- Both mantissas are brought to the smaller exponent, where their sum is exact.
  have aligned (k : Nat) (h : Int) (c : Nat) (hc : (h - g).toNat = c) (hge : g ≤ h) :
      (k : ℚ) * 2 ^ h = k * 2 ^ c * 2 ^ g := by
    rw [mul_assoc, ← zpow_natCast, ← zpow_add₀ two_ne_zero]
    congr 2
    omega
  have number := round_rounds .positive hpos g
  have same : ((m * 2 ^ a + n * 2 ^ b : Nat) : ℚ) * 2 ^ g = m * 2 ^ e + n * 2 ^ f := by
    rw [aligned m e a ha (hg ▸ min_le_left e f), aligned n f b hb (hg ▸ min_le_right e f)]
    push_cast
    ring
  rwa [same, ← unfolded] at number

/-! ### Sums of doubles -/

/-- Where the sum of two numbers stands that are not negative. -/
def sum : WithTop ℚ → WithTop ℚ → WithTop ℚ
  | (p : ℚ), (q : ℚ) => if rounded (p + q) < 2 ^ (1024 : Int) then (rounded (p + q) : ℚ) else ⊤
  | _, _ => ⊤

theorem sum_coe_coe (p q : ℚ) :
    sum p q = if rounded (p + q) < 2 ^ (1024 : Int) then ((rounded (p + q) : ℚ) : WithTop ℚ) else ⊤ := rfl

theorem sum_top_left (q : WithTop ℚ) : sum ⊤ q = ⊤ := rfl

theorem sum_top_right (p : WithTop ℚ) : sum p ⊤ = ⊤ := by
  cases p <;> rfl

theorem sum_mono_left {p p' : WithTop ℚ} (h : p ≤ p') (q : WithTop ℚ) : sum p q ≤ sum p' q := by
  induction p' using WithTop.recTopCoe with
  | top => exact le_top
  | coe p' =>
    obtain ⟨p, rfl⟩ := WithTop.ne_top_iff_exists.mp (ne_top_of_le_ne_top WithTop.coe_ne_top h)
    induction q using WithTop.recTopCoe with
    | top =>
      rw [sum_top_right, sum_top_right]
    | coe q =>
      have grows : rounded (p + q) ≤ rounded (p' + q) :=
        rounded_mono (add_le_add_left (WithTop.coe_le_coe.mp h) q)
      rw [sum_coe_coe, sum_coe_coe]
      split
      · next fits =>
        split
        · exact WithTop.coe_le_coe.mpr grows
        · exact le_top
      · next large => rw [if_neg fun fits => large (grows.trans_lt fits)]

theorem le_sum {p : ℚ} (hp : rounded p = p) {q : WithTop ℚ} (hq : 0 ≤ q) : (p : WithTop ℚ) ≤ sum p q := by
  induction q using WithTop.recTopCoe with
  | top => exact le_top
  | coe q =>
    have grows : p ≤ rounded (p + q) :=
      hp.symm.trans_le (rounded_mono (le_add_of_nonneg_right (WithTop.coe_le_coe.mp hq)))
    rw [sum_coe_coe]
    split
    · exact WithTop.coe_le_coe.mpr grows
    · exact le_top

/-- The double that a sum is stored as. -/
theorem unpack_add (x y : Float) : (x + y).toModel.unpack = UnpackedFloat.unpack Format.binary64
    (UnpackedFloat.pack Format.binary64 (UnpackedFloat.add Format.binary64 x.toModel.unpack y.toModel.unpack)) := rfl

theorem IsNumber.lt_two_pow {u : UnpackedFloat} {q : ℚ} (h : IsNumber u q) : q < 2 ^ (1024 : Int) := by
  cases h with
  | zero s => exact two_pow_pos _
  | @finite s m e hm canonical he =>
    refine (le_abs_self _).trans_lt ?_
    rw [abs_mul, abs_signum, one_mul, abs_of_pos (mantissa_mul_pos hm e)]
    exact canonical.exponent_le_iff.mp he

/-- A number stands in the sum with zero as it does by itself. -/
theorem IsNumber.ranked_sum {u : UnpackedFloat} {p q : ℚ} (h : IsNumber u (p + q)) :
    Ranked (UnpackedFloat.unpack Format.binary64 (UnpackedFloat.pack Format.binary64 u)) (sum p q) := by
  rw [h.unpack_pack, sum_coe_coe, h.rounded_eq, if_pos h.lt_two_pow]
  exact .number h

theorem IsNumber.add_zero_left {s : Sign} {v : UnpackedFloat} {q : ℚ} (hv : IsNumber v q) :
    IsNumber (UnpackedFloat.add Format.binary64 (.zero s) v) (0 + q) := by
  rw [zero_add]
  cases hv with
  | zero t => cases s <;> cases t <;> exact .zero _
  | finite t hn canonical hf => exact .finite t hn canonical hf

theorem IsNumber.add_zero_right {s : Sign} {u : UnpackedFloat} {p : ℚ} (hu : IsNumber u p) :
    IsNumber (UnpackedFloat.add Format.binary64 u (.zero s)) (p + 0) := by
  rw [add_zero]
  cases hu with
  | zero t => cases s <;> cases t <;> exact .zero _
  | finite t hm canonical he => exact .finite t hm canonical he

theorem IsNumber.ranked_add {u v : UnpackedFloat} {p q : ℚ} (hu : IsNumber u p) (hv : IsNumber v q) (hp : 0 ≤ p)
    (hq : 0 ≤ q) : Ranked (UnpackedFloat.unpack Format.binary64 (UnpackedFloat.pack Format.binary64
      (UnpackedFloat.add Format.binary64 u v))) (sum p q) := by
  rcases hp.eq_or_lt with rfl | hp
  · obtain ⟨s, rfl⟩ := hu.eq_zero
    exact hv.add_zero_left.ranked_sum
  rcases hq.eq_or_lt with rfl | hq
  · obtain ⟨s, rfl⟩ := hv.eq_zero
    exact hu.add_zero_right.ranked_sum
  obtain ⟨m, e, hm, -, hpe, rfl⟩ := hu.eq_finite hp
  obtain ⟨n, f, hn, -, hqf, rfl⟩ := hv.eq_finite hq
  have rounds := add_rounds hm hn e f
  rw [← hpe, ← hqf] at rounds
  rw [sum_coe_coe]
  split
  · next fits =>
    have number : IsNumber _ (signum .positive * rounded (p + q)) := rounds.isNumber <| by
      rwa [signum, one_mul, abs_of_nonneg (rounded_nonneg (add_pos hp hq).le)]
    rw [signum, one_mul] at number
    rw [number.unpack_pack]
    exact .number number
  · next large =>
    rw [rounds.infinite (not_lt.mp large)]
    exact .high

theorem Ranked.eq_infinity {u : UnpackedFloat} (h : Ranked u ((⊤ : WithTop ℚ) : Rank)) : u = .infinity .positive := by
  cases h with
  | high => rfl

theorem Ranked.isNumber {u : UnpackedFloat} {q : ℚ} (h : Ranked u ((q : WithTop ℚ) : Rank)) : IsNumber u q := by
  cases h with
  | number h => exact h

/-- Where a sum stands that is not negative. -/
theorem Ranked.add {x y : Float} {p q : WithTop ℚ} (hx : Ranked x.toModel.unpack p) (hy : Ranked y.toModel.unpack q)
    (hp : 0 ≤ p) (hq : 0 ≤ q) : Ranked (x + y).toModel.unpack (sum p q) := by
  have infinite : Ranked (UnpackedFloat.unpack Format.binary64 (UnpackedFloat.pack Format.binary64
      (.infinity .positive))) ((⊤ : WithTop ℚ) : Rank) := unpack_pack_infinity .positive ▸ .high
  rw [unpack_add]
  induction p using WithTop.recTopCoe with
  | top =>
    rw [hx.eq_infinity, sum_top_left]
    induction q using WithTop.recTopCoe with
    | top =>
      rw [hy.eq_infinity]
      exact infinite
    | coe q =>
      generalize y.toModel.unpack = v at hy
      cases hy.isNumber <;> exact infinite
  | coe p =>
    induction q using WithTop.recTopCoe with
    | top =>
      rw [hy.eq_infinity, sum_top_right]
      generalize x.toModel.unpack = u at hx
      cases hx.isNumber <;> exact infinite
    | coe q => exact hx.isNumber.ranked_add hy.isNumber (WithTop.coe_le_coe.mp hp) (WithTop.coe_le_coe.mp hq)

/-- A double that is not below zero is a number or infinite. -/
theorem exists_ranked_of_nonneg {x : Float} (h : 0 ≤ x) :
    ∃ q : WithTop ℚ, 0 ≤ q ∧ Ranked x.toModel.unpack q := by
  obtain ⟨r, hr⟩ := exists_ranked (numbers_of_le h).2
  have above : ((0 : ℚ) : WithTop ℚ) ≤ r := (Ranked.le_iff (.number denotes_zero) hr).mp h
  induction r using WithBot.recBotCoe with
  | bot => exact absurd above (WithBot.bot_lt_coe _).not_ge
  | coe q => exact ⟨q, WithBot.coe_le_coe.mp above, hr⟩

/-! ### Growing -/

variable {x y z w : Float}

theorem le_trans_of_le (hxy : x ≤ y) (hyz : y ≤ z) : x ≤ z := by
  obtain ⟨r, hr⟩ := exists_ranked (numbers_of_le hxy).1
  obtain ⟨s, hs⟩ := exists_ranked (numbers_of_le hxy).2
  obtain ⟨t, ht⟩ := exists_ranked (numbers_of_le hyz).2
  exact (hr.le_iff ht).mpr (((hr.le_iff hs).mp hxy).trans ((hs.le_iff ht).mp hyz))

theorem le_self_of_nonneg (hx : 0 ≤ x) : x ≤ x := by
  obtain ⟨p, -, hp⟩ := exists_ranked_of_nonneg hx
  exact (hp.le_iff hp).mpr le_rfl

/-- Nothing is lost by adding more. -/
theorem le_add_of_nonneg (hx : 0 ≤ x) (hw : 0 ≤ w) : x ≤ x + w := by
  obtain ⟨p, hp0, hp⟩ := exists_ranked_of_nonneg hx
  obtain ⟨q, hq0, hq⟩ := exists_ranked_of_nonneg hw
  refine (hp.le_iff (hp.add hq hp0 hq0)).mpr (WithBot.coe_le_coe.mpr ?_)
  induction p using WithTop.recTopCoe with
  | top => exact le_top
  | coe p => exact le_sum hp.isNumber.rounded_eq hq0

theorem add_le_add_of_nonneg (hx : 0 ≤ x) (hxy : x ≤ y) (hw : 0 ≤ w) : x + w ≤ y + w := by
  obtain ⟨p, hp0, hp⟩ := exists_ranked_of_nonneg hx
  obtain ⟨r, hr0, hr⟩ := exists_ranked_of_nonneg (le_trans_of_le hx hxy)
  obtain ⟨q, hq0, hq⟩ := exists_ranked_of_nonneg hw
  have above : p ≤ r := WithBot.coe_le_coe.mp ((hp.le_iff hr).mp hxy)
  exact ((hp.add hq hp0 hq0).le_iff (hr.add hq hr0 hq0)).mpr (WithBot.coe_le_coe.mpr (sum_mono_left above q))

theorem nonneg_of_infinite (hx : Infinite x) : 0 ≤ x := by
  have top : Ranked x.toModel.unpack ((⊤ : WithTop ℚ) : Rank) := by
    rw [hx]
    exact .high
  exact (Ranked.le_iff (.number denotes_zero) top).mpr (WithBot.coe_le_coe.mpr le_top)

theorem square_nonneg (hw : 0 ≤ w) : 0 ≤ w * w := by
  obtain ⟨q, hq, hranked⟩ := exists_ranked_of_nonneg hw
  induction q using WithTop.recTopCoe with
  | top => exact nonneg_of_infinite (.mul hranked.eq_infinity hranked.eq_infinity)
  | coe q =>
    have number : Denotes w q := hranked.isNumber
    have size : 0 ≤ rounded (q * q) := rounded_nonneg (mul_self_nonneg q)
    by_cases fits : rounded (q * q) < 2 ^ (1024 : Int)
    · exact (denotes_zero.le_iff (number.mul number (by rwa [abs_of_nonneg size]))).mpr size
    · have pos : 0 < q := (WithTop.coe_le_coe.mp hq).lt_of_ne fun zero => fits <| by
        rw [← zero, mul_zero, rounded_zero]
        exact two_pow_pos _
      exact nonneg_of_infinite (.of_mul number number pos pos (not_lt.mp fits))

end RecordStats.Double
