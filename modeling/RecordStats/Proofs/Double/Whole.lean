import Mathlib
import RecordStats.Proofs.Double.Arithmetic

/-! The parts that a double is taken apart into, and what is made of them: whole parts, and the nearest whole
    number. -/

namespace RecordStats.Double

open Float.Model Float.Model.UnpackedFloat

variable {x : Float} {q : ℚ}

/-! ### Parts -/

/-- The number that parts make up. -/
def Parts.number (p : Parts) : ℚ :=
  (if p.negative then -1 else 1) * (p.mantissa * 2 ^ p.exponent)

def Parts.signed (p : Parts) : Int :=
  if p.negative then -p.mantissa else p.mantissa

theorem Parts.number_eq (p : Parts) : p.number = p.signed * 2 ^ p.exponent := by
  rw [Parts.number, Parts.signed, ← mul_assoc]
  split <;> push_cast <;> ring

section Fields
variable (b : BitVec Format.binary64.numBits)

theorem toNat_unpackExponent : (unpackExponent b).toNat = b.toNat / leadingBit % 2048 := by
  rw [unpackExponent, BitVec.toNat_cast, BitVec.extractLsb_toNat, Nat.shiftRight_eq_div_pow]
  rfl

theorem toNat_unpackMantissa : (unpackMantissa b).toNat = b.toNat % leadingBit := by
  rw [unpackMantissa, BitVec.toNat_cast, BitVec.extractLsb_toNat, Nat.shiftRight_eq_div_pow, pow_zero, Nat.div_one]
  rfl

theorem unpackSign_eq_zero_iff : unpackSign b = 0#1 ↔ ¬ 9223372036854775808 ≤ b.toNat := by
  have hlt : b.toNat < 2 ^ 64 := b.isLt
  have bit : (unpackSign b).toNat = b.toNat / 2 ^ 63 % 2 ^ 1 := by
    rw [unpackSign, BitVec.toNat_cast, BitVec.extractLsb_toNat, Nat.shiftRight_eq_div_pow]
    rfl
  rw [← BitVec.toNat_inj, bit]
  show _ = 0 ↔ _
  omega

end Fields

theorem signum_ofBitVec (x : Float) {b : BitVec Format.binary64.numBits} (hb : x.toBits.toNat = b.toNat) :
    signum (Sign.ofBitVec (unpackSign b)) = if isNegative x then -1 else 1 := by
  unfold Sign.ofBitVec isNegative
  simp only [unpackSign_eq_zero_iff, hb, decide_eq_true_iff]
  split
  · next h => simp only [signum]
  · next h => simp only [if_pos (not_not.mp h), signum]

theorem IsNumber.eq {s : Sign} {m : Nat} {e : Int} {h : 0 < m} (hq : IsNumber (.finite s m e h) q) :
    q = signum s * (m * 2 ^ e) := by
  cases hq
  rfl

/-- A double stands for the number that its parts make up. -/
theorem Denotes.number_parts (h : Denotes x q) : (parts x).number = q := by
  unfold Denotes at h
  obtain ⟨b, hb⟩ : ∃ b : BitVec Format.binary64.numBits, x.toModel.toBits.toBitVec = b := ⟨_, rfl⟩
  have unfolded : x.toModel.unpack = UnpackedFloat.unpack Format.binary64 b := by rw [← hb]; rfl
  have bits : x.toBits.toNat = b.toNat := by rw [← hb]; rfl
  have sign := signum_ofBitVec x bits
  rw [unfolded, UnpackedFloat.unpack] at h
  unfold parts Parts.number
  simp only [bits, ← toNat_unpackExponent, ← toNat_unpackMantissa]
  -- An exponent of all ones is that of an infinity or of no number.
  by_cases ones : unpackExponent b = -BitVec.ofNat Format.binary64.exponentBits 1
  · rw [if_pos ones] at h
    split at h <;> cases h
  rw [if_neg ones] at h
  by_cases least : unpackExponent b = BitVec.ofNat Format.binary64.exponentBits 0
  · have hexponent : (unpackExponent b).toNat = 0 := congrArg BitVec.toNat least
    rw [if_pos least] at h
    rw [if_pos hexponent]
    by_cases none : unpackMantissa b = BitVec.ofNat Format.binary64.mantissaBitsWithoutImplicit 0
    · have hmantissa : (unpackMantissa b).toNat = 0 := congrArg BitVec.toNat none
      rw [dif_pos none] at h
      rw [hmantissa, Nat.cast_zero, zero_mul, mul_zero]
      exact (h.unique (.zero _)).symm
    · rw [dif_neg none, hexponent] at h
      rw [h.eq, sign]
      rfl
  · have hexponent : (unpackExponent b).toNat ≠ 0 := fun h => least (BitVec.eq_of_toNat_eq h)
    rw [if_neg least] at h
    rw [if_neg hexponent, h.eq, sign]
    have hmantissa : (1#1 ++ unpackMantissa b).toNat = (unpackMantissa b).toNat + leadingBit :=
      (toNat_fullMantissa (unpackMantissa b)).trans (Nat.add_comm _ _)
    rw [hmantissa]
    rfl

theorem parts_negative (x : Float) : (parts x).negative = isNegative x := by
  simp only [parts]
  split <;> rfl

theorem parts_mantissa_lt (x : Float) : (parts x).mantissa < 2 ^ 53 := by
  have field : x.toBits.toNat % leadingBit < 2 ^ 52 := Nat.mod_lt _ (by decide)
  have bit : leadingBit = 2 ^ 52 := rfl
  simp only [parts, apply_ite Parts.mantissa]
  split <;> omega

theorem Denotes.isNegative_eq_false (h : Denotes x q) (hq : 0 < q) : isNegative x = false := by
  by_contra negative
  rw [Bool.not_eq_false] at negative
  have number := h.number_parts
  rw [Parts.number, parts_negative, if_pos negative, neg_one_mul] at number
  have : (0 : ℚ) ≤ (parts x).mantissa * 2 ^ (parts x).exponent := by positivity
  linarith

theorem Denotes.withSign (h : Denotes x q) (hq : 0 ≤ q) (negative : Bool) :
    Denotes (withSign negative x) (if negative then -q else q) := by
  unfold Double.withSign
  rcases hq.eq_or_lt with rfl | hpos
  · rw [neg_zero, ite_self]
    split
    · exact h
    · simpa using h.neg
  · rw [h.isNegative_eq_false hpos]
    cases negative with
    | false => exact h
    | true => exact h.neg

theorem denotes_or (x : Float) :
    (∃ q, Denotes x q) ∨ (∃ s, x.toModel.unpack = .infinity s) ∨ x.toModel.unpack = .notANumber := by
  cases h : x.toModel.unpack with
  | notANumber => exact .inr (.inr rfl)
  | infinity s => exact .inr (.inl ⟨s, rfl⟩)
  | zero s =>
    refine .inl ⟨0, ?_⟩
    unfold Denotes
    rw [h]
    exact .zero s
  | finite s m e hm =>
    refine .inl ⟨signum s * (m * 2 ^ e), ?_⟩
    obtain ⟨canonical, he⟩ := canonical_of_unpack h
    unfold Denotes
    rw [h]
    exact .finite s hm canonical he

/-! ### Whole parts -/

theorem pow2_cast (e : Int) (he : 0 ≤ e) : (pow2 e : ℚ) = 2 ^ e := by
  obtain ⟨n, rfl⟩ := Int.eq_ofNat_of_zero_le he
  rw [zpow_natCast]
  exact Nat.cast_pow 2 n

theorem Denotes.floor (h : Denotes x q) : floor x = ⌊q⌋ := by
  have number := h.number_parts
  rw [Parts.number_eq] at number
  show (if 0 ≤ (parts x).exponent then (parts x).signed * pow2 (parts x).exponent
    else Int.fdiv (parts x).signed (pow2 (-(parts x).exponent))) = _
  split
  · next he =>
    have : q = ((parts x).signed * pow2 (parts x).exponent : Int) := by
      push_cast
      rw [pow2_cast _ he, number]
    rw [this, Int.floor_intCast]
  · next he =>
    have hpos : 0 ≤ -(parts x).exponent := by omega
    have : q = (parts x).signed / (pow2 (-(parts x).exponent) : Nat) := by
      rw [pow2_cast _ hpos, zpow_neg, div_inv_eq_mul, number]
    rw [this, Rat.floor_intCast_div_natCast, Int.fdiv_eq_ediv_of_nonneg _ (Int.natCast_nonneg _)]

/-- Nothing is cut off a whole number. -/
theorem Denotes.truncate {z : Int} (h : Denotes x z) : truncate x = z := by
  unfold Double.truncate
  split
  · rw [ceil, h.neg.floor, ← Int.cast_neg, Int.floor_intCast, neg_neg]
  · rw [h.floor, Int.floor_intCast]

/-! ### The nearest whole number -/

theorem quotEven_le (num den : Nat) : quotEven num den ≤ num / den + 1 := by
  unfold quotEven
  dsimp only
  split <;> omega

theorem isNumber_unpack {b : BitVec Format.binary64.numBits} {m : Nat} {e : Int} (hlow : 2 ^ 52 ≤ m)
    (hhigh : m < 2 ^ 53) (he : -1074 ≤ e) (he' : e ≤ 971) (hb : b.toNat = m - leadingBit + (e + 1075).toNat * leadingBit) :
    IsNumber (UnpackedFloat.unpack Format.binary64 b) (m * 2 ^ e) := by
  have hsign := (unpackSign_eq_zero_iff b).mpr (by unfold leadingBit at hb; omega)
  have hexponent : (unpackExponent b).toNat = (e + 1075).toNat := by
    rw [toNat_unpackExponent, hb]
    unfold leadingBit
    omega
  have hmantissa : (1#1 ++ unpackMantissa b).toNat = m := by
    refine (toNat_fullMantissa (unpackMantissa b)).trans ?_
    have := toNat_unpackMantissa b
    rw [hb] at this
    unfold leadingBit at this
    omega
  have ones : unpackExponent b ≠ -BitVec.ofNat Format.binary64.exponentBits 1 := fun h => by
    have : 2047 = (e + 1075).toNat := (congrArg BitVec.toNat h).symm.trans hexponent
    omega
  have least : unpackExponent b ≠ BitVec.ofNat Format.binary64.exponentBits 0 := fun h => by
    have : 0 = (e + 1075).toNat := (congrArg BitVec.toNat h).symm.trans hexponent
    omega
  have number : IsNumber (.finite .positive m e (by omega)) (signum .positive * (m * 2 ^ e)) :=
    .finite .positive _ ⟨hhigh, he, .inl hlow⟩ he'
  rw [signum, one_mul] at number
  have unfolded : UnpackedFloat.unpack Format.binary64 b = .finite .positive m e (by omega) := by
    rw [UnpackedFloat.unpack, if_neg ones, if_neg least]
    have field : ((e + 1075).toNat : Int) - (((1023 : Nat) : Int) + ((52 : Nat) : Int)) = e := by omega
    simp only [hsign, hexponent, hmantissa, exponentBias_binary64]
    simp only [field]
    rfl
  rwa [unfolded]

theorem denotes_zero : Denotes 0 0 := by
  have := denotes_ofNat (n := 0) (by rw [Nat.cast_zero, rounded_zero, abs_zero]; exact two_pow_pos _)
  rwa [Nat.cast_zero, rounded_zero] at this

/-- A mantissa that is shifted up to its full length. -/
theorem full_of_log2 {m : Nat} (hm : m ≠ 0) (short : m.log2 < 53) :
    2 ^ 52 ≤ m * 2 ^ (52 - m.log2) ∧ m * 2 ^ (52 - m.log2) < 2 ^ 53 := by
  have low : 2 ^ m.log2 ≤ m := Nat.log2_self_le hm
  have high : m < 2 ^ (m.log2 + 1) := Nat.lt_log2_self
  constructor
  · calc 2 ^ 52 = 2 ^ m.log2 * 2 ^ (52 - m.log2) := by
          rw [← pow_add]
          congr 1
          omega
      _ ≤ m * 2 ^ (52 - m.log2) := Nat.mul_le_mul_right _ low
  · calc m * 2 ^ (52 - m.log2) < 2 ^ (m.log2 + 1) * 2 ^ (52 - m.log2) :=
          Nat.mul_lt_mul_of_pos_right high (Nat.two_pow_pos _)
      _ = 2 ^ 53 := by
          rw [← pow_add]
          congr 1
          omega

/-- The exponent takes back by what a mantissa was shifted up. -/
theorem shifted_mul_zpow (m : Nat) {l : Nat} (short : l < 53) :
    ((m * 2 ^ (52 - l) : Nat) : ℚ) * 2 ^ ((l : Int) - 52) = m := by
  have power : ((52 - l : Nat) : Int) + ((l : Int) - 52) = 0 := by omega
  rw [Nat.cast_mul, Nat.cast_pow, Nat.cast_two, mul_assoc, ← zpow_natCast, ← zpow_add₀ two_ne_zero, power, zpow_zero,
    mul_one]

theorem denotes_nearest {m : Nat} (hm : m < 2 ^ 53) (negative : Bool) :
    Denotes (nearest negative m 0) (if negative then -m else m) := by
  unfold nearest
  split
  · next h =>
    rw [h, Nat.cast_zero]
    exact denotes_zero.withSign le_rfl negative
  · next h =>
    have short : m.log2 < 53 := (Nat.log2_lt h).mpr hm
    have full := full_of_log2 h short
    have value := shifted_mul_zpow m short
    have grid : max (0 + (m.log2 : Int) - 52) (-1074) = m.log2 - 52 := by omega
    have steps : m * pow2 (0 - ((m.log2 : Int) - 52)) = m * 2 ^ (52 - m.log2) := by
      have : (0 - ((m.log2 : Int) - 52)).toNat = 52 - m.log2 := by omega
      rw [pow2, this]
      rfl
    obtain ⟨n, hn⟩ : ∃ n, m * 2 ^ (52 - m.log2) = n := ⟨_, rfl⟩
    rw [hn] at steps full value
    have small : ¬ (971 < (m.log2 : Int) - 52) := by omega
    have fine : (m.log2 : Int) - 52 ≤ 0 := by omega
    have long : ¬ n < leadingBit := not_lt.mpr full.1
    simp only [grid, if_neg small, if_pos fine, steps, if_neg long]
    obtain ⟨bits, hbits⟩ : ∃ bits, n - leadingBit + ((m.log2 : Int) - 52 + 1075).toNat * leadingBit = bits := ⟨_, rfl⟩
    have word : (UInt64.ofNat bits).toNat = bits := by
      refine Nat.mod_eq_of_lt ?_
      rw [← hbits]
      unfold leadingBit
      omega
    have number := isNumber_unpack (b := (UInt64.ofNat bits).toBitVec) full.1 full.2 (by omega) (by omega)
      (word.trans hbits.symm)
    rw [hbits]
    rw [value] at number
    exact number.denotes.withSign (Nat.cast_nonneg m) negative

/-- A double without its fraction is the nearest whole number. -/
theorem Denotes.roundEvenFloat (h : Denotes x q) : Denotes (roundEvenFloat x) (halfEven q) := by
  have number := h.number_parts
  have hm := parts_mantissa_lt x
  unfold Double.roundEvenFloat
  rw [if_pos h.isFinite]
  obtain ⟨p, hp⟩ : ∃ p, parts x = p := ⟨_, rfl⟩
  simp only [hp] at number hm ⊢
  split
  · next he =>
    have whole : q = (p.signed * pow2 p.exponent : Int) := by
      push_cast
      rw [pow2_cast _ he, ← number, p.number_eq]
    rw [whole, halfEven_intCast, ← whole]
    exact h
  · next he =>
    -- At least one bit is dropped, so the quotient is at most half of a mantissa and no rounding follows.
    have pos : 0 < pow2 (-p.exponent) := Nat.two_pow_pos _
    have even : (2 : Nat) ∣ pow2 (-p.exponent) := dvd_pow_self 2 (by omega)
    have small : quotEven p.mantissa (pow2 (-p.exponent)) < 2 ^ 53 := by
      have := quotEven_le p.mantissa (pow2 (-p.exponent))
      have : p.mantissa / pow2 (-p.exponent) ≤ p.mantissa / 2 := Nat.div_le_div_left (Nat.le_of_dvd pos even) two_pos
      omega
    rw [← number, Parts.number, ← inv_inv (2 ^ p.exponent), ← zpow_neg, ← pow2_cast _ (by omega), ← div_eq_mul_inv]
    cases p.negative with
    | false =>
      rw [if_neg Bool.false_ne_true, one_mul, halfEven_natCast_div _ pos]
      exact denotes_nearest small false
    | true =>
      rw [if_pos rfl, neg_one_mul, halfEven_neg, halfEven_natCast_div _ pos, Int.cast_neg]
      exact denotes_nearest small true

/-! ### Conversion -/

theorem mantissa_shiftRight (em : ExtendedMantissa) (k : Nat) : (em >>> k).mantissa = em.mantissa / 2 ^ k := by
  induction k with
  | zero => exact (Nat.div_one _).symm
  | succ k ih =>
    show (em >>> k).shiftRightOne.mantissa = _
    rw [ExtendedMantissa.shiftRightOne, ih, Nat.div_div_eq_div_mul, Nat.pow_succ]

/-- The whole part of a positive number. -/
theorem roundToInt_positive (m : Nat) (e : Int) : roundToInt .positive m e = ⌊(m : ℚ) * 2 ^ e⌋₊ := by
  have hup : (e - 0).toNat = e.toNat := by omega
  have hdown : (0 - (e - (e.toNat : Int))).toNat = (-e).toNat := by omega
  have split : (m : ℚ) * 2 ^ e = (m * 2 ^ e.toNat : Nat) / (2 ^ (-e).toNat : Nat) := by
    have power : e = e.toNat - (-e).toNat := by omega
    conv_lhs => rw [power, zpow_sub₀ two_ne_zero, zpow_natCast, zpow_natCast]
    push_cast
    ring
  rw [split, Nat.floor_div_eq_div]
  simp only [roundToInt, decreaseExponent, shiftToExponent, ExtendedMantissa.ofMantissaAndAccuracy, Sign.apply,
    mantissa_shiftRight, Nat.shiftLeft_eq, hup, hdown]

theorem Denotes.toUInt64 (h : Denotes x q) (hq : 0 ≤ q) (hlt : q < 2 ^ 64) : x.toUInt64.toNat = ⌊q⌋₊ := by
  have hwhole : x.toUInt64 = x.toModel.unpack.toUInt64 := rfl
  obtain ⟨u, hu⟩ : ∃ u, x.toModel.unpack = u := ⟨_, rfl⟩
  unfold Denotes at h
  rw [hwhole]
  rw [hu] at h ⊢
  cases h with
  | zero s =>
    rw [Nat.floor_zero]
    rfl
  | @finite s m e hm canonical he =>
    cases s with
    | negative =>
      rw [signum, neg_one_mul] at hq
      exact absurd hq (neg_neg_of_pos (mantissa_mul_pos hm e)).not_ge
    | positive =>
      rw [signum, one_mul] at hlt ⊢
      have small : ⌊(m : ℚ) * 2 ^ e⌋₊ < UInt64.size :=
        (Nat.floor_lt (mantissa_mul_pos hm e).le).mpr (by exact_mod_cast hlt)
      rw [UnpackedFloat.toUInt64, toInt, roundToInt_positive, Int.toNat_natCast, UInt64.toNat_ofNatClamp_of_lt small]

theorem IsNumber.le_infinity {u : UnpackedFloat} (h : IsNumber u q) :
    UnpackedFloat.le u (.infinity .positive) = true := by
  cases h <;> rfl

/-- A double that is neither below zero, nor at or above a whole number, nor not a number, has its whole part below
    the whole number. -/
theorem whole_lt {n : Nat} (hn : n < 2 ^ 64) {x : Float} (hzero : ¬ x < (0 : Nat).toUInt64.toFloat)
    (habove : ¬ n.toUInt64.toFloat ≤ x) (hnumber : (x == x) = true) : x.toUInt64.toNat < n := by
  have bound := denotes_toFloat hn
  rcases denotes_or x with ⟨q, hx⟩ | ⟨s, hx⟩ | hx
  · have hq : 0 ≤ q := by
      have zero := denotes_toFloat (n := 0) (by decide)
      rw [hx.lt_iff zero, Nat.cast_zero, rounded_zero] at hzero
      exact not_lt.mp hzero
    have hlt : q < n := by
      -- what is at least the number is at least the double next to it
      refine not_le.mp fun hle => habove ((bound.le_iff hx).mpr ?_)
      rw [← hx.rounded_eq]
      exact rounded_mono hle
    rw [hx.toUInt64 hq (hlt.trans (by exact_mod_cast hn))]
    exact (Nat.floor_lt hq).mpr hlt
  · cases s with
    | negative =>
      have below : UnpackedFloat.lt x.toModel.unpack (.zero .positive) = true := by
        rw [hx]
        rfl
      exact absurd (decide_eq_true below) hzero
    | positive =>
      have above : UnpackedFloat.le n.toUInt64.toFloat.toModel.unpack x.toModel.unpack = true := by
        rw [hx]
        exact IsNumber.le_infinity bound
      exact absurd (decide_eq_true above) habove
  · have number : UnpackedFloat.beq x.toModel.unpack x.toModel.unpack = true := hnumber
    rw [hx] at number
    cases number

end RecordStats.Double
