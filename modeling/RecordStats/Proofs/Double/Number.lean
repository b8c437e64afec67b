import Mathlib
import RecordStats.Proofs.Double.Rounding

/-! Doubles as numbers. -/

namespace RecordStats.Double

open Float.Model Float.Model.UnpackedFloat

/-! ### Bits -/

/-- The bit that a full mantissa does not store. -/
theorem toNat_fullMantissa (y : BitVec 52) : (1#1 ++ y).toNat = 2 ^ 52 + y.toNat := by
  have hone : (1#1).toNat = 1 := rfl
  rw [BitVec.toNat_append, ← Nat.shiftLeft_add_eq_or_of_lt y.isLt, Nat.shiftLeft_eq, hone, Nat.one_mul]

theorem exponentBias_binary64 : Format.binary64.exponentBias = 1023 := rfl

theorem sign_packComponents (s : Sign) (e : BitVec 11) (m : BitVec 52) :
    Sign.ofBitVec (unpackSign (packComponents Format.binary64 s e m)) = s := by
  rw [unpackSign_packComponents, Sign.ofBitVec_toBitVec]

theorem unpack_pack_normal (s : Sign) {m : Nat} {e : Int} (h : 0 < m) (hlow : 2 ^ 52 ≤ m) (hhigh : m < 2 ^ 53)
    (he : -1074 ≤ e) (he' : e ≤ 971) :
    UnpackedFloat.unpack Format.binary64 (UnpackedFloat.pack Format.binary64 (.finite s m e h)) = .finite s m e h := by
  have hlog : m.log2 = 52 := (Nat.log2_eq_iff (by omega)).mpr ⟨hlow, hhigh⟩
  obtain ⟨b, hb⟩ : ∃ b : Nat, (e + ((1023 : Nat) : Int) + ((52 : Nat) : Int)).toNat = b := ⟨_, rfl⟩
  have hpack : UnpackedFloat.pack Format.binary64 (.finite s m e h) =
      packComponents Format.binary64 s (BitVec.ofNat 11 b) (BitVec.ofNat 52 m) := by
    have hfits : ¬ 2 ^ 11 ≤ b + 1 := by omega
    simp only [UnpackedFloat.pack, hlog, exponentBias_binary64, hb]
    rw [if_neg hfits, if_pos (by rfl)]
  have hexponent : (BitVec.ofNat 11 b).toNat = b := by
    rw [BitVec.toNat_ofNat, Nat.mod_eq_of_lt (by omega)]
  -- The exponent is neither all ones nor all zeros, so a normal number is read back.
  have hones : BitVec.ofNat 11 b ≠ -1#11 := fun heq => by
    rw [heq] at hexponent
    have hb' : 2047 = b := hexponent
    omega
  have hzero : BitVec.ofNat 11 b ≠ 0#11 := fun heq => by
    rw [heq] at hexponent
    have hb' : 0 = b := hexponent
    omega
  have hmantissa : (1#1 ++ BitVec.ofNat 52 m).toNat = m := by
    rw [toNat_fullMantissa, BitVec.toNat_ofNat]
    omega
  have hT : (b : Int) - (((1023 : Nat) : Int) + ((52 : Nat) : Int)) = e := by omega
  rw [hpack]
  simp only [UnpackedFloat.unpack, unpackMantissa_packComponents, unpackExponent_packComponents,
    sign_packComponents, exponentBias_binary64, hexponent, hmantissa]
  rw [if_neg hones, if_neg hzero]
  simp only [hT]

theorem unpack_pack_subnormal (s : Sign) {m : Nat} (h : 0 < m) (hm : m < 2 ^ 52) :
    UnpackedFloat.unpack Format.binary64 (UnpackedFloat.pack Format.binary64 (.finite s m (-1074) h)) =
      .finite s m (-1074) h := by
  have hlog : ¬ m.log2 + 1 = Format.mantissaBits Format.binary64 := by
    have : m.log2 < 52 := (Nat.log2_lt (by omega)).mpr hm
    simp only [Format.mantissaBits]
    omega
  have hpack : UnpackedFloat.pack Format.binary64 (.finite s m (-1074) h) =
      packComponents Format.binary64 s 0#11 (BitVec.ofNat 52 m) := by
    simp only [UnpackedFloat.pack]
    rw [if_neg (by decide), if_neg hlog]
  have hmantissa : (BitVec.ofNat 52 m).toNat = m := by
    rw [BitVec.toNat_ofNat, Nat.mod_eq_of_lt hm]
  have hzero : BitVec.ofNat 52 m ≠ 0#52 := fun heq => by
    rw [heq] at hmantissa
    have hm' : 0 = m := hmantissa
    omega
  rw [hpack]
  simp only [UnpackedFloat.unpack, unpackMantissa_packComponents, unpackExponent_packComponents,
    sign_packComponents, hmantissa]
  rw [if_neg (by decide), if_pos trivial, dif_neg hzero]
  rfl

/-- A double is read back from its bits. -/
theorem unpack_pack (s : Sign) {m : Nat} {e : Int} (h : 0 < m) (canonical : Canonical m e) (he : e ≤ 971) :
    UnpackedFloat.unpack Format.binary64 (UnpackedFloat.pack Format.binary64 (.finite s m e h)) = .finite s m e h := by
  obtain ⟨hlt, hge, hfull⟩ := canonical
  by_cases normal : 2 ^ 52 ≤ m
  · exact unpack_pack_normal s h normal hlt hge he
  · obtain rfl : e = -1074 := hfull.resolve_left normal
    exact unpack_pack_subnormal s h (not_le.mp normal)

/-- What is too large for a double is infinite. -/
theorem unpack_pack_large (s : Sign) {m : Nat} {e : Int} (h : 0 < m) (he : 971 < e) :
    UnpackedFloat.unpack Format.binary64 (UnpackedFloat.pack Format.binary64 (.finite s m e h)) = .infinity s := by
  obtain ⟨b, hb⟩ : ∃ b : Nat, (e + ((1023 : Nat) : Int) + ((52 : Nat) : Int)).toNat = b := ⟨_, rfl⟩
  have hpack : UnpackedFloat.pack Format.binary64 (.finite s m e h) = packedInfinity Format.binary64 s := by
    have hlarge : 2 ^ 11 ≤ b + 1 := by omega
    simp only [UnpackedFloat.pack, exponentBias_binary64, hb]
    rw [if_pos hlarge]
  rw [hpack, packedInfinity]
  simp only [UnpackedFloat.unpack, unpackMantissa_packComponents, unpackExponent_packComponents, sign_packComponents]
  rfl

/-- A double has a canonical mantissa and exponent. -/
theorem canonical_of_unpack {b : BitVec Format.binary64.numBits} {s : Sign} {m : Nat} {e : Int} {h : 0 < m}
    (heq : UnpackedFloat.unpack Format.binary64 b = .finite s m e h) : Canonical m e ∧ e ≤ 971 := by
  obtain ⟨x, hx⟩ : ∃ x : BitVec 11, unpackExponent b = x := ⟨_, rfl⟩
  obtain ⟨y, hy⟩ : ∃ y : BitVec 52, unpackMantissa b = y := ⟨_, rfl⟩
  have hlt := y.isLt
  simp only [UnpackedFloat.unpack, exponentBias_binary64, hx, hy] at heq
  split at heq
  · split at heq <;> cases heq
  rename_i hones
  have hx2047 : x.toNat ≠ 2047 := fun h => hones (BitVec.eq_of_toNat_eq h)
  have hxlt := x.isLt
  split at heq
  · rename_i hzero
    split at heq
    · cases heq
    · have hx0 : x.toNat = 0 := congrArg BitVec.toNat hzero
      injection heq with _ hm he
      exact ⟨⟨by omega, by omega, by omega⟩, by omega⟩
  · rename_i hzero
    have hx0 : x.toNat ≠ 0 := fun h => hzero (BitVec.eq_of_toNat_eq h)
    injection heq with _ hm he
    rw [toNat_fullMantissa] at hm
    exact ⟨⟨by omega, by omega, by omega⟩, by omega⟩

/-! ### What doubles stand for -/

/-- One, with a sign. -/
def signum : Sign → ℚ
  | .negative => -1
  | .positive => 1

theorem signum_mul (s t : Sign) : signum (s * t) = signum s * signum t := by
  cases s <;> cases t
  exacts [(by norm_num : (1 : ℚ) = -1 * -1), (by norm_num : (-1 : ℚ) = -1 * 1), (by norm_num : (-1 : ℚ) = 1 * -1),
    (by norm_num : (1 : ℚ) = 1 * 1)]

theorem signum_div (s t : Sign) : signum (s / t) = signum s / signum t := by
  cases s <;> cases t
  exacts [(by norm_num : (1 : ℚ) = -1 / -1), (by norm_num : (-1 : ℚ) = -1 / 1), (by norm_num : (-1 : ℚ) = 1 / -1),
    (by norm_num : (1 : ℚ) = 1 / 1)]

theorem signum_neg (s : Sign) : signum (-s) = -signum s := by
  cases s
  · exact (neg_neg 1).symm
  · rfl

theorem abs_signum (s : Sign) : |signum s| = 1 := by
  cases s
  · exact (abs_neg 1).trans abs_one
  · exact abs_one

theorem rounded_signum_mul (s : Sign) (q : ℚ) : rounded (signum s * q) = signum s * rounded q := by
  cases s with
  | negative => rw [signum, neg_one_mul, neg_one_mul, rounded_neg]
  | positive => rw [signum, one_mul, one_mul]

namespace Canonical

variable {m m' : Nat} {e e' : Int}

theorem lt_of_exponent_lt (h : Canonical m e) (h' : Canonical m' e') (he : e < e') : (m : ℚ) * 2 ^ e < m' * 2 ^ e' := by
  have full : 2 ^ 52 ≤ m' := h'.full.resolve_right fun least => by
    have := h.exponent_ge
    omega
  calc (m : ℚ) * 2 ^ e < 2 ^ 53 * 2 ^ e :=
        mul_lt_mul_of_pos_right (by exact_mod_cast h.mantissa_lt) (two_pow_pos e)
    _ = 2 ^ 52 * 2 ^ (e + 1) := by
        rw [zpow_add_one₀ two_ne_zero]
        ring
    _ ≤ 2 ^ 52 * 2 ^ e' := mul_le_mul_of_nonneg_left (zpow_le_zpow_right₀ one_le_two he) (by norm_num)
    _ ≤ m' * 2 ^ e' := mul_le_mul_of_nonneg_right (by exact_mod_cast full) (two_pow_pos e').le

/-- Doubles are in the order of their exponents, and then of their mantissas. -/
theorem compare_eq (h : Canonical m e) (h' : Canonical m' e') :
    (compare e e').then (compare m m') = compare ((m : ℚ) * 2 ^ e) (m' * 2 ^ e') := by
  rcases lt_trichotomy e e' with hlt | rfl | hgt
  · rw [compare_lt_iff_lt.mpr hlt, compare_lt_iff_lt.mpr (h.lt_of_exponent_lt h' hlt)]
    rfl
  · rw [compare_eq_iff_eq.mpr rfl, Ordering.eq_then]
    have scale := mul_lt_mul_iff_of_pos_right (two_pow_pos e) (b := (m : ℚ)) (c := m')
    have scale' := mul_lt_mul_iff_of_pos_right (two_pow_pos e) (b := (m' : ℚ)) (c := m)
    rw [Nat.cast_lt] at scale scale'
    rcases lt_trichotomy m m' with hlt | rfl | hgt
    · rw [compare_lt_iff_lt.mpr hlt, compare_lt_iff_lt.mpr (scale.mpr hlt)]
    · rw [compare_eq_iff_eq.mpr rfl, compare_eq_iff_eq.mpr rfl]
    · rw [compare_gt_iff_gt.mpr hgt, compare_gt_iff_gt.mpr (scale'.mpr hgt)]
  · rw [compare_gt_iff_gt.mpr hgt, compare_gt_iff_gt.mpr (h'.lt_of_exponent_lt h hgt)]
    rfl

/-- A number is too large for a double from `2 ^ 1024` on. -/
theorem exponent_le_iff (h : Canonical m e) : e ≤ 971 ↔ (m : ℚ) * 2 ^ e < 2 ^ (1024 : Int) := by
  constructor
  · intro he
    calc (m : ℚ) * 2 ^ e < 2 ^ 53 * 2 ^ e :=
          mul_lt_mul_of_pos_right (by exact_mod_cast h.mantissa_lt) (two_pow_pos e)
      _ ≤ 2 ^ 53 * 2 ^ (971 : Int) := mul_le_mul_of_nonneg_left (zpow_le_zpow_right₀ one_le_two he) (by norm_num)
      _ = 2 ^ (1024 : Int) := by
          rw [← zpow_natCast, ← zpow_add₀ two_ne_zero]
          norm_num
  · intro hlt
    by_contra he
    have full : 2 ^ 52 ≤ m := h.full.resolve_right (by omega)
    refine hlt.not_ge ?_
    calc (2 : ℚ) ^ (1024 : Int) = 2 ^ 52 * 2 ^ (972 : Int) := by
          rw [← zpow_natCast, ← zpow_add₀ two_ne_zero]
          norm_num
      _ ≤ 2 ^ 52 * 2 ^ e := mul_le_mul_of_nonneg_left (zpow_le_zpow_right₀ one_le_two (by omega)) (by norm_num)
      _ ≤ m * 2 ^ e := mul_le_mul_of_nonneg_right (by exact_mod_cast full) (two_pow_pos e).le

theorem rounded_eq (h : Canonical m e) : rounded (m * 2 ^ e) = m * 2 ^ e := by
  refine rounded_eq_of_lt (z := m) (e := e) ?_ h.mantissa_lt h.exponent_ge
  rw [Int.cast_natCast]

end Canonical

/-- The number that a finite double stands for. -/
inductive IsNumber : UnpackedFloat → ℚ → Prop
  | zero (s : Sign) : IsNumber (.zero s) 0
  | finite (s : Sign) {m : Nat} {e : Int} (h : 0 < m) (canonical : Canonical m e) (he : e ≤ 971) :
      IsNumber (.finite s m e h) (signum s * (m * 2 ^ e))

/-- The double is finite and stands for the number. -/
def Denotes (x : Float) (q : ℚ) : Prop :=
  IsNumber x.toModel.unpack q

/-- The double is the positive infinity. -/
def Infinite (x : Float) : Prop :=
  x.toModel.unpack = .infinity .positive

theorem compare_neg_neg (p q : ℚ) : compare (-p) (-q) = (compare p q).swap := by
  rcases lt_trichotomy p q with h | rfl | h
  · rw [compare_lt_iff_lt.mpr h, compare_gt_iff_gt.mpr (neg_lt_neg h)]
    rfl
  · rw [compare_eq_iff_eq.mpr rfl, compare_eq_iff_eq.mpr rfl]
    rfl
  · rw [compare_gt_iff_gt.mpr h, compare_lt_iff_lt.mpr (neg_lt_neg h)]
    rfl

theorem mantissa_mul_pos {m : Nat} (h : 0 < m) (e : Int) : (0 : ℚ) < m * 2 ^ e :=
  mul_pos (Nat.cast_pos.mpr h) (two_pow_pos e)

namespace IsNumber

variable {u v : UnpackedFloat} {p q : ℚ}

theorem unique (hp : IsNumber u p) (hq : IsNumber u q) : p = q := by
  cases hp <;> cases hq <;> rfl

theorem unpack_pack (h : IsNumber u q) :
    UnpackedFloat.unpack Format.binary64 (UnpackedFloat.pack Format.binary64 u) = u := by
  cases h with
  | zero s => cases s <;> rfl
  | finite s h canonical he => exact Double.unpack_pack s h canonical he

theorem isFinite (h : IsNumber u q) : u.isFinite = true := by
  cases h <;> rfl

theorem isNaN_eq_false (h : IsNumber u q) : u.isNaN = false := by
  cases h <;> rfl

/-- What a finite double stands for is a number that doubles can be. -/
theorem rounded_eq (h : IsNumber u q) : rounded q = q := by
  cases h with
  | zero s => exact rounded_zero
  | finite s h canonical he => rw [rounded_signum_mul, canonical.rounded_eq]

/-- Finite doubles are in the order of their numbers. -/
theorem compare_eq (hp : IsNumber u p) (hq : IsNumber v q) : UnpackedFloat.compare u v = some (compare p q) := by
  cases hp with
  | zero s =>
    cases hq with
    | zero t =>
      rw [compare_eq_iff_eq.mpr rfl]
      rfl
    | finite t hn canonical' hf =>
      have pos := mantissa_mul_pos hn
      cases t with
      | negative =>
        rw [compare_gt_iff_gt.mpr (by simpa [signum] using pos _)]
        rfl
      | positive =>
        rw [compare_lt_iff_lt.mpr (by simpa [signum] using pos _)]
        rfl
  | finite s hm canonical he =>
    have pos := mantissa_mul_pos hm
    cases hq with
    | zero t =>
      cases s with
      | negative =>
        rw [compare_lt_iff_lt.mpr (by simpa [signum] using pos _)]
        rfl
      | positive =>
        rw [compare_gt_iff_gt.mpr (by simpa [signum] using pos _)]
        rfl
    | finite t hn canonical' hf =>
      have pos' := mantissa_mul_pos hn
      have order := canonical.compare_eq canonical'
      cases s <;> cases t <;> simp only [signum, neg_one_mul, one_mul]
      · rw [compare_neg_neg, ← order]
        rfl
      · rw [compare_lt_iff_lt.mpr ((neg_neg_of_pos (pos _)).trans (pos' _))]
        rfl
      · rw [compare_gt_iff_gt.mpr ((neg_neg_of_pos (pos' _)).trans (pos _))]
        rfl
      · rw [← order]
        rfl

end IsNumber

namespace Rounds

variable {s : Sign} {q : ℚ} {u : UnpackedFloat}

theorem isNumber (h : Rounds s q u) (fits : |signum s * rounded q| < 2 ^ (1024 : Int)) :
    IsNumber u (signum s * rounded q) := by
  cases h with
  | zero h =>
    rw [h, mul_zero]
    exact .zero s
  | finite hm canonical eq =>
    rw [abs_mul, abs_signum, one_mul, ← eq] at fits
    rw [← eq]
    exact .finite s hm canonical (canonical.exponent_le_iff.mpr ((le_abs_self _).trans_lt fits))

/-- A number that is too large for a double becomes infinite. -/
theorem infinite (h : Rounds s q u) (large : 2 ^ (1024 : Int) ≤ rounded q) :
    UnpackedFloat.unpack Format.binary64 (UnpackedFloat.pack Format.binary64 u) = .infinity s := by
  cases h with
  | zero h =>
    rw [h] at large
    exact absurd large (two_pow_pos _).not_ge
  | finite hm canonical eq =>
    rw [← eq] at large
    exact unpack_pack_large s hm (not_le.mp fun he => large.not_gt (canonical.exponent_le_iff.mp he))

end Rounds

theorem lt_iff_compare {x y : Float} :
    x < y ↔ UnpackedFloat.compare x.toModel.unpack y.toModel.unpack = some .lt := by
  have unfolded : x < y ↔ (UnpackedFloat.compare x.toModel.unpack y.toModel.unpack == some .lt) = true :=
    decide_eq_true_iff
  rw [unfolded, beq_iff_eq]

theorem le_iff_compare {x y : Float} :
    x ≤ y ↔ (UnpackedFloat.compare x.toModel.unpack y.toModel.unpack).any (fun o => o.isLE) = true :=
  decide_eq_true_iff

namespace Denotes

variable {x y : Float} {p q : ℚ}

theorem rounded_eq (hx : Denotes x p) : rounded p = p := IsNumber.rounded_eq hx

theorem beq_iff (hx : Denotes x p) (hy : Denotes y q) : (x == y) = true ↔ p = q := by
  have unfolded : (x == y) = (UnpackedFloat.compare x.toModel.unpack y.toModel.unpack == some .eq) := rfl
  rw [unfolded, IsNumber.compare_eq hx hy, beq_iff_eq, Option.some.injEq, compare_eq_iff_eq]

theorem lt_iff (hx : Denotes x p) (hy : Denotes y q) : x < y ↔ p < q := by
  rw [lt_iff_compare, IsNumber.compare_eq hx hy, Option.some.injEq, compare_lt_iff_lt]

theorem le_iff (hx : Denotes x p) (hy : Denotes y q) : x ≤ y ↔ p ≤ q := by
  rw [le_iff_compare, IsNumber.compare_eq hx hy, Option.any_some, Ordering.isLE_iff_ne_gt, compare_gt_iff_gt, not_lt]

theorem isFinite (hx : Denotes x p) : x.isFinite = true := IsNumber.isFinite hx

theorem isNaN_eq_false (hx : Denotes x p) : x.isNaN = false := IsNumber.isNaN_eq_false hx

end Denotes

end RecordStats.Double
