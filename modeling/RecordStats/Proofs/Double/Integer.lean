import Mathlib
import RecordStats.Proofs.Double.Arithmetic
import RecordStats.Value.Basic

/-! Integers as doubles. An integer of 64 bits is rounded to the nearest double, and that is a whole number too. Up to
    `2 ^ 53` in size an integer is such a double itself; beyond, different integers may have one nearest double. -/

namespace RecordStats.Double

/-- The double nearest to an integer, as a whole number; a half goes to the one whose mantissa is even. -/
def nearestWhole (n : Int) : Int :=
  let unit := 2 ^ (Nat.log2 n.natAbs - 52)
  n.sign * (quotEven n.natAbs unit * unit : Nat)

theorem halfEven_intCast_div (n : Int) {den : Nat} (hden : 0 < den) :
    halfEven (n / den) = n.sign * quotEven n.natAbs den := by
  rcases lt_trichotomy n 0 with h | rfl | h
  · obtain ⟨m, rfl⟩ : ∃ m : Nat, n = -m := ⟨n.natAbs, by omega⟩
    rw [Int.sign_eq_neg_one_of_neg h, Int.natAbs_neg, Int.natAbs_natCast, Int.cast_neg, neg_div, halfEven_neg,
      Int.cast_natCast, halfEven_natCast_div _ hden, neg_one_mul]
  · rw [Int.cast_zero, zero_div, Int.sign_zero, zero_mul]
    exact halfEven_intCast 0
  · obtain ⟨m, rfl⟩ : ∃ m : Nat, n = m := ⟨n.natAbs, by omega⟩
    rw [Int.sign_eq_one_of_pos h, Int.natAbs_natCast, Int.cast_natCast, halfEven_natCast_div _ hden, one_mul]

theorem nearestWhole_of_lt {n : Int} (h : n.natAbs < 2 ^ 53) : nearestWhole n = n := by
  have short : n.natAbs.log2 - 52 = 0 := by
    rcases eq_or_ne n.natAbs 0 with h0 | h0
    · rw [h0]
      rfl
    · have := (Nat.log2_lt h0).mpr h
      omega
  have one (k : Nat) : quotEven k 1 = k := by
    unfold quotEven
    simp [Nat.mod_one]
  rw [nearestWhole, short, pow_zero, one, mul_one, Int.sign_mul_natAbs]

/-- Integers are rounded to the doubles nearest to them. -/
theorem rounded_intCast (n : Int) : rounded n = nearestWhole n := by
  by_cases small : n.natAbs < 2 ^ 53
  · rw [nearestWhole_of_lt small]
    refine rounded_eq_of_lt (z := n) (e := 0) ?_ small (by decide)
    rw [zpow_zero, mul_one]
  · obtain ⟨k, hk⟩ : ∃ k : Nat, n.natAbs.log2 = 52 + k := by
      have : 52 ≤ n.natAbs.log2 := (Nat.le_log2 (by omega)).mpr (by omega)
      exact ⟨_, (Nat.add_sub_cancel' this).symm⟩
    have hgrid : grid n = k := by
      rw [grid, ← Int.cast_abs, Int.abs_eq_natAbs, Int.cast_natCast, Int.log_natCast, ← Nat.log2_eq_log_two, hk]
      omega
    have hunit : 52 + k - 52 = k := by omega
    have split := halfEven_intCast_div n (Nat.two_pow_pos k)
    rw [Nat.cast_pow, Nat.cast_two] at split
    rw [rounded, hgrid, zpow_natCast, split, nearestWhole, hk, hunit]
    push_cast
    ring

theorem nearestWhole_mono {a b : Int} (h : a ≤ b) : nearestWhole a ≤ nearestWhole b := by
  have := rounded_mono (Int.cast_le (R := ℚ).mpr h)
  rw [rounded_intCast, rounded_intCast] at this
  exact_mod_cast this

/-- Where only equal integers have one nearest double, their order is that of their nearest doubles. -/
theorem nearestWhole_lt_iff {a b : Int} (inj : nearestWhole a = nearestWhole b → a = b) :
    nearestWhole a < nearestWhole b ↔ a < b := by
  refine ⟨fun h => not_le.mp fun hle => h.not_ge (nearestWhole_mono hle), fun h => ?_⟩
  exact (nearestWhole_mono h.le).lt_of_ne fun heq => h.ne (inj heq)

/-- Up to this size every integer is a double. -/
theorem nearestWhole_eq {n : Int} (h : n.natAbs ≤ 2 ^ 53) : nearestWhole n = n := by
  have still : rounded n = n := rounded_eq (z := n) (e := 0) (by rw [zpow_zero, mul_one]) h (by decide)
  rw [rounded_intCast] at still
  exact_mod_cast still

theorem denotes_ofWord (n : Int64) : Denotes (ofWord n) (nearestWhole n.toInt) := by
  rw [← rounded_intCast]
  refine denotes_ofInt (abs_rounded_lt (e := 63) ?_ (by decide) (by decide))
  have low := Int64.le_toInt n
  have high := Int64.toInt_lt n
  rw [← Int.cast_abs]
  exact_mod_cast abs_le.mpr ⟨by omega, by omega⟩

end RecordStats.Double
