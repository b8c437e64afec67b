import Mathlib.Algebra.Ring.Int.Defs
import Mathlib.Algebra.Ring.Parity
import RecordStats.Evaluation.Operation
import RecordStats.Proofs.Source.Spelling

/-! Arithmetic on integers. The exact result is computed first and given if it fits in 64 bits. Powers have an
    exception: an exponent of more than 32 bits is refused before the base is looked at, also where the base is
    `0`, `1` or `-1` and the power is no larger. Remainders are not checked, and need not be: they are the ones of the
    division that rounds down, and nothing on the way to them leaves 64 bits. -/

namespace RecordStats

namespace Decimal

/-- A whole number of 64 bits. -/
def Fits (n : Int) : Prop :=
  -2 ^ 63 ≤ n ∧ n < 2 ^ 63

instance (n : Int) : Decidable (Fits n) :=
  inferInstanceAs (Decidable (_ ∧ _))

theorem not_fits_pow {a : Int} (ha : ¬ a.natAbs ≤ 1) {k : Nat} (hk : 64 ≤ k) : ¬ Fits (a ^ k) := by
  intro ⟨low, high⟩
  have grows : 2 ^ 64 ≤ (a ^ k).natAbs := calc
    2 ^ 64 ≤ 2 ^ k := Nat.pow_le_pow_right Nat.two_pos hk
    _ ≤ a.natAbs ^ k := Nat.pow_le_pow_left (by omega) k
    _ = (a ^ k).natAbs := (Int.natAbs_pow a k).symm
  omega

end Decimal

namespace Overload

open Decimal (Fits)

theorem exact_of_fits (op : Operator) {n : Int} (h : Fits n) :
    ∃ w : Int64, w.toInt = n ∧ exact op n = .ok (.integer w) := by
  have word : Decimal.word? n = some (Int64.ofInt n) := if_pos h
  exact ⟨_, Lexeme.toInt_of_word? word, by rw [exact, word]⟩

theorem exact_of_not_fits (op : Operator) {n : Int} (h : ¬ Fits n) : exact op n = .error (.overflow op) := by
  have word : Decimal.word? n = none := if_neg h
  rw [exact, word]

/-- A power of a number that is no larger than `1` is found by whether the exponent is even. -/
theorem pow_of_natAbs_le_one {a : Int} (ha : a.natAbs ≤ 1) (k : Nat) :
    a ^ k = if (k : Int) = 0 then 1 else if (k : Int) % 2 = 0 then a * a else a := by
  obtain rfl | rfl | rfl : a = 0 ∨ a = 1 ∨ a = -1 := by omega
  · cases k with
    | zero => rfl
    | succ k =>
      rw [if_neg (by omega)]
      simp
  · simp
  · rcases Nat.even_or_odd k with even | odd
    · have := even.two_dvd
      rw [even.neg_one_pow, if_pos (by omega : (k : Int) % 2 = 0)]
      split <;> rfl
    · obtain ⟨m, rfl⟩ := odd
      rw [Odd.neg_one_pow ⟨m, rfl⟩, if_neg (by omega), if_neg (by omega)]

theorem integerPower_eq_exact (a : Int) {b : Int} (hb : 0 ≤ b) (short : b < 2 ^ 32) :
    integerPower a b = exact .power (a ^ b.toNat) := by
  have hk : (b.toNat : Int) = b := Int.toNat_of_nonneg hb
  rw [integerPower, if_neg (by omega)]
  split
  · next small => rw [pow_of_natAbs_le_one small, hk]
  · next large =>
    split
    · rw [exact_of_not_fits _ (Decimal.not_fits_pow large (by omega))]
    · rfl

theorem integerPower_eq_overflow (a : Int) {b : Int} (long : 2 ^ 32 ≤ b) :
    integerPower a b = .error (.overflow .power) :=
  if_pos long

end Overload

namespace Operator

open Decimal (Fits)

/-- The whole number that an operator stands for in arithmetic on integers. A power has one if the exponent is not
    negative. -/
inductive Arithmetic : Operator → List Int64 → Int → Prop
  | plus (a b : Int64) : Arithmetic plus [a, b] (a.toInt + b.toInt)
  | minus (a b : Int64) : Arithmetic minus [a, b] (a.toInt - b.toInt)
  | times (a b : Int64) : Arithmetic times [a, b] (a.toInt * b.toInt)
  | negative (a : Int64) : Arithmetic negative [a] (-a.toInt)
  | power (a b : Int64) (h : 0 ≤ b.toInt) : Arithmetic power [a, b] (a.toInt ^ b.toInt.toNat)

/-- A power that is no larger than its base, whatever the exponent, with an exponent of more than 32 bits. -/
inductive Refused : Operator → List Int64 → Prop
  | power (a b : Int64) (small : a.toInt.natAbs ≤ 1) (long : 2 ^ 32 ≤ b.toInt) : Refused power [a, b]

/-- What becomes of the exact result `n`: it is given if it fits and is not refused, and is an overflow at `s`
    otherwise. -/
structure Settles (op : Operator) (n : Int) (refused : Prop) (s : Span) (result : Outcome Value) : Prop where
  exact : Fits n → ¬ refused → ∃ w : Int64, w.toInt = n ∧ result = .ok (.integer w)
  overflow : ¬ Fits n ∨ refused → (Cause.overflow op).kind = .runtime ∧ result = Outcome.failAt (.overflow op) s

theorem settles_exact (op : Operator) (n : Int) {refused : Prop} (never : ¬ refused) (s : Span) :
    Settles op n refused s ((Outcome.ofCause (Overload.exact op n)).orAt s) where
  exact fits _ := by
    obtain ⟨w, hw, h⟩ := Overload.exact_of_fits op fits
    exact ⟨w, hw, by rw [h]; rfl⟩
  overflow h := by
    have large := h.resolve_right never
    exact ⟨rfl, by rw [Overload.exact_of_not_fits op large]; rfl⟩

theorem settles_overflow (op : Operator) {n : Int} {refused : Prop} (h : ¬ Fits n ∨ refused) (s : Span) :
    Settles op n refused s (Outcome.failAt (.overflow op) s) where
  exact fits kept := by
    cases h with
    | inl large => exact absurd fits large
    | inr h => exact absurd h kept
  overflow _ := ⟨rfl, rfl⟩

theorem apply_power (origin : Origin) (a : Int64) {b : Int64} (hb : 0 ≤ b.toInt) (s : Span) :
    power.apply origin [.integer a, .integer b] s =
      (Outcome.ofCause (Overload.integerPower a.toInt b.toInt)).orAt s := by
  have accepts : Overload.naturalPower [.integer a, .integer b] = .ok true := by
    rw [Overload.naturalPower, decide_eq_true hb]
  simp only [Operator.apply, overloads, applyFirst, accepts]
  rfl

/-- Arithmetic on integers of 64 bits gives the exact result as an integer if that fits in 64 bits, and an overflow at
    the place of the operation otherwise. Only a power of `0`, `1` or `-1` is an overflow though it fits, exactly if
    its exponent has more than 32 bits. -/
theorem apply_integers {op : Operator} {operands : List Int64} {n : Int} (h : Arithmetic op operands n)
    (origin : Origin) (s : Span) :
    Settles op n (Refused op operands) s (op.apply origin (operands.map .integer) s) := by
  cases h with
  | plus => exact settles_exact .plus _ nofun s
  | minus => exact settles_exact .minus _ nofun s
  | times => exact settles_exact .times _ nofun s
  | negative => exact settles_exact .negative _ nofun s
  | power a b hb =>
    rw [List.map_cons, List.map_singleton, apply_power origin a hb]
    by_cases long : 2 ^ 32 ≤ b.toInt
    · rw [Overload.integerPower_eq_overflow _ long]
      refine settles_overflow .power ?_ s
      by_cases small : a.toInt.natAbs ≤ 1
      · exact .inr (.power a b small long)
      · exact .inl (Decimal.not_fits_pow small (by omega))
    · rw [Overload.integerPower_eq_exact _ hb (by omega)]
      refine settles_exact .power _ ?_ s
      intro refused
      cases refused with
      | power _ _ _ h => exact long h

/-- The least integer of 64 bits as a power of `-2`, and the next power, which is too large. -/
theorem apply_integers_powers :
    (∃ w : Int64, w.toInt = -2 ^ 63 ∧
        power.apply [] [.integer (-2), .integer 63] default = .ok (.integer w)) ∧
      (Cause.overflow power).kind = .runtime ∧
        power.apply [] [.integer (-2), .integer 64] default = Outcome.failAt (.overflow power) default := by
  have below := apply_integers (.power (-2) 63 (by decide)) [] default
  have above := apply_integers (.power (-2) 64 (by decide)) [] default
  refine ⟨below.exact (by decide) ?_, above.overflow (.inl (by decide))⟩
  intro refused
  cases refused with
  | power _ _ _ long => exact absurd long (by decide)

/-- Arithmetic does refuse a result that fits: `1` to the power of `2 ^ 32`. -/
theorem one_power_refused : ¬ ∀ (op : Operator) (operands : List Int64) (n : Int), Arithmetic op operands n →
    ∀ (origin : Origin) (s : Span), Settles op n False s (op.apply origin (operands.map .integer) s) := by
  intro exact
  have one : (1 : Int64).toInt ^ (4294967296 : Int64).toInt.toNat = 1 := Int.one_pow
  have settles := exact _ _ _ (.power 1 4294967296 (by decide)) [] default
  obtain ⟨w, -, h⟩ := settles.exact (by rw [one]; decide) id
  rw [List.map_cons, List.map_singleton, apply_power [] 1 (by decide),
    Overload.integerPower_eq_overflow _ (by decide)] at h
  cases h

end Operator

/-! ### Remainders -/

/-- What is left of `a` when it is divided by `b` and the quotient is rounded down. -/
structure IsFlooredRemainder (a b r : Int) : Prop where
  divides : b ∣ a - r
  positive : 0 < b → 0 ≤ r ∧ r < b
  negative : b < 0 → b < r ∧ r ≤ 0

namespace Overload

theorem natAbs_tmod_lt (a : Int) {b : Int} (hb : b ≠ 0) : (Int.tmod a b).natAbs < b.natAbs := by
  rw [Int.natAbs_tmod]
  exact Nat.mod_lt _ (Int.natAbs_pos.mpr hb)

/-- A remainder on the other side of zero than the divisor is moved by the divisor, any other one is left. -/
theorem onSideOf_eq (b r : Int) :
    (onSideOf b r = r ∧ (r = 0 ∨ (r < 0 ↔ b < 0))) ∨ (onSideOf b r = r + b ∧ r ≠ 0 ∧ (r < 0 ↔ ¬ b < 0)) := by
  unfold onSideOf
  rcases eq_or_ne r 0 with rfl | hr
  · exact .inl ⟨rfl, .inl rfl⟩
  · by_cases neg : r < 0 <;> by_cases neg' : b < 0 <;> simp [hr, neg, neg']

theorem isFlooredRemainder_tmod (a : Int) {b : Int} (hb : b ≠ 0) :
    IsFlooredRemainder a b (onSideOf b (Int.tmod a b)) := by
  have size := natAbs_tmod_lt a hb
  have divides : b ∣ a - Int.tmod a b := ⟨Int.tdiv a b, by rw [Int.tmod_def, sub_sub_cancel]⟩
  rcases onSideOf_eq b (Int.tmod a b) with ⟨heq, same⟩ | ⟨heq, hr, other⟩
  · rw [heq]
    exact ⟨divides, by omega, by omega⟩
  · rw [heq]
    refine ⟨?_, by omega, by omega⟩
    rw [← sub_sub]
    exact Int.dvd_sub divides (Int.dvd_refl b)

end Overload

namespace Operator

open Decimal (Fits)

/-- What becomes of the remainder of `a` and `b`: a division by zero is an error at `s`. Otherwise nothing
    overflows on the way, and the result is the remainder with the sign of the divisor. -/
structure GivesRemainder (a b : Int) (s : Span) (result : Outcome Value) : Prop where
  zero : b = 0 → Cause.moduloByZero.kind = .runtime ∧ result = Outcome.failAt .moduloByZero s
  truncated : b ≠ 0 → Fits (Int.tmod a b)
  moved : b ≠ 0 → Fits (Overload.onSideOf b (Int.tmod a b))
  remainder : b ≠ 0 → ∃ r : Int64, result = .ok (.integer r) ∧ IsFlooredRemainder a b r.toInt

/-- The remainder of two integers of 64 bits. -/
theorem apply_modulo (origin : Origin) (a b : Int64) (s : Span) :
    GivesRemainder a.toInt b.toInt s (modulo.apply origin [.integer a, .integer b] s) := by
  have applied : modulo.apply origin [.integer a, .integer b] s =
    (Outcome.ofCause (Overload.integerModulo a.toInt b.toInt)).orAt s := rfl
  have low := Int64.le_toInt b
  have high := Int64.toInt_lt b
  rw [applied, Overload.integerModulo]
  by_cases hb : b.toInt = 0
  · rw [if_pos hb]
    exact ⟨fun _ => ⟨rfl, rfl⟩, absurd hb, absurd hb, absurd hb⟩
  · have size := Overload.natAbs_tmod_lt a.toInt hb
    have floored := Overload.isFlooredRemainder_tmod a.toInt hb
    have fits : Fits (Overload.onSideOf b.toInt (Int.tmod a.toInt b.toInt)) := by
      have := floored.positive
      have := floored.negative
      unfold Fits
      omega
    rw [if_neg hb]
    refine ⟨fun h => absurd h hb, fun _ => ?_, fun _ => fits, fun _ => ⟨_, rfl, ?_⟩⟩
    · unfold Fits
      omega
    · rwa [Int64.toInt_ofInt_of_le fits.1 fits.2]

/-- A negative number has a remainder like a positive one, and the quotient of the least integer and `-1` does not
    fit, but its remainder is zero. -/
theorem apply_modulo_signs :
    (∃ r : Int64, r.toInt = 2 ∧ modulo.apply [] [.integer (-7), .integer 3] default = .ok (.integer r)) ∧
      ∃ r : Int64, r.toInt = 0 ∧ modulo.apply [] [.integer Int64.minValue, .integer (-1)] default = .ok (.integer r) := by
  constructor
  · obtain ⟨r, hr, h⟩ := (apply_modulo [] (-7) 3 default).remainder (by decide)
    obtain ⟨k, hk⟩ := h.divides
    have range := h.positive (by decide)
    have dividend : (-7 : Int64).toInt = -7 := rfl
    have divisor : (3 : Int64).toInt = 3 := rfl
    rw [dividend, divisor] at hk
    exact ⟨r, by omega, hr⟩
  · obtain ⟨r, hr, h⟩ := (apply_modulo [] Int64.minValue (-1) default).remainder (by decide)
    have range := h.negative (by decide)
    have divisor : (-1 : Int64).toInt = -1 := rfl
    exact ⟨r, by omega, hr⟩

end Operator
end RecordStats
