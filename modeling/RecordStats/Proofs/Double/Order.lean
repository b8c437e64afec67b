import Mathlib
import RecordStats.Proofs.Double.Whole

/-! The order of doubles. Every double other than NaN has a place among the rationals and the two infinities, and
    doubles are compared by their places. NaN is neither below nor above anything. -/

namespace RecordStats.Double

open Float.Model Float.Model.UnpackedFloat

/-- The rationals with an infinity below and one above them. -/
abbrev Rank : Type := WithBot (WithTop ℚ)

/-- Where a double stands among the rationals and the infinities. -/
inductive Ranked : UnpackedFloat → Rank → Prop
  | number {u : UnpackedFloat} {q : ℚ} (h : IsNumber u q) : Ranked u ((q : WithTop ℚ) : Rank)
  | low : Ranked (.infinity .negative) ⊥
  | high : Ranked (.infinity .positive) ((⊤ : WithTop ℚ) : Rank)

theorem compare_rank (p q : ℚ) : compare ((p : WithTop ℚ) : Rank) ((q : WithTop ℚ) : Rank) = compare p q := by
  rcases lt_trichotomy p q with h | rfl | h
  · rw [compare_lt_iff_lt.mpr h, compare_lt_iff_lt.mpr (by exact_mod_cast h)]
  · rw [compare_eq_iff_eq.mpr rfl, compare_eq_iff_eq.mpr rfl]
  · rw [compare_gt_iff_gt.mpr h, compare_gt_iff_gt.mpr (by exact_mod_cast h)]

namespace Ranked

variable {u v : UnpackedFloat} {r s : Rank}

/-- Doubles are in the order of their places. -/
theorem compare_eq (hu : Ranked u r) (hv : Ranked v s) : UnpackedFloat.compare u v = some (compare r s) := by
  cases hu with
  | number hp =>
    cases hv with
    | number hq => rw [hp.compare_eq hq, compare_rank]
    | low =>
      rw [compare_gt_iff_gt.mpr (WithBot.bot_lt_coe _)]
      cases hp <;> rfl
    | high =>
      rw [compare_lt_iff_lt.mpr (WithBot.coe_lt_coe.mpr (WithTop.coe_lt_top _))]
      cases hp <;> rfl
  | low =>
    cases hv with
    | number hq =>
      rw [compare_lt_iff_lt.mpr (WithBot.bot_lt_coe _)]
      cases hq <;> rfl
    | low =>
      rw [compare_eq_iff_eq.mpr rfl]
      rfl
    | high =>
      rw [compare_lt_iff_lt.mpr (WithBot.bot_lt_coe _)]
      rfl
  | high =>
    cases hv with
    | number hq =>
      rw [compare_gt_iff_gt.mpr (WithBot.coe_lt_coe.mpr (WithTop.coe_lt_top _))]
      cases hq <;> rfl
    | low =>
      rw [compare_gt_iff_gt.mpr (WithBot.bot_lt_coe _)]
      rfl
    | high =>
      rw [compare_eq_iff_eq.mpr rfl]
      rfl

variable {x y : Float}

theorem lt_iff (hx : Ranked x.toModel.unpack r) (hy : Ranked y.toModel.unpack s) : x < y ↔ r < s := by
  rw [lt_iff_compare, compare_eq hx hy, Option.some.injEq, compare_lt_iff_lt]

theorem le_iff (hx : Ranked x.toModel.unpack r) (hy : Ranked y.toModel.unpack s) : x ≤ y ↔ r ≤ s := by
  rw [le_iff_compare, compare_eq hx hy, Option.any_some, Ordering.isLE_iff_ne_gt, compare_gt_iff_gt, not_lt]

end Ranked

theorem unpack_of_isNaN {x : Float} (h : x.isNaN = true) : x.toModel.unpack = .notANumber := by
  have nan : x.toModel.unpack.isNaN = true := h
  cases hx : x.toModel.unpack with
  | notANumber => rfl
  | _ =>
    rw [hx] at nan
    cases nan

/-- Every double but NaN has a place. -/
theorem exists_ranked {x : Float} (h : ¬ x.isNaN = true) : ∃ r, Ranked x.toModel.unpack r := by
  rcases denotes_or x with ⟨q, hx⟩ | ⟨s, hx⟩ | hx
  · exact ⟨_, .number hx⟩
  · rw [hx]
    cases s with
    | negative => exact ⟨_, .low⟩
    | positive => exact ⟨_, .high⟩
  · have nan : ¬ x.toModel.unpack.isNaN = true := h
    rw [hx] at nan
    exact absurd rfl nan

/-- NaN is not compared to any double. -/
theorem numbers_of_compare {x y : Float} {o : Ordering}
    (h : UnpackedFloat.compare x.toModel.unpack y.toModel.unpack = some o) : ¬ x.isNaN = true ∧ ¬ y.isNaN = true := by
  constructor
  · intro nan
    rw [unpack_of_isNaN nan] at h
    cases h
  · intro nan
    rw [unpack_of_isNaN nan] at h
    cases hx : x.toModel.unpack <;> rw [hx] at h <;> cases h

theorem numbers_of_lt {x y : Float} (h : x < y) : ¬ x.isNaN = true ∧ ¬ y.isNaN = true :=
  numbers_of_compare (lt_iff_compare.mp h)

theorem numbers_of_le {x y : Float} (h : x ≤ y) : ¬ x.isNaN = true ∧ ¬ y.isNaN = true := by
  rw [le_iff_compare] at h
  cases hc : UnpackedFloat.compare x.toModel.unpack y.toModel.unpack with
  | some o => exact numbers_of_compare hc
  | none =>
    rw [hc] at h
    cases h

/-! ### A strict order, total on all but NaN -/

theorem not_lt_self (x : Float) : ¬ x < x := by
  intro h
  obtain ⟨r, hr⟩ := exists_ranked (numbers_of_lt h).1
  exact lt_irrefl r ((hr.lt_iff hr).mp h)

theorem lt_of_lt_of_lt {x y z : Float} (h : x < y) (h' : y < z) : x < z := by
  obtain ⟨r, hr⟩ := exists_ranked (numbers_of_lt h).1
  obtain ⟨s, hs⟩ := exists_ranked (numbers_of_lt h').1
  obtain ⟨t, ht⟩ := exists_ranked (numbers_of_lt h').2
  exact (hr.lt_iff ht).mpr (((hr.lt_iff hs).mp h).trans ((hs.lt_iff ht).mp h'))

/-- A number is above the lower one of two or below the upper one. -/
theorem lt_or_lt_of_lt {x z : Float} (h : x < z) {y : Float} (number : ¬ y.isNaN = true) : x < y ∨ y < z := by
  obtain ⟨r, hr⟩ := exists_ranked (numbers_of_lt h).1
  obtain ⟨s, hs⟩ := exists_ranked number
  obtain ⟨t, ht⟩ := exists_ranked (numbers_of_lt h).2
  rw [hr.lt_iff hs, hs.lt_iff ht]
  exact (lt_or_ge r s).imp_right fun hle => hle.trans_lt ((hr.lt_iff ht).mp h)

end RecordStats.Double
