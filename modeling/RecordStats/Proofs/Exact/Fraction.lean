import Mathlib
import RecordStats.Proofs.Exact.Arithmetic

/-! Intervals of fractions in exact arithmetic. Where the weights add up to a positive number, every interval of a
    proper part has its two bounds. The part alone does not tell: it may be proper when both sums are negative, and then
    there are square roots of negative numbers and divisions by zero. -/

namespace RecordStats

namespace Entries

variable {entries : List (ℚ × Bool)}

/-- The weight of the entries that passed. -/
def passed (entries : List (ℚ × Bool)) : ℚ := total (fun w pass => if pass then w else 0) entries

/-- The part that passed. -/
def part (entries : List (ℚ × Bool)) : ℚ := passed entries / weight entries

end Entries

namespace Fraction

open Entries Exact

variable {root : ℚ → ℚ}

/-- The fraction after fills with these weights, of which some passed. -/
def ofEntries (entries : List (ℚ × Bool)) : Fraction (Exact root) :=
  entries.foldl (fun f e => f.fill e.1 e.2) zero

theorem ofEntries_eq (entries : List (ℚ × Bool)) :
    (ofEntries entries : Fraction (Exact root)) = ⟨passed entries, weight entries⟩ := by
  induction entries using List.reverseRecOn with
  | nil => simp [ofEntries, zero, weight, passed]
  | append_singleton rest e ih =>
    rw [ofEntries, List.foldl_append, List.foldl_cons, List.foldl_nil, ← ofEntries, ih]
    obtain ⟨w, pass⟩ := e
    cases pass <;> simp [fill, weight, passed]

/-- The part is told if it is a proper one. -/
theorem proportion_eq_some_iff {entries : List (ℚ × Bool)} {p : Exact root} :
    (ofEntries entries).proportion = some p ↔
      weight entries ≠ 0 ∧ 0 ≤ part entries ∧ part entries ≤ 1 ∧ p = ↑(part entries) := by
  by_cases h : weight entries = 0
  · simp [ofEntries_eq, proportion, h]
  · simp [ofEntries_eq, proportion, h, number_div, part, and_assoc, eq_comm]

/-! ### Which bounds are numbers -/

/-- Both bounds of the interval are numbers. -/
def Bounded (result : Except Cause (Exact root × Exact root)) : Prop :=
  ∃ low high : ℚ, result = .ok (↑low, ↑high)

/-- An interval around a center is bounded if the center and the half of the width are numbers. -/
theorem bounded_around_iff {center half : Exact root} :
    Bounded (.ok (center - half, center + half)) ↔ center ≠ .undefined ∧ half ≠ .undefined := by
  have numbers : Bounded (.ok (center - half, center + half)) ↔
      center - half ≠ .undefined ∧ center + half ≠ .undefined := by
    simp [Bounded, ne_undefined_iff]
  rw [numbers, sub_ne_undefined, add_ne_undefined, and_self]

section Formulas
variable {p n : ℚ} (hn : n ≠ 0) (z : ℚ)
include hn

theorem normalSquare_number : normalSquare (number p : Exact root) (number n) = number (p * (1 - p) / n) := by
  simp [normalSquare, number_div hn]

theorem wilsonSquare_number : wilsonSquare (number p : Exact root) (number n) (number z) =
    number (p * (1 - p) / n + 1 / 4 * z * z / (n * n)) := by
  simp [wilsonSquare, number_div hn, number_div (mul_ne_zero hn hn), number_div (four_ne_zero : (4 : ℚ) ≠ 0)]

theorem wilsonScale_number : wilsonScale (number n : Exact root) (number z) = number (1 + z * z / n) := by
  simp [wilsonScale, number_div hn]

theorem wilsonCenter_number : wilsonCenter (number p : Exact root) (number n) (number z) =
    number (p + 1 / 2 * z * z / n) / number (1 + z * z / n) := by
  simp [wilsonCenter, wilsonScale_number hn, number_div hn, number_div (two_ne_zero : (2 : ℚ) ≠ 0)]

end Formulas

section Signs
variable {p n : ℚ} (hn : n ≠ 0)
include hn

/-- For a proper part, the variance of the normal interval has the sign of the number of entries. -/
theorem normal_square_nonneg_iff (hp : 0 ≤ p) (hp' : p ≤ 1) : 0 ≤ p * (1 - p) / n ↔ 0 < n ∨ p = 0 ∨ p = 1 := by
  have product : 0 ≤ p * (1 - p) := mul_nonneg hp (sub_nonneg.mpr hp')
  rcases lt_or_gt_of_ne hn with neg | pos
  · have zero_iff : 0 ≤ p * (1 - p) / n ↔ p * (1 - p) = 0 := by
      rw [le_div_iff_of_neg neg, zero_mul]
      exact ⟨fun h => le_antisymm h product, le_of_eq⟩
    rw [zero_iff, or_iff_right neg.not_gt, mul_eq_zero, sub_eq_zero, eq_comm (a := (1 : ℚ))]
  · exact iff_of_true (div_nonneg product pos.le) (.inl pos)

theorem wilson_square_nonneg_iff (z : ℚ) :
    0 ≤ p * (1 - p) / n + 1 / 4 * z * z / (n * n) ↔ -(4 * n * (p * (1 - p))) ≤ z * z := by
  have square : 0 < 4 * (n * n) := mul_pos four_pos (mul_self_pos.mpr hn)
  have scaled : (p * (1 - p) / n + 1 / 4 * z * z / (n * n)) * (4 * (n * n)) = 4 * n * (p * (1 - p)) + z * z := by
    field_simp
  rw [← mul_nonneg_iff_of_pos_right square, scaled, neg_le_iff_add_nonneg']

theorem wilson_scale_ne_zero_iff (z : ℚ) : 1 + z * z / n ≠ 0 ↔ z * z ≠ -n := by
  rw [not_iff_not]
  constructor
  · intro h
    field_simp at h
    linarith
  · intro h
    rw [h]
    field_simp
    ring

end Signs

section Intervals
variable {entries : List (ℚ × Bool)} (z : ℚ)

theorem denomw_ofEntries : (ofEntries entries : Fraction (Exact root)).denomw = number (weight entries) := by
  rw [ofEntries_eq]

theorem interval_of_proportion_eq_none {f : Fraction (Exact root)} (h : f.proportion = none) {e : Estimator}
    (he : e = .normal ∨ e = .wilson) : f.interval e z = .ok (number 0, number 0) := by
  rcases he with rfl | rfl <;> simp [interval, h]

theorem exists_interval_eq_error (f : Fraction (Exact root)) {e : Estimator} (normal : e ≠ .normal)
    (wilson : e ≠ .wilson) : ∃ cause, f.interval e z = .error cause := by
  cases e with
  | normal => exact absurd rfl normal
  | wilson => exact absurd rfl wilson
  | _ => exact ⟨_, rfl⟩

section Proper
variable (proper : (ofEntries entries : Fraction (Exact root)).proportion ≠ none)
include proper

theorem bounded_normal_iff : Bounded ((ofEntries entries : Fraction (Exact root)).interval .normal z) ↔
    0 < weight entries ∨ part entries = 0 ∨ part entries = 1 := by
  obtain ⟨p, hp⟩ := Option.ne_none_iff_exists'.mp proper
  obtain ⟨nonzero, nonneg, le_one, rfl⟩ := proportion_eq_some_iff.mp hp
  rw [interval, hp, denomw_ofEntries]
  simp only [Option.elim_some, normalSquare_number nonzero]
  rw [bounded_around_iff, mul_ne_undefined, root_ne_undefined, normal_square_nonneg_iff nonzero nonneg le_one]
  simp only [ne_eq, reduceCtorEq, not_false_eq_true, true_and]

theorem bounded_wilson_iff : Bounded ((ofEntries entries : Fraction (Exact root)).interval .wilson z) ↔
    z * z ≠ -weight entries ∧ -(4 * weight entries * (part entries * (1 - part entries))) ≤ z * z := by
  obtain ⟨p, hp⟩ := Option.ne_none_iff_exists'.mp proper
  obtain ⟨nonzero, -, -, rfl⟩ := proportion_eq_some_iff.mp hp
  rw [interval, hp, denomw_ofEntries]
  simp only [Option.elim_some, wilsonSquare_number nonzero, wilsonScale_number nonzero, wilsonCenter_number nonzero]
  rw [bounded_around_iff, div_ne_undefined, div_ne_undefined, mul_ne_undefined, root_ne_undefined,
    wilson_square_nonneg_iff nonzero, wilson_scale_ne_zero_iff nonzero]
  simp only [ne_eq, reduceCtorEq, not_false_eq_true, true_and]
  tauto

/-- A positive number of entries gives both intervals their bounds. -/
theorem bounded_of_weight_pos (positive : 0 < weight entries) {e : Estimator} (he : e = .normal ∨ e = .wilson) :
    Bounded ((ofEntries entries : Fraction (Exact root)).interval e z) := by
  obtain ⟨p, hp⟩ := Option.ne_none_iff_exists'.mp proper
  obtain ⟨-, nonneg, le_one, -⟩ := proportion_eq_some_iff.mp hp
  have product : 0 ≤ part entries * (1 - part entries) := mul_nonneg nonneg (sub_nonneg.mpr le_one)
  have square : 0 ≤ z * z := mul_self_nonneg z
  rcases he with rfl | rfl
  · exact (bounded_normal_iff z proper).mpr (.inl positive)
  · refine (bounded_wilson_iff z proper).mpr ⟨((neg_neg_of_pos positive).trans_le square).ne', ?_⟩
    exact (neg_nonpos.mpr (mul_nonneg (by positivity) product)).trans square

end Proper

/-- What the intervals of a fraction of these entries come to. Where the part that passed is not a proper one, both
    bounds are zero. Otherwise they are numbers if the entries have a positive weight, and only by chance if they have a
    negative one. There are no intervals of other kinds. -/
structure Intervals (entries : List (ℚ × Bool)) (z : ℚ) (f : Fraction (Exact root)) : Prop where
  proportion : ∀ p, f.proportion = some p ↔
    weight entries ≠ 0 ∧ 0 ≤ part entries ∧ part entries ≤ 1 ∧ p = ↑(part entries)
  indeterminate : f.proportion = none → ∀ e, e = .normal ∨ e = .wilson → f.interval e z = .ok (number 0, number 0)
  positive : f.proportion ≠ none → 0 < weight entries → ∀ e, e = .normal ∨ e = .wilson → Bounded (f.interval e z)
  normal : f.proportion ≠ none →
    (Bounded (f.interval .normal z) ↔ 0 < weight entries ∨ part entries = 0 ∨ part entries = 1)
  wilson : f.proportion ≠ none → (Bounded (f.interval .wilson z) ↔
    z * z ≠ -weight entries ∧ -(4 * weight entries * (part entries * (1 - part entries))) ≤ z * z)
  others : ∀ e, e ≠ .normal → e ≠ .wilson → ∃ cause, f.interval e z = .error cause

/-- Fractions of any entries, also of entries whose weight is negative. -/
theorem ofEntries_intervals (entries : List (ℚ × Bool)) (z : ℚ) :
    Intervals entries z (ofEntries entries : Fraction (Exact root)) where
  proportion _ := proportion_eq_some_iff
  indeterminate h _ he := interval_of_proportion_eq_none z h he
  positive proper pos _ he := bounded_of_weight_pos z proper pos he
  normal proper := bounded_normal_iff z proper
  wilson proper := bounded_wilson_iff z proper
  others _ h h' := exists_interval_eq_error z _ h h'

/-- One of four entries of weight one: both intervals at two deviations have their bounds. -/
theorem ofEntries_intervals_quarter :
    let f : Fraction (Exact id) := ofEntries [(1, true), (1, false), (1, false), (1, false)]
    f.proportion = some (number (1 / 4)) ∧ Bounded (f.interval .normal (number 2)) ∧
      Bounded (f.interval .wilson (number 2)) := by
  intro f
  have intervals : Intervals [(1, true), (1, false), (1, false), (1, false)] 2 f := ofEntries_intervals _ _
  have quarter : f.proportion = some (number (1 / 4)) :=
    (intervals.proportion _).mpr (by norm_num [weight, part, passed])
  have positive := intervals.positive (by rw [quarter]; exact nofun) (by norm_num [weight])
  exact ⟨quarter, positive .normal (.inl rfl), positive .wilson (.inr rfl)⟩

/-- A proper part does not give the interval its bounds: of weights -1 and -3 the first has passed, and the part is a
    quarter, but the variance is negative. -/
theorem not_bounded_of_negative_weights :
    ¬ ∀ (entries : List (ℚ × Bool)) (z : ℚ) (e : Estimator), e = .normal ∨ e = .wilson →
      (ofEntries entries : Fraction (Exact id)).proportion ≠ none →
        Bounded ((ofEntries entries : Fraction (Exact id)).interval e z) := by
  intro bounded
  have quarter : (ofEntries [(-1, true), (-3, false)] : Fraction (Exact id)).proportion = some (number (1 / 4)) :=
    proportion_eq_some_iff.mpr (by norm_num [weight, part, passed])
  have proper : (ofEntries [(-1, true), (-3, false)] : Fraction (Exact id)).proportion ≠ none := by
    rw [quarter]
    exact nofun
  have normal := (bounded_normal_iff 0 proper).mp (bounded _ 0 .normal (.inl rfl) proper)
  norm_num [weight, part, passed] at normal

end Intervals

end Fraction

end RecordStats
