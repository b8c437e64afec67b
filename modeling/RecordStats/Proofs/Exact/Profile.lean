import Mathlib
import RecordStats.Proofs.Exact.Arithmetic

/-! Profiles in exact arithmetic. The four totals are sums over the entries, so the order of the fills does not matter,
    and the difference of moments in the variance is the average square of the distance from the mean. -/

namespace RecordStats

namespace Entries

variable {entries : List (ℚ × ℚ)}

/-- The average of a function of the samples, each with its weight. -/
def average (g : ℚ → ℚ) (entries : List (ℚ × ℚ)) : ℚ :=
  total (fun w x => w * g x) entries / weight entries

def mean (entries : List (ℚ × ℚ)) : ℚ := average (fun x => x) entries

/-- The average square of the distance from the mean. -/
def spread (entries : List (ℚ × ℚ)) : ℚ := average (fun x => (x - mean entries) ^ 2) entries

/-- All entries that have a weight are of the same sample. -/
def Uniform (entries : List (ℚ × ℚ)) : Prop :=
  ∀ e ∈ entries, ∀ e' ∈ entries, e.1 ≠ 0 → e'.1 ≠ 0 → e.2 = e'.2

theorem total_sq_sub (c : ℚ) (entries : List (ℚ × ℚ)) : total (fun w x => w * (x - c) ^ 2) entries =
    total (fun w x => w * x * x) entries - 2 * c * total (fun w x => w * x) entries + c * c * weight entries := by
  unfold weight
  induction entries with
  | nil => simp
  | cons e rest ih =>
    simp only [total_cons, ih]
    ring

/-- The spread is the difference of the average square and the square of the average. -/
theorem spread_eq (h : weight entries ≠ 0) :
    spread entries = total (fun w x => w * x * x) entries / weight entries - mean entries * mean entries := by
  have moment : total (fun w x => w * x) entries = mean entries * weight entries := by
    rw [mean, average, div_mul_cancel₀ _ h]
  rw [spread, average, total_sq_sub, moment]
  field_simp
  ring

/-- Where weights are not all zero, their squares do not add up to zero. -/
theorem total_sq_ne_zero (h : weight entries ≠ 0) : total (fun w _ => w * w) entries ≠ 0 := by
  intro zero
  have none_weighs := (total_eq_zero_iff fun e _ => mul_self_nonneg e.1).mp zero
  refine h (List.sum_eq_zero (List.forall_mem_map.mpr fun e he => ?_))
  exact mul_self_eq_zero.mp (none_weighs e he)

/-- The square of the uncertainty of the mean, which is at so many deviations from it: the spread over the effective
    number of entries. -/
def variance (entries : List (ℚ × ℚ)) (sigmas : ℚ) : ℚ :=
  if weight entries = 0 then 0
  else sigmas ^ 2 * spread entries / (weight entries ^ 2 / total (fun w _ => w * w) entries)

section Nonneg
variable (nonneg : ∀ e ∈ entries, 0 ≤ e.1)
include nonneg

theorem weighted_sq_nonneg (c : ℚ) : ∀ e ∈ entries, 0 ≤ e.1 * (e.2 - c) ^ 2 :=
  fun e he => mul_nonneg (nonneg e he) (sq_nonneg _)

theorem weight_nonneg : 0 ≤ weight entries := total_nonneg nonneg

theorem spread_nonneg : 0 ≤ spread entries :=
  div_nonneg (total_nonneg (weighted_sq_nonneg nonneg _)) (weight_nonneg nonneg)

/-- There is no spread exactly if all samples with a weight are the mean. -/
theorem spread_eq_zero_iff (h : weight entries ≠ 0) :
    spread entries = 0 ↔ ∀ e ∈ entries, e.1 ≠ 0 → e.2 = mean entries := by
  have terms : total (fun w x => w * (x - mean entries) ^ 2) entries = 0 ↔
      ∀ e ∈ entries, e.1 * (e.2 - mean entries) ^ 2 = 0 :=
    total_eq_zero_iff (weighted_sq_nonneg nonneg _)
  rw [spread, average, div_eq_zero_iff, or_iff_left h, terms]
  refine forall₂_congr fun e _ => ?_
  rw [mul_eq_zero, sq_eq_zero_iff, sub_eq_zero, or_iff_not_imp_left]

omit nonneg in
/-- If all samples with a weight are the same, they are the mean. -/
theorem Uniform.eq_mean (uniform : Uniform entries) (h : weight entries ≠ 0) :
    ∀ e ∈ entries, e.1 ≠ 0 → e.2 = mean entries := by
  intro e he weighs
  have moment : total (fun w x => w * x) entries = e.2 * weight entries := by
    unfold total weight total
    rw [← List.sum_map_mul_left]
    refine congrArg List.sum (List.map_congr_left fun e' he' => ?_)
    show e'.1 * e'.2 = e.2 * e'.1
    by_cases weighs' : e'.1 = 0
    · rw [weighs', zero_mul, mul_zero]
    · rw [uniform e' he' e he weighs' weighs, mul_comm]
  rw [mean, average, moment, mul_div_cancel_right₀ _ h]

theorem spread_eq_zero_iff_uniform (h : weight entries ≠ 0) : spread entries = 0 ↔ Uniform entries := by
  rw [spread_eq_zero_iff nonneg h]
  constructor
  · intro same e he e' he' weighs weighs'
    rw [same e he weighs, same e' he' weighs']
  · intro uniform
    exact uniform.eq_mean h

/-- Entries without weight are of no sample at all. -/
theorem uniform_of_weight_eq_zero (h : weight entries = 0) : Uniform entries := by
  have none_weighs := (total_eq_zero_iff nonneg).mp h
  exact fun e he _ _ weighs _ => absurd (none_weighs e he) weighs

theorem variance_nonneg (sigmas : ℚ) : 0 ≤ variance entries sigmas := by
  unfold variance
  split
  · exact le_rfl
  · have count : 0 ≤ weight entries ^ 2 / total (fun w _ => w * w) entries :=
      div_nonneg (sq_nonneg _) (total_nonneg fun e _ => mul_self_nonneg e.1)
    exact div_nonneg (mul_nonneg (sq_nonneg _) (spread_nonneg nonneg)) count

theorem variance_eq_zero_iff {sigmas : ℚ} (hs : sigmas ≠ 0) : variance entries sigmas = 0 ↔ Uniform entries := by
  unfold variance
  split
  · next h => exact iff_of_true rfl (uniform_of_weight_eq_zero nonneg h)
  · next h =>
    have count : weight entries ^ 2 / total (fun w _ => w * w) entries ≠ 0 :=
      div_ne_zero (pow_ne_zero 2 h) (total_sq_ne_zero h)
    rw [div_eq_zero_iff, or_iff_left count, mul_eq_zero, or_iff_right (pow_ne_zero 2 hs),
      spread_eq_zero_iff_uniform nonneg h]

end Nonneg

end Entries

namespace Profile

open Entries Exact

variable {root : ℚ → ℚ}

/-- The profile after fills with these weights and samples. -/
def ofEntries (entries : List (ℚ × ℚ)) : Profile (Exact root) :=
  entries.foldl (fun p e => p.fill e.1 e.2) zero

/-- Every fill adds to the four totals. -/
theorem ofEntries_eq (entries : List (ℚ × ℚ)) : (ofEntries entries : Profile (Exact root)) =
    ⟨weight entries, total (fun w _ => w * w) entries, total (fun w x => w * x) entries,
      total (fun w x => w * x * x) entries⟩ := by
  induction entries using List.reverseRecOn with
  | nil => simp [ofEntries, zero, weight]
  | append_singleton rest e ih =>
    rw [ofEntries, List.foldl_append, List.foldl_cons, List.foldl_nil, ← ofEntries, ih]
    simp [fill, weight]

theorem mean_ofEntries (entries : List (ℚ × ℚ)) (indeterminate : Exact root) :
    (ofEntries entries).mean indeterminate = if weight entries = 0 then indeterminate else ↑(Entries.mean entries) := by
  rw [ofEntries_eq, Profile.mean]
  simp only [ofNat_eq, Nat.cast_zero, number_beq, decide_eq_true_eq]
  split
  · rfl
  · next h => rw [number_div h]; rfl

/-- The two guards let no division by zero through. -/
theorem variance_ofEntries (entries : List (ℚ × ℚ)) (sigmas : ℚ) :
    (ofEntries entries : Profile (Exact root)).variance .normal sigmas = .ok ↑(Entries.variance entries sigmas) := by
  have mean (d : Exact root) := mean_ofEntries entries d
  rw [ofEntries_eq] at mean ⊢
  by_cases h : weight entries = 0
  · simp [Profile.variance, Entries.variance, h]
  · have squares := total_sq_ne_zero h
    have count : weight entries * weight entries / total (fun w _ => w * w) entries ≠ 0 :=
      div_ne_zero (mul_ne_zero h h) squares
    rw [Entries.variance, if_neg h, spread_eq h, sq, sq]
    simp only [Profile.variance, mean, ofNat_eq, Nat.cast_zero, number_beq, h, squares, decide_false,
      Bool.or_self, Bool.false_eq_true, if_false, number_mul, number_sub, number_div h, number_div squares,
      number_div count]

/-- What a profile tells of its entries: the totals are sums, the value is the average sample, and the variance of it is
    the average square of the distance from it over the effective number of entries. -/
structure Summarizes (entries : List (ℚ × ℚ)) (p : Profile (Exact root)) : Prop where
  sumw : p.sumw = ↑(weight entries)
  sumw2 : p.sumw2 = ↑(total (fun w _ => w * w) entries)
  sumwx : p.sumwx = ↑(total (fun w x => w * x) entries)
  sumwx2 : p.sumwx2 = ↑(total (fun w x => w * x * x) entries)
  order : ∀ others, entries.Perm others → ofEntries others = p
  indeterminate : weight entries = 0 → ∀ d, p.mean d = d
  mean : weight entries ≠ 0 → ∀ d, p.mean d = ↑(Entries.mean entries)
  variance : ∀ sigmas : ℚ, ∃ v : ℚ, p.variance .normal sigmas = .ok ↑v ∧ 0 ≤ v ∧
    (p.variance .normal sigmas).map Scalar.root = .ok ↑(root v) ∧
    (weight entries ≠ 0 →
      v = sigmas ^ 2 * spread entries / (weight entries ^ 2 / total (fun w _ => w * w) entries)) ∧
    (sigmas ≠ 0 → (v = 0 ↔ Uniform entries))

/-- Profiles of entries whose weights are not negative. -/
theorem ofEntries_summarizes {entries : List (ℚ × ℚ)} (nonneg : ∀ e ∈ entries, 0 ≤ e.1) :
    Summarizes entries (ofEntries entries : Profile (Exact root)) where
  sumw := by rw [ofEntries_eq]
  sumw2 := by rw [ofEntries_eq]
  sumwx := by rw [ofEntries_eq]
  sumwx2 := by rw [ofEntries_eq]
  order := by
    intro others h
    simp only [ofEntries_eq, weight, total_perm h]
  indeterminate := by
    intro h d
    rw [mean_ofEntries, if_pos h]
  mean := by
    intro h d
    rw [mean_ofEntries, if_neg h]
  variance := by
    intro sigmas
    have nonneg_variance := variance_nonneg nonneg sigmas
    refine ⟨_, variance_ofEntries entries sigmas, nonneg_variance, ?_, fun h => if_neg h,
      fun hs => variance_eq_zero_iff nonneg hs⟩
    rw [variance_ofEntries, Except.map, root_of_nonneg nonneg_variance]

/-- Two samples with a weight are apart, so there is an uncertainty. -/
theorem ofEntries_summarizes_apart :
    (∀ e ∈ [((1 : ℚ), (1 : ℚ)), (0, 7), (2, 3)], 0 ≤ e.1) ∧
      ∃ v : ℚ, (ofEntries [(1, 1), (0, 7), (2, 3)] : Profile (Exact id)).variance .normal (number 1) = .ok ↑v ∧
        0 < v := by
  have nonneg : ∀ e ∈ [((1 : ℚ), (1 : ℚ)), (0, 7), (2, 3)], 0 ≤ e.1 := by decide
  obtain ⟨v, hv, nonneg_variance, -, -, zero_iff⟩ := (ofEntries_summarizes nonneg).variance 1
  refine ⟨nonneg, v, hv, nonneg_variance.lt_of_ne fun zero => ?_⟩
  have same := (zero_iff one_ne_zero).mp zero.symm (1, 1) (by simp) (2, 3) (by simp) (by simp) (by simp)
  norm_num at same

end Profile

end RecordStats
