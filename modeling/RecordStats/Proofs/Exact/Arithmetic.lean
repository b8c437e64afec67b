import Mathlib
import RecordStats.Proofs.Tree.Routing

/-! Exact arithmetic: nothing is rounded, and an operation without a result is told. Bins and statistics are computed
    with these scalars as with doubles, so what is proved of them here is proved of the formulas, apart from rounding. -/

namespace RecordStats

/-- A rational number, or the mark of a division by zero or of a square root of a negative number. The square root of
    a rational need not be rational: `root` is what stands for it, and it may be any function. -/
inductive Exact (root : ℚ → ℚ) where
  | number (q : ℚ)
  | undefined
deriving DecidableEq

namespace Exact

variable {root : ℚ → ℚ}

instance : Coe ℚ (Exact root) := ⟨number⟩

/-- An operation on rationals. It has no result where an operand has none. -/
def map₂ (f : ℚ → ℚ → ℚ) : Exact root → Exact root → Exact root
  | number p, number q => number (f p q)
  | _, _ => undefined

def divide : Exact root → Exact root → Exact root
  | number p, number q => if q = 0 then undefined else number (p / q)
  | _, _ => undefined

def squareRoot : Exact root → Exact root
  | number q => if q < 0 then undefined else number (root q)
  | undefined => undefined

def wholePart : Exact root → Nat
  | number q => ⌊q⌋₊
  | undefined => 0

/-- A comparison of rationals. What is undefined compares like NaN, to nothing. -/
def Compares (r : ℚ → ℚ → Prop) : Exact root → Exact root → Prop
  | number p, number q => r p q
  | _, _ => False

instance (r : ℚ → ℚ → Prop) [DecidableRel r] : DecidableRel (Compares r : Exact root → Exact root → Prop)
  | number p, number q => inferInstanceAs (Decidable (r p q))
  | number _, undefined => inferInstanceAs (Decidable False)
  | undefined, _ => inferInstanceAs (Decidable False)

instance : Scalar (Exact root) where
  add := map₂ (· + ·)
  sub := map₂ (· - ·)
  mul := map₂ (· * ·)
  div := divide
  lt := Compares (· < ·)
  le := Compares (· ≤ ·)
  beq x y := decide (Compares (· = ·) x y)
  ofNat n := number n
  whole := wholePart
  root := squareRoot
  decidableLT := inferInstanceAs (DecidableRel (Compares (· < ·)))
  decidableLE := inferInstanceAs (DecidableRel (Compares (· ≤ ·)))

/-! ### Operations on numbers -/

section Numbers
variable (p q : ℚ)

@[simp] theorem number_add : (number p : Exact root) + number q = number (p + q) := rfl

@[simp] theorem number_sub : (number p : Exact root) - number q = number (p - q) := rfl

@[simp] theorem number_mul : (number p : Exact root) * number q = number (p * q) := rfl

@[simp] theorem ofNat_eq (n : Nat) : (Scalar.ofNat n : Exact root) = number n := rfl

@[simp] theorem whole_number : Scalar.whole (number q : Exact root) = ⌊q⌋₊ := rfl

@[simp] theorem number_lt : (number p : Exact root) < number q ↔ p < q := Iff.rfl

@[simp] theorem number_le : (number p : Exact root) ≤ number q ↔ p ≤ q := Iff.rfl

@[simp] theorem number_beq : ((number p : Exact root) == number q) = decide (p = q) := rfl

variable {p q}

theorem number_div (h : q ≠ 0) : (number p : Exact root) / number q = number (p / q) := if_neg h

theorem number_div_zero : (number p : Exact root) / number 0 = undefined := by
  show divide (number p) (number 0) = undefined
  rw [divide, if_pos rfl]

theorem root_of_nonneg (h : 0 ≤ q) : Scalar.root (number q : Exact root) = number (root q) := if_neg h.not_gt

theorem root_of_neg (h : q < 0) : Scalar.root (number q : Exact root) = undefined := if_pos h

end Numbers

/-! ### Which results are defined

What is computed from an undefined number is undefined, so a result is a number only if no division by zero and no
square root of a negative number led to it. -/

section Defined
variable {x y : Exact root} {q : ℚ}

theorem ne_undefined_iff : x ≠ undefined ↔ ∃ q : ℚ, x = q := by
  cases x <;> simp

theorem map₂_ne_undefined {f : ℚ → ℚ → ℚ} : map₂ f x y ≠ undefined ↔ x ≠ undefined ∧ y ≠ undefined := by
  cases x <;> cases y <;> simp [map₂]

theorem add_ne_undefined : x + y ≠ undefined ↔ x ≠ undefined ∧ y ≠ undefined := map₂_ne_undefined

theorem sub_ne_undefined : x - y ≠ undefined ↔ x ≠ undefined ∧ y ≠ undefined := map₂_ne_undefined

theorem mul_ne_undefined : x * y ≠ undefined ↔ x ≠ undefined ∧ y ≠ undefined := map₂_ne_undefined

theorem div_ne_undefined : x / number q ≠ undefined ↔ x ≠ undefined ∧ q ≠ 0 := by
  cases x with
  | undefined => exact iff_of_false (fun h => h rfl) (fun h => h.1 rfl)
  | number p =>
    by_cases h : q = 0
    · rw [h, number_div_zero]
      simp
    · rw [number_div h]
      simp [h]

theorem root_ne_undefined : Scalar.root (number q : Exact root) ≠ undefined ↔ 0 ≤ q := by
  rcases le_or_gt 0 q with h | h
  · simp [root_of_nonneg h, h]
  · simp [root_of_neg h, h]

end Defined

/-! ### Order -/

theorem compares_iff {r : ℚ → ℚ → Prop} {x y : Exact root} :
    Compares r x y ↔ ∃ p q, x = number p ∧ y = number q ∧ r p q := by
  cases x <;> cases y <;> simp [Compares]

/-- Numbers are in the order of the rationals. -/
theorem ordered : Scalar.Ordered fun x : Exact root => x = undefined where
  numbers_of_lt := by
    intro x y h
    obtain ⟨p, q, rfl, rfl, -⟩ := compares_iff.mp h
    exact ⟨nofun, nofun⟩
  lt_trans := by
    intro x y z hxy hyz
    obtain ⟨p, q, rfl, rfl, hpq⟩ := compares_iff.mp hxy
    obtain ⟨_, r, heq, rfl, hqr⟩ := compares_iff.mp hyz
    cases heq
    exact compares_iff.mpr ⟨p, r, rfl, rfl, hpq.trans hqr⟩
  le_iff := by
    intro x y
    cases x with
    | undefined => exact iff_of_false id fun h => h.1 rfl
    | number p =>
      cases y with
      | undefined => exact iff_of_false id fun h => h.2.1 rfl
      | number q => simp

end Exact

end RecordStats

/-! ### Sums over the entries of a statistic -/

namespace RecordStats.Entries

variable {β : Type}

/-- The sum of what each entry adds. An entry is a weight and what was measured. -/
def total (f : ℚ → β → ℚ) (entries : List (ℚ × β)) : ℚ :=
  (entries.map fun e => f e.1 e.2).sum

def weight (entries : List (ℚ × β)) : ℚ := total (fun w _ => w) entries

variable {f : ℚ → β → ℚ} {entries others : List (ℚ × β)}

@[simp] theorem total_nil : total f [] = 0 := rfl

@[simp] theorem total_cons (e : ℚ × β) : total f (e :: entries) = f e.1 e.2 + total f entries := by
  rw [total, List.map_cons, List.sum_cons, total]

@[simp] theorem total_append : total f (entries ++ others) = total f entries + total f others := by
  rw [total, List.map_append, List.sum_append, total, total]

/-- The order of the entries does not matter. -/
theorem total_perm (h : entries.Perm others) : total f entries = total f others :=
  (h.map _).sum_eq

theorem total_nonneg (h : ∀ e ∈ entries, 0 ≤ f e.1 e.2) : 0 ≤ total f entries :=
  List.sum_nonneg (List.forall_mem_map.mpr h)

/-- A sum of what is not negative is zero only if everything is. -/
theorem total_eq_zero_iff (h : ∀ e ∈ entries, 0 ≤ f e.1 e.2) :
    total f entries = 0 ↔ ∀ e ∈ entries, f e.1 e.2 = 0 := by
  constructor
  · intro zero e he
    exact List.all_zero_of_le_zero_le_of_sum_eq_zero (List.forall_mem_map.mpr h) zero (List.mem_map_of_mem he)
  · intro zero
    exact List.sum_eq_zero (List.forall_mem_map.mpr zero)

end RecordStats.Entries
