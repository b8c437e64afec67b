import Mathlib
import RecordStats.Double.Parts

/-! Rounding to the numbers that doubles can be. A rational number is rounded to a multiple of a power of two, its
    grid, so that 53 bits are left, or fewer next to zero; a half goes to the even multiple. Rounding is monotone and
    leaves alone what is such a number, so a number on one side of one stays on that side. -/

namespace RecordStats.Double

/-! ### Whole numbers -/

/-- The whole number is nearest to the rational one, and even if the next one is as near. -/
structure IsHalfEven (q : ℚ) (z : Int) : Prop where
  near : |q - z| ≤ 1 / 2
  even : |q - z| = 1 / 2 → Even z

namespace IsHalfEven

variable {p q : ℚ} {y z : Int}

theorem mono (hy : IsHalfEven p y) (hz : IsHalfEven q z) (h : p ≤ q) : y ≤ z := by
  by_contra hlt
  have above : (z : ℚ) + 1 ≤ y := by exact_mod_cast Int.lt_iff_add_one_le.mp (not_le.mp hlt)
  have hp := abs_le.mp hy.near
  have hq := abs_le.mp hz.near
  -- both stand halfway between two whole numbers that follow one another
  have tie : p = q := by linarith
  have next : y = z + 1 := by
    have : (y : ℚ) = z + 1 := by linarith
    exact_mod_cast this
  have hy' := hy.even (by rw [next]; push_cast; rw [abs_of_nonpos (by linarith)]; linarith)
  have hz' := hz.even (by rw [abs_of_nonneg (by linarith)]; linarith)
  rw [next] at hy'
  exact (Int.even_add_one.mp hy') hz'

theorem unique (hy : IsHalfEven q y) (hz : IsHalfEven q z) : y = z :=
  le_antisymm (hy.mono hz le_rfl) (hz.mono hy le_rfl)

theorem neg (hz : IsHalfEven q z) : IsHalfEven (-q) (-z) := by
  have turned : |(-q) - ((-z : Int) : ℚ)| = |q - z| := by
    rw [abs_sub_comm q, Int.cast_neg]
    congr 1
    ring
  exact ⟨turned ▸ hz.near, fun h => (hz.even (turned ▸ h)).neg⟩

theorem intCast (z : Int) : IsHalfEven z z where
  near := by rw [sub_self, abs_zero]; norm_num
  even h := by
    rw [sub_self, abs_zero] at h
    norm_num at h

end IsHalfEven

/-- A quotient of naturals is rounded to the nearest whole number. -/
theorem isHalfEven_quotEven (num : Nat) {den : Nat} (hden : 0 < den) :
    IsHalfEven (num / den) (quotEven num den : Nat) := by
  have hpos : (0 : ℚ) < den := by exact_mod_cast hden
  obtain ⟨a, ha⟩ : ∃ a, num / den = a := ⟨_, rfl⟩
  obtain ⟨r, hr⟩ : ∃ r, num % den = r := ⟨_, rfl⟩
  have hlt : r < den := hr ▸ Nat.mod_lt num hden
  have parts : (num : ℚ) / den = a + r / den := by
    have whole : num = den * a + r := by rw [← ha, ← hr, Nat.div_add_mod]
    rw [whole]
    push_cast
    field_simp
  have half : (r : ℚ) / den = 1 / 2 ↔ 2 * r = den := by
    rw [div_eq_div_iff hpos.ne' two_ne_zero, one_mul, mul_comm]
    exact_mod_cast Iff.rfl
  -- The quotient goes up where the remainder is more than half of the divisor, or half of it at an odd quotient.
  rw [parts, quotEven, ha, hr]
  split
  · next up =>
    have distance : (a : ℚ) + r / den - ((a + 1 : Nat) : ℚ) = -(1 - r / den) := by
      push_cast
      ring
    have hle : (r : ℚ) / den ≤ 1 := (div_le_one hpos).mpr (by exact_mod_cast hlt.le)
    have hge : 1 / 2 ≤ (r : ℚ) / den := by
      rw [div_le_div_iff₀ two_pos hpos]
      exact_mod_cast (by omega : 1 * den ≤ r * 2)
    constructor
    · rw [Int.cast_natCast, distance, abs_neg, abs_of_nonneg (by linarith)]
      linarith
    · intro tie
      rw [Int.cast_natCast, distance, abs_neg, abs_of_nonneg (by linarith)] at tie
      have := half.mp (by linarith)
      exact_mod_cast Nat.even_add_one.mpr (by rw [Nat.not_even_iff]; omega)
  · next down =>
    have hge : 0 ≤ (r : ℚ) / den := by positivity
    have hle : (r : ℚ) / den ≤ 1 / 2 := by
      rw [div_le_div_iff₀ hpos two_pos]
      exact_mod_cast (by omega : r * 2 ≤ 1 * den)
    constructor
    · rw [Int.cast_natCast, add_sub_cancel_left, abs_of_nonneg hge]
      exact hle
    · intro tie
      rw [Int.cast_natCast, add_sub_cancel_left, abs_of_nonneg hge] at tie
      have := half.mp tie
      exact_mod_cast Nat.even_iff.mpr (by omega)

/-- A rational number rounded to a whole one, a half going to the even neighbour. -/
def halfEven (q : ℚ) : Int :=
  q.num.sign * quotEven q.num.natAbs q.den

theorem isHalfEven (q : ℚ) : IsHalfEven q (halfEven q) := by
  have size := isHalfEven_quotEven q.num.natAbs q.den_pos
  rw [Nat.cast_natAbs] at size
  unfold halfEven
  rcases lt_trichotomy q.num 0 with h | h | h
  · rw [abs_of_neg h, Int.cast_neg, neg_div, Rat.num_div_den] at size
    rw [Int.sign_eq_neg_one_of_neg h, neg_one_mul]
    simpa using size.neg
  · rw [h, Int.sign_zero, zero_mul, Rat.num_eq_zero.mp h]
    exact .intCast 0
  · rw [abs_of_pos h, Rat.num_div_den] at size
    rw [Int.sign_eq_one_of_pos h, one_mul]
    exact size

theorem halfEven_eq {q : ℚ} {z : Int} (h : IsHalfEven q z) : halfEven q = z :=
  (isHalfEven q).unique h

@[simp] theorem halfEven_intCast (z : Int) : halfEven z = z := halfEven_eq (.intCast z)

theorem halfEven_natCast_div (num : Nat) {den : Nat} (hden : 0 < den) : halfEven (num / den) = quotEven num den :=
  halfEven_eq (isHalfEven_quotEven num hden)

theorem halfEven_neg (q : ℚ) : halfEven (-q) = -halfEven q := halfEven_eq (isHalfEven q).neg

theorem halfEven_mono {p q : ℚ} (h : p ≤ q) : halfEven p ≤ halfEven q := (isHalfEven p).mono (isHalfEven q) h

/-! ### The grid -/

/-- The exponent of the numbers that a double near the given one can be: they are its multiples of two to this. -/
def grid (q : ℚ) : Int :=
  max (Int.log 2 |q| - 52) (-1074)

/-- The double nearest to a rational number, as a number, if there were no largest double. -/
def rounded (q : ℚ) : ℚ :=
  halfEven (q / 2 ^ grid q) * 2 ^ grid q

theorem two_pow_pos (e : Int) : (0 : ℚ) < 2 ^ e := zpow_pos two_pos e

@[simp] theorem grid_neg (q : ℚ) : grid (-q) = grid q := by rw [grid, abs_neg, grid]

@[simp] theorem rounded_neg (q : ℚ) : rounded (-q) = -rounded q := by
  rw [rounded, grid_neg, neg_div, halfEven_neg, Int.cast_neg, neg_mul, rounded]

/-- A multiple of a coarser grid is one of the grid. -/
theorem mul_two_pow (z : Int) {g e : Int} (h : g ≤ e) : (z : ℚ) * 2 ^ e / 2 ^ g = (z * 2 ^ (e - g).toNat : Int) := by
  have split : (2 : ℚ) ^ e = 2 ^ (e - g).toNat * 2 ^ g := by
    rw [← zpow_natCast, Int.toNat_of_nonneg (by omega), ← zpow_add₀ two_ne_zero, Int.sub_add_cancel]
  rw [split, ← mul_assoc, mul_div_cancel_right₀ _ (two_pow_pos g).ne']
  push_cast
  rfl

/-- A number that is below a multiple of its grid is not rounded past it. -/
theorem rounded_le {q : ℚ} {z e : Int} (h : q ≤ z * 2 ^ e) (he : grid q ≤ e) : rounded q ≤ z * 2 ^ e := by
  have below : q / 2 ^ grid q ≤ (z * 2 ^ (e - grid q).toNat : Int) := by
    rw [← mul_two_pow z he]
    exact div_le_div_of_nonneg_right h (two_pow_pos _).le
  calc rounded q ≤ (z * 2 ^ (e - grid q).toNat : Int) * 2 ^ grid q := by
        refine mul_le_mul_of_nonneg_right ?_ (two_pow_pos _).le
        exact_mod_cast (halfEven_mono below).trans_eq (halfEven_intCast _)
    _ = z * 2 ^ e := by rw [← mul_two_pow z he, div_mul_cancel₀ _ (two_pow_pos _).ne']

theorem le_rounded {q : ℚ} {z e : Int} (h : z * 2 ^ e ≤ q) (he : grid q ≤ e) : z * 2 ^ e ≤ rounded q := by
  have turned : -q ≤ ((-z : Int) : ℚ) * 2 ^ e := by
    push_cast
    linarith
  have := rounded_le turned (by rwa [grid_neg])
  push_cast at this
  rw [rounded_neg] at this
  linarith

/-- A multiple of the grid is left alone. -/
theorem rounded_of_grid_le (z : Int) {e : Int} (he : grid (z * 2 ^ e) ≤ e) : rounded (z * 2 ^ e) = z * 2 ^ e :=
  le_antisymm (rounded_le le_rfl he) (le_rounded le_rfl he)

theorem grid_le_of_abs_lt {q : ℚ} {e : Int} (hq : q ≠ 0) (h : |q| < 2 ^ (e + 53)) (he : -1074 ≤ e) : grid q ≤ e := by
  have := (Int.lt_zpow_iff_log_lt one_lt_two (abs_pos.mpr hq)).mp h
  unfold grid
  omega

@[simp] theorem rounded_zero : rounded 0 = 0 := by
  rw [rounded, zero_div, ← Int.cast_zero, halfEven_intCast, Int.cast_zero, zero_mul]

theorem rounded_eq_of_lt {q : ℚ} {z e : Int} (hq : q = z * 2 ^ e) (hz : z.natAbs < 2 ^ 53) (he : -1074 ≤ e) :
    rounded q = q := by
  rcases eq_or_ne q 0 with rfl | hne
  · exact rounded_zero
  have hgrid : grid q ≤ e := by
    refine grid_le_of_abs_lt hne ?_ he
    have hz' : (z.natAbs : ℚ) < 2 ^ 53 := by exact_mod_cast hz
    rw [Nat.cast_natAbs, Int.cast_abs] at hz'
    rw [hq, abs_mul, abs_of_pos (two_pow_pos e), add_comm, zpow_add₀ two_ne_zero]
    exact mul_lt_mul_of_pos_right hz' (two_pow_pos e)
  rw [hq] at hgrid ⊢
  exact rounded_of_grid_le z hgrid

/-- What a double can be is left alone. -/
theorem rounded_eq {q : ℚ} {z e : Int} (hq : q = z * 2 ^ e) (hz : z.natAbs ≤ 2 ^ 53) (he : -1074 ≤ e) :
    rounded q = q := by
  rcases hz.lt_or_eq with hlt | heq
  · exact rounded_eq_of_lt hq hlt he
  · -- one bit too long, but a power of two
    obtain ⟨y, rfl⟩ : ∃ y, z = y * 2 := ⟨z / 2, by omega⟩
    refine rounded_eq_of_lt (z := y) (e := e + 1) ?_ (by omega) (by omega)
    rw [hq, zpow_add₀ two_ne_zero]
    push_cast
    ring

theorem rounded_nonneg {q : ℚ} (h : 0 ≤ q) : 0 ≤ rounded q := by
  have := halfEven_mono (div_nonneg h (two_pow_pos (grid q)).le)
  rw [← Int.cast_zero, halfEven_intCast] at this
  exact mul_nonneg (by exact_mod_cast this) (two_pow_pos _).le

theorem rounded_mono_of_pos {p q : ℚ} (hp : 0 < p) (h : p ≤ q) : rounded p ≤ rounded q := by
  have hq : 0 < q := hp.trans_le h
  have hlog : Int.log 2 p ≤ Int.log 2 q := Int.log_mono_right hp h
  by_cases same : grid p = grid q
  · unfold rounded
    rw [same]
    refine mul_le_mul_of_nonneg_right ?_ (two_pow_pos _).le
    exact_mod_cast halfEven_mono (div_le_div_of_nonneg_right h (two_pow_pos _).le)
  · -- a power of two between the two is on both grids
    unfold grid at same
    rw [abs_of_pos hp, abs_of_pos hq] at same
    have hlt : Int.log 2 p + 1 ≤ Int.log 2 q := by omega
    have below : p ≤ (1 : Int) * 2 ^ Int.log 2 q := by
      rw [Int.cast_one, one_mul]
      exact (Int.lt_zpow_succ_log_self one_lt_two p).le.trans (zpow_le_zpow_right₀ one_le_two hlt)
    have above : (1 : Int) * 2 ^ Int.log 2 q ≤ q := by
      rw [Int.cast_one, one_mul]
      exact Int.zpow_log_le_self one_lt_two hq
    refine (rounded_le below ?_).trans (le_rounded above ?_)
    · unfold grid
      rw [abs_of_pos hp]
      omega
    · unfold grid
      rw [abs_of_pos hq]
      omega

theorem rounded_mono {p q : ℚ} (h : p ≤ q) : rounded p ≤ rounded q := by
  rcases lt_or_ge 0 p with hp | hp
  · exact rounded_mono_of_pos hp h
  rcases lt_or_ge q 0 with hq | hq
  · have := rounded_mono_of_pos (neg_pos.mpr hq) (neg_le_neg h)
    rw [rounded_neg, rounded_neg] at this
    exact neg_le_neg_iff.mp this
  · have := rounded_nonneg (neg_nonneg.mpr hp)
    rw [rounded_neg] at this
    exact (neg_nonneg.mp this).trans (rounded_nonneg hq)

theorem abs_rounded (q : ℚ) : |rounded q| = rounded |q| := by
  rcases le_total 0 q with h | h
  · rw [abs_of_nonneg h, abs_of_nonneg (rounded_nonneg h)]
  · have := rounded_nonneg (neg_nonneg.mpr h)
    rw [rounded_neg] at this
    rw [abs_of_nonpos h, abs_of_nonpos (neg_nonneg.mp this), rounded_neg]

/-- A number of at most the size of a double is rounded to one of at most that size. -/
theorem abs_rounded_le {q : ℚ} {z e : Int} (h : |q| ≤ z * 2 ^ e) (hz : z.natAbs ≤ 2 ^ 53) (he : -1074 ≤ e) :
    |rounded q| ≤ z * 2 ^ e := by
  rw [abs_rounded, ← rounded_eq rfl hz he]
  exact rounded_mono h

/-- A number up to a power of two that is a double is rounded to a double. -/
theorem abs_rounded_lt {q : ℚ} {e : Int} (h : |q| ≤ 2 ^ e) (he : -1074 ≤ e) (he' : e < 1024) :
    |rounded q| < 2 ^ (1024 : Int) := by
  have := abs_rounded_le (z := 1) (by rwa [Int.cast_one, one_mul]) (by decide) he
  rw [Int.cast_one, one_mul] at this
  exact this.trans_lt (zpow_lt_zpow_right₀ one_lt_two he')

/-! ### How far -/

theorem abs_rounded_sub_le (q : ℚ) : |rounded q - q| ≤ 2 ^ grid q / 2 := by
  have near := (isHalfEven (q / 2 ^ grid q)).near
  have hpos := two_pow_pos (grid q)
  have scaled : rounded q - q = -((q / 2 ^ grid q - halfEven (q / 2 ^ grid q)) * 2 ^ grid q) := by
    rw [rounded, sub_mul, div_mul_cancel₀ _ hpos.ne']
    ring
  rw [scaled, abs_neg, abs_mul, abs_of_pos hpos]
  calc _ ≤ 1 / 2 * 2 ^ grid q := mul_le_mul_of_nonneg_right near hpos.le
    _ = 2 ^ grid q / 2 := by ring

/-- Where doubles have all their bits, a number that is rounded moves by less than `2 ^ -53` of itself. -/
theorem abs_rounded_sub_lt {q : ℚ} (h : 2 ^ (-1022 : Int) ≤ |q|) : |rounded q - q| < |q| / 2 ^ 53 := by
  have hpos : 0 < |q| := (two_pow_pos _).trans_le h
  have hlog : (-1022 : Int) ≤ Int.log 2 |q| := (Int.zpow_le_iff_le_log one_lt_two hpos).mp h
  have hgrid : grid q = Int.log 2 |q| - 52 := by
    unfold grid
    omega
  have unit : (2 : ℚ) ^ grid q / 2 = 2 ^ Int.log 2 |q| / 2 ^ 53 := by
    rw [hgrid, zpow_sub₀ two_ne_zero]
    norm_num
    ring
  rcases (Int.zpow_log_le_self one_lt_two hpos).lt_or_eq with hlt | heq
  · refine (abs_rounded_sub_le q).trans_lt ?_
    rw [unit]
    exact div_lt_div_of_pos_right hlt (by norm_num)
  · -- a power of two is not moved at all
    have still : rounded |q| = |q| := by
      refine rounded_eq (z := 1) (e := Int.log 2 |q|) ?_ (by norm_num) (by omega)
      rw [Int.cast_one, one_mul]
      exact heq.symm
    have still' : rounded q = q := by
      rcases abs_choice q with hq | hq
      · rwa [hq] at still
      · rw [hq, rounded_neg] at still
        exact neg_inj.mp still
    rw [still', sub_self, abs_zero]
    positivity

end RecordStats.Double
