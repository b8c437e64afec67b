import Mathlib
import RecordStats.Proofs.Double.Order
import RecordStats.Proofs.Tree.Accepted

/-! Which slot a number is sorted into by edges. All that counts is that numbers are in a strict total order and that
    NaN is not: then each number has one slot, the bin whose edges enclose it or a flow bin, and increasing edges sort
    it there. -/

namespace RecordStats

/-- Scalars are in a strict total order, apart from those that are NaN, which are in no order. There may be several
    scalars in one place, as the two zeros are. -/
structure Scalar.Ordered {α : Type} [Scalar α] (nan : α → Prop) : Prop where
  numbers_of_lt : ∀ {x y : α}, x < y → ¬ nan x ∧ ¬ nan y
  lt_trans : ∀ {x y z : α}, x < y → y < z → x < z
  le_iff : ∀ {x y : α}, x ≤ y ↔ ¬ nan x ∧ ¬ nan y ∧ ¬ y < x

/-- The order of doubles. -/
theorem Double.ordered : Scalar.Ordered fun x : Float => x.isNaN = true where
  numbers_of_lt := numbers_of_lt
  lt_trans := by
    intro x y z hxy hyz
    obtain ⟨r, hr⟩ := exists_ranked (numbers_of_lt hxy).1
    obtain ⟨s, hs⟩ := exists_ranked (numbers_of_lt hxy).2
    obtain ⟨t, ht⟩ := exists_ranked (numbers_of_lt hyz).2
    rw [hr.lt_iff hs] at hxy
    rw [hs.lt_iff ht] at hyz
    exact (hr.lt_iff ht).mpr (hxy.trans hyz)
  le_iff := by
    intro x y
    rw [← and_assoc]
    by_cases numbers : ¬ x.isNaN = true ∧ ¬ y.isNaN = true
    · obtain ⟨r, hr⟩ := exists_ranked numbers.1
      obtain ⟨s, hs⟩ := exists_ranked numbers.2
      rw [and_iff_right numbers, hr.le_iff hs, hs.lt_iff hr, not_lt]
    · exact iff_of_false (mt numbers_of_le numbers) (mt And.left numbers)

variable {α : Type} [Scalar α] {nan : α → Prop} {edges : List α} {x : α}

namespace Bins

/-- The number is between the edges of a bin: not below the lower one, and below the upper one. -/
def Holds (edges : List α) (i : Nat) (x : α) : Prop :=
  ∃ _ : i + 1 < edges.length, edges[i] ≤ x ∧ x < edges[i + 1]

end Bins

/-- What belongs into a slot, when edges part the bins. -/
def Slot.Takes (nan : α → Prop) (edges : List α) (x : α) : Slot → Prop
  | underflow => ∃ first ∈ edges.head?, x < first
  | overflow => ∃ last ∈ edges.getLast?, last ≤ x
  | nanflow => nan x
  | bin i => Bins.Holds edges i x

namespace Bins

/-! ### The scan for a bin -/

theorem holds_zero {a b : α} {rest : List α} : Holds (a :: b :: rest) 0 x ↔ a ≤ x ∧ x < b := by
  simp [Holds]

theorem holds_succ {a : α} {rest : List α} {i : Nat} : Holds (a :: rest) (i + 1) x ↔ Holds rest i x := by
  simp [Holds]

/-- A bin that is found holds the number. -/
theorem holds_of_between : ∀ {edges : List α} {i k : Nat}, between x i edges = some k →
    ∃ j, k = i + j ∧ Holds edges j x
  | [], _, _, h => by cases h
  | [_], _, _, h => by cases h
  | a :: b :: rest, i, k, h => by
    rw [between] at h
    split at h
    · next here =>
      cases h
      exact ⟨0, rfl, holds_zero.mpr here⟩
    · obtain ⟨j, rfl, later⟩ := holds_of_between h
      exact ⟨j + 1, by omega, holds_succ.mpr later⟩

/-- Where no bin is found, none holds the number. -/
theorem not_holds_of_between : ∀ {edges : List α} {i : Nat}, between x i edges = none → ∀ j, ¬ Holds edges j x
  | [], _, _ => by simp [Holds]
  | [_], _, _ => by simp [Holds]
  | a :: b :: rest, i, h => by
    rw [between] at h
    split at h
    · cases h
    · next elsewhere =>
      rintro (_ | j)
      · exact fun here => elsewhere (holds_zero.mp here)
      · exact fun later => not_holds_of_between h j (holds_succ.mp later)

/-! ### Increasing edges -/

section Increasing
variable (h : Scalar.Ordered nan)
include h

theorem pairwise_of_isChain (increasing : edges.IsChain (· < ·)) : edges.Pairwise (· < ·) :=
  haveI : IsTrans α (· < ·) := ⟨fun _ _ _ => h.lt_trans⟩
  List.isChain_iff_pairwise.mp increasing

/-- What is below an edge is below the later ones. -/
theorem lt_later_edge (increasing : edges.IsChain (· < ·)) {i j : Nat} (hij : i ≤ j) (hj : j < edges.length)
    (hlt : x < edges[i]) : x < edges[j] := by
  rcases Nat.eq_or_lt_of_le hij with rfl | hij
  · exact hlt
  · exact h.lt_trans hlt (List.pairwise_iff_getElem.mp (pairwise_of_isChain h increasing) i j (by omega) hj hij)

/-- What is below the first edge is below all. -/
theorem lt_edge_of_lt_first (increasing : edges.IsChain (· < ·)) (below : Slot.underflow.Takes nan edges x) {i : Nat}
    (hi : i < edges.length) : x < edges[i] := by
  obtain ⟨first, hfirst, hlt⟩ := below
  rw [Option.mem_def, List.head?_eq_getElem?, List.getElem?_eq_some_iff] at hfirst
  obtain ⟨_, rfl⟩ := hfirst
  exact lt_later_edge h increasing (Nat.zero_le i) hi hlt

theorem not_above_of_lt_edge (increasing : edges.IsChain (· < ·)) {i : Nat} (hi : i < edges.length)
    (hlt : x < edges[i]) : ¬ Slot.overflow.Takes nan edges x := by
  rintro ⟨last, hlast, hle⟩
  rw [Option.mem_def, List.getLast?_eq_getElem?, List.getElem?_eq_some_iff] at hlast
  obtain ⟨hend, rfl⟩ := hlast
  exact (h.le_iff.mp hle).2.2 (lt_later_edge h increasing (by omega) hend hlt)

theorem Holds.not_below (increasing : edges.IsChain (· < ·)) {i : Nat} (inside : Holds edges i x) :
    ¬ Slot.underflow.Takes nan edges x := by
  obtain ⟨hi, low, -⟩ := inside
  exact fun below => (h.le_iff.mp low).2.2 (lt_edge_of_lt_first h increasing below _)

theorem Holds.not_above (increasing : edges.IsChain (· < ·)) {i : Nat} (inside : Holds edges i x) :
    ¬ Slot.overflow.Takes nan edges x := by
  obtain ⟨hi, -, high⟩ := inside
  exact not_above_of_lt_edge h increasing hi high

/-- No two bins hold the same number. -/
theorem Holds.unique (increasing : edges.IsChain (· < ·)) {i j : Nat} (inside : Holds edges i x)
    (inside' : Holds edges j x) : i = j := by
  obtain ⟨hi, low, high⟩ := inside
  obtain ⟨hj, low', high'⟩ := inside'
  rcases Nat.lt_trichotomy i j with hlt | heq | hgt
  · exact absurd (lt_later_edge h increasing hlt (by omega) high) (h.le_iff.mp low').2.2
  · exact heq
  · exact absurd (lt_later_edge h increasing hgt (by omega) high') (h.le_iff.mp low).2.2

/-- There is no gap between the first edge and the last one. -/
theorem exists_holds (number : ¬ nan x) : ∀ {edges : List α}, edges.IsChain (· < ·) → 2 ≤ edges.length →
    (∀ first ∈ edges.head?, ¬ x < first) → (∀ last ∈ edges.getLast?, ¬ last ≤ x) → ∃ i, Holds edges i x
  | [a, b], increasing, _, not_below, not_above => by
    have ordered : a < b := by simpa using increasing
    obtain ⟨ha, hb⟩ := h.numbers_of_lt ordered
    have low : a ≤ x := h.le_iff.mpr ⟨ha, number, not_below a rfl⟩
    have high : x < b := not_not.mp fun hge => not_above b rfl (h.le_iff.mpr ⟨hb, number, hge⟩)
    exact ⟨0, holds_zero.mpr ⟨low, high⟩⟩
  | a :: b :: c :: rest, increasing, _, not_below, not_above => by
    obtain ⟨ordered, later⟩ := List.isChain_cons_cons.mp increasing
    obtain ⟨ha, -⟩ := h.numbers_of_lt ordered
    by_cases high : x < b
    · exact ⟨0, holds_zero.mpr ⟨h.le_iff.mpr ⟨ha, number, not_below a rfl⟩, high⟩⟩
    · obtain ⟨i, inside⟩ := exists_holds number later (by simp)
        (fun first hfirst => by
          cases hfirst
          exact high)
        (fun last hlast => not_above last (by rwa [List.getLast?_cons_cons]))
      exact ⟨i + 1, holds_succ.mpr inside⟩

/-! ### Routing -/

/-- Every number belongs into some slot. -/
theorem exists_takes (several : 2 ≤ edges.length) (increasing : edges.IsChain (· < ·)) (x : α) :
    ∃ slot : Slot, slot.Takes nan edges x := by
  by_cases number : nan x
  · exact ⟨.nanflow, number⟩
  by_cases below : Slot.underflow.Takes nan edges x
  · exact ⟨_, below⟩
  by_cases above : Slot.overflow.Takes nan edges x
  · exact ⟨_, above⟩
  obtain ⟨i, inside⟩ := exists_holds h number increasing several
    (fun first hfirst hlt => below ⟨first, hfirst, hlt⟩) (fun last hlast hle => above ⟨last, hlast, hle⟩)
  exact ⟨.bin i, inside⟩

/-- A number is sorted into a slot that it belongs into. -/
theorem select_of_takes (several : 2 ≤ edges.length) (increasing : edges.IsChain (· < ·)) {slot : Slot}
    (takes : slot.Takes nan edges x) : (edged edges).select x = slot := by
  have hzero : 0 < edges.length := by omega
  have nonempty : edges ≠ [] := List.ne_nil_of_length_pos hzero
  have hfirst := List.head?_eq_some_head nonempty
  have hlast := List.getLast?_eq_some_getLast nonempty
  have below_iff : x < edges.head nonempty ↔ Slot.underflow.Takes nan edges x := by
    simp [Slot.Takes, hfirst]
  have above_iff : edges.getLast nonempty ≤ x ↔ Slot.overflow.Takes nan edges x := by
    simp [Slot.Takes, hlast]
  simp only [select, hfirst, hlast]
  -- The two ends of the edges are tried first, and then the edges from below.
  cases slot with
  | underflow => rw [if_pos (below_iff.mpr takes)]
  | overflow =>
    have not_below : ¬ Slot.underflow.Takes nan edges x := fun below =>
      not_above_of_lt_edge h increasing hzero (lt_edge_of_lt_first h increasing below hzero) takes
    rw [if_neg (mt below_iff.mp not_below), if_pos (above_iff.mpr takes)]
  | nanflow =>
    have not_below : ¬ Slot.underflow.Takes nan edges x := fun ⟨_, _, hlt⟩ => (h.numbers_of_lt hlt).1 takes
    have not_above : ¬ Slot.overflow.Takes nan edges x := fun ⟨_, _, hle⟩ => (h.le_iff.mp hle).2.1 takes
    rw [if_neg (mt below_iff.mp not_below), if_neg (mt above_iff.mp not_above)]
    cases found : between x 0 edges with
    | none => rfl
    | some k =>
      obtain ⟨j, -, _, -, high⟩ := holds_of_between found
      exact absurd takes (h.numbers_of_lt high).1
  | bin i =>
    rw [if_neg (mt below_iff.mp (Holds.not_below h increasing takes)),
      if_neg (mt above_iff.mp (Holds.not_above h increasing takes))]
    cases found : between x 0 edges with
    | none => exact absurd takes (not_holds_of_between found i)
    | some k =>
      obtain ⟨j, rfl, inside⟩ := holds_of_between found
      rw [Nat.zero_add, Holds.unique h increasing inside takes]
      rfl

/-- Increasing edges sort every number into the slot that it belongs into, and into no other. -/
theorem select_eq_iff (several : 2 ≤ edges.length) (increasing : edges.IsChain (· < ·)) {slot : Slot} :
    (edged edges).select x = slot ↔ slot.Takes nan edges x := by
  constructor
  · obtain ⟨_, takes⟩ := exists_takes h several increasing x
    rw [select_of_takes h several increasing takes]
    rintro rfl
    exact takes
  · exact select_of_takes h several increasing

end Increasing

/-- The edges of a declaration sort every double: NaN into its own bin, what is below the first edge or not below the
    last one into the flow bins, and anything else into the one bin with a lower edge at or below it and an upper
    edge above it. -/
theorem select_of_variable {declaration : Expr} {edges : List Float} (h : ofCall declaration = .ok (.edged edges))
    (x : Float) :
    2 ≤ edges.length ∧
      (∀ slot, (edged edges).select x = slot ↔ slot.Takes (fun y => y.isNaN = true) edges x) ∧
      (¬ x.isNaN = true → (∀ first ∈ edges.head?, ¬ x < first) → (∀ last ∈ edges.getLast?, ¬ last ≤ x) →
        ∃! i, i < (edged edges).count ∧ Holds edges i x) := by
  cases states_of_ofCall h with
  | edged name literals several increasing =>
    refine ⟨several, fun slot => select_eq_iff Double.ordered several increasing, fun number not_below not_above => ?_⟩
    obtain ⟨i, inside⟩ := exists_holds Double.ordered number increasing several not_below not_above
    refine ⟨i, ⟨?_, inside⟩, fun j ⟨_, inside'⟩ => Holds.unique Double.ordered increasing inside' inside⟩
    obtain ⟨hi, -⟩ := inside
    exact Nat.lt_sub_of_add_lt hi

/-- An edge belongs to the bin above it, and the negative zero is no lower than the positive one. -/
theorem select_of_variable_edge :
    ∃ declaration, ofCall declaration = .ok (.edged [0, 1, 10]) ∧ (edged [(0 : Float), 1, 10]).select 1 = .bin 1 ∧
      (edged [(0 : Float), 1, 10]).select (-0.0) = .bin 0 ∧ (edged [(0 : Float), 1, 10]).select (0 / 0) = .nanflow := by
  have declared : ofCall (.call (.name "variable" default) ([0, 1, 10].map fun x => .literal (.float x) default)
      default) = .ok (.edged [0, 1, 10]) :=
    ofCall_eq_ok_iff.mpr (.edged rfl rfl (by decide) (by decide +kernel))
  obtain ⟨-, routed, -⟩ := select_of_variable declared 1
  obtain ⟨-, routed_zero, -⟩ := select_of_variable declared (-0.0)
  obtain ⟨-, routed_nan, -⟩ := select_of_variable declared (0 / 0)
  refine ⟨_, declared, (routed (.bin 1)).mpr ⟨by decide, ?_⟩, (routed_zero (.bin 0)).mpr ⟨by decide, ?_⟩,
    (routed_nan .nanflow).mpr ?_⟩
  · decide +kernel
  · decide +kernel
  · show (0 / 0 : Float).isNaN = true
    decide +kernel

end Bins

end RecordStats
