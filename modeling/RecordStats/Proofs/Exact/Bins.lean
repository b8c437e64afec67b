import Mathlib
import RecordStats.Proofs.Exact.Arithmetic

/-! Equal bins in exact arithmetic. A number is sorted into them by its position, its distance from the lower end in
    widths of a bin, and the edges are reported as multiples of the width. The position is increasing and takes the
    `i`-th edge to `i`, so the whole part of a position is the bin between whose edges the number lies. -/

namespace RecordStats.Bins

open Exact (number)

/-- How many widths a number is above the lower end. -/
def position (n : Nat) (low high x : ℚ) : ℚ := n * (x - low) / (high - low)

/-- The `i`-th of the edges that part an interval into `n` bins of the same width. -/
def edge (n : Nat) (low high : ℚ) (i : Nat) : ℚ := low + i * ((high - low) / n)

section Positions
variable {n : Nat} {low high : ℚ} (hn : 1 ≤ n) (h : low < high)
include hn h

theorem position_strictMono : StrictMono (position n low high) := by
  intro x y hxy
  have bins : (0 : ℚ) < n := by exact_mod_cast hn
  unfold position
  gcongr

theorem position_edge (i : Nat) : position n low high (edge n low high i) = i := by
  have bins : (n : ℚ) ≠ 0 := by exact_mod_cast (Nat.one_le_iff_ne_zero.mp hn)
  have length : high - low ≠ 0 := (sub_pos.mpr h).ne'
  rw [position, edge, add_sub_cancel_left]
  field_simp

theorem edge_le_iff (i : Nat) (x : ℚ) : edge n low high i ≤ x ↔ i ≤ position n low high x := by
  rw [← (position_strictMono hn h).le_iff_le, position_edge hn h]

theorem lt_edge_iff (i : Nat) (x : ℚ) : x < edge n low high i ↔ position n low high x < i := by
  rw [← (position_strictMono hn h).lt_iff_lt, position_edge hn h]

theorem edge_strictMono : StrictMono (edge n low high) := by
  intro i j hij
  rw [lt_edge_iff hn h, position_edge hn h]
  exact_mod_cast hij

omit hn h in
theorem edge_zero : edge n low high 0 = low := by
  rw [edge, Nat.cast_zero, zero_mul, add_zero]

omit h in
theorem edge_last : edge n low high n = high := by
  have bins : (n : ℚ) ≠ 0 := by exact_mod_cast (Nat.one_le_iff_ne_zero.mp hn)
  rw [edge, mul_div_cancel₀ _ bins, add_sub_cancel]

end Positions

variable {root : ℚ → ℚ} {n : Nat} {low high : ℚ}

/-- The edges of equal bins: the last one is reported as the upper end, and is that. -/
theorem edges_regular (hn : 1 ≤ n) : (regular n (number low : Exact root) (number high)).edges =
    (List.range (n + 1)).map fun i => number (edge n low high i) := by
  have bins : (n : ℚ) ≠ 0 := by exact_mod_cast (Nat.one_le_iff_ne_zero.mp hn)
  simp only [edges, Exact.number_sub, Exact.ofNat_eq, Exact.number_div bins, Exact.number_mul, Exact.number_add]
  refine List.map_congr_left fun i _ => ?_
  split
  · next hi => rw [hi, edge_last hn]
  · rfl

theorem head?_edges_regular (hn : 1 ≤ n) :
    (regular n (number low : Exact root) (number high)).edges.head? = some (number low) := by
  rw [edges_regular hn, List.range_succ_eq_map, List.map_cons, List.head?_cons, edge_zero]

theorem getLast?_edges_regular (hn : 1 ≤ n) :
    (regular n (number low : Exact root) (number high)).edges.getLast? = some (number high) := by
  rw [edges_regular hn, List.range_succ, List.map_append, List.map_singleton, List.getLast?_concat, edge_last hn]

theorem length_edges_regular : (regular n (number low : Exact root) (number high)).edges.length = n + 1 := by
  rw [edges, List.length_map, List.length_range]

theorem edges_regular_pairwise (hn : 1 ≤ n) (h : low < high) :
    (regular n (number low : Exact root) (number high)).edges.Pairwise (· < ·) := by
  rw [edges_regular hn, List.pairwise_map]
  exact List.pairwise_lt_range.imp fun hij => edge_strictMono hn h hij

theorem select_regular (h : low < high) (x : ℚ) :
    (regular n (number low : Exact root) (number high)).select (number x) =
      if position n low high x < 0 then .underflow
      else if n ≤ position n low high x then .overflow
      else .bin ⌊position n low high x⌋₊ := by
  have length : high - low ≠ 0 := (sub_pos.mpr h).ne'
  simp only [select, Exact.number_sub, Exact.ofNat_eq, Exact.number_mul, Exact.number_div length, Exact.number_lt,
    Exact.number_le, Exact.number_beq, decide_true, if_true, Exact.whole_number, Nat.cast_zero]
  rfl

/-- A bin holds the numbers whose position has its index as whole part. -/
theorem holds_regular_iff (hn : 1 ≤ n) (h : low < high) (i : Nat) (x : ℚ) :
    Holds (regular n (number low : Exact root) (number high)).edges i (number x) ↔
      i < n ∧ (i : ℚ) ≤ position n low high x ∧ position n low high x < i + 1 := by
  have next := lt_edge_iff hn h (i + 1) x
  rw [Nat.cast_add_one] at next
  simp only [Holds, edges_regular hn, List.length_map, List.length_range, List.getElem_map, List.getElem_range,
    Exact.number_le, Exact.number_lt, edge_le_iff hn h, next, exists_prop, Nat.add_lt_add_iff_right]

/-- The formula sorts a number into the slot that it belongs into by the edges. -/
theorem select_regular_takes (hn : 1 ≤ n) (h : low < high) (x : ℚ) :
    ((regular n (number low : Exact root) (number high)).select (number x)).Takes (fun y => y = .undefined)
      (regular n (number low : Exact root) (number high)).edges (number x) := by
  rw [select_regular h]
  split
  · next below =>
    refine ⟨number low, head?_edges_regular hn, ?_⟩
    rwa [Exact.number_lt, ← @edge_zero n low high, lt_edge_iff hn h, Nat.cast_zero]
  split
  · next above =>
    refine ⟨number high, getLast?_edges_regular hn, ?_⟩
    rwa [Exact.number_le, ← @edge_last n low high hn, edge_le_iff hn h]
  · next not_below not_above =>
    have nonneg := not_lt.mp not_below
    refine (holds_regular_iff hn h _ x).mpr ⟨?_, Nat.floor_le nonneg, Nat.lt_floor_add_one _⟩
    exact (Nat.floor_lt nonneg).mpr (not_le.mp not_above)

/-- Equal bins have increasing edges from the lower end to the upper one, and a number is sorted into them as into bins
    with these edges. -/
theorem regular_agrees_with_edges (hn : 1 ≤ n) (h : low < high) :
    let bins : Bins (Exact root) := regular n low high
    bins.edges.Pairwise (· < ·) ∧ bins.edges.length = n + 1 ∧
      bins.edges.head? = some ↑low ∧ bins.edges.getLast? = some ↑high ∧
      ∀ x : ℚ, bins.select x = (edged bins.edges).select x ∧
        (bins.select x = .underflow ↔ x < low) ∧ (bins.select x = .overflow ↔ high ≤ x) ∧
        ∀ i, bins.select x = .bin i ↔ Holds bins.edges i ↑x := by
  intro bins
  have first : bins.edges.head? = some ↑low := head?_edges_regular hn
  have last : bins.edges.getLast? = some ↑high := getLast?_edges_regular hn
  have length : bins.edges.length = n + 1 := length_edges_regular
  have increasing : bins.edges.Pairwise (· < ·) := edges_regular_pairwise hn h
  refine ⟨increasing, length, first, last, fun x => ?_⟩
  have scanned (slot : Slot) : (edged bins.edges).select ↑x = slot ↔
      slot.Takes (fun y => y = .undefined) bins.edges ↑x :=
    select_eq_iff Exact.ordered (by omega) increasing.isChain
  have agree : bins.select x = (edged bins.edges).select x := ((scanned _).mpr (select_regular_takes hn h x)).symm
  rw [agree]
  refine ⟨rfl, ?_, ?_, fun i => scanned (.bin i)⟩
  · rw [scanned, Slot.Takes, first]
    simp
  · rw [scanned, Slot.Takes, last]
    simp

/-- With three bins from -1 to 1, a third is an edge and belongs to the bin above it. -/
theorem regular_agrees_with_edges_thirds :
    1 ≤ 3 ∧ (-1 : ℚ) < 1 ∧
      let bins : Bins (Exact id) := regular 3 (number (-1)) (number 1)
      bins.select (number (1 / 3)) = .bin 2 ∧ bins.select (number 1) = .overflow := by
  have low_lt_high : (-1 : ℚ) < 1 := by norm_num
  refine ⟨by decide, low_lt_high, ?_⟩
  intro bins
  obtain ⟨-, -, -, -, routed⟩ := regular_agrees_with_edges (by decide : 1 ≤ 3) low_lt_high
  obtain ⟨-, -, -, inside⟩ := routed (1 / 3)
  obtain ⟨-, -, above, -⟩ := routed 1
  refine ⟨(inside 2).mpr ((holds_regular_iff (by decide) low_lt_high 2 _).mpr ?_), above.mpr le_rfl⟩
  norm_num [position]

end RecordStats.Bins
