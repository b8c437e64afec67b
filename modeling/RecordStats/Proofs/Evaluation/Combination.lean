import Mathlib
import RecordStats.Proofs.Evaluation.Extreme

/-! The methods of lists that combine items. The pairs of one list and the cross products of several are both told by
    the choices of one index in each list: every choice is there once, in the order of the indices, and the first
    list counts most. A cross product lengthens the tuples on its left, so a chain of them gives flat tuples, as long
    as no item of the first list is a tuple itself. -/

namespace RecordStats

namespace ListMethod

/-! ### Choices of indices -/

/-- The choices of one index below each bound, in lexicographic order. -/
def choices : List Nat → List (List Nat)
  | [] => [[]]
  | bound :: bounds => (List.range bound).flatMap fun i => (choices bounds).map fun is => i :: is

theorem mem_choices {bounds is : List Nat} : is ∈ choices bounds ↔ List.Forall₂ (· < ·) is bounds := by
  induction bounds generalizing is with
  | nil => rw [choices, List.mem_singleton, List.forall₂_nil_right_iff]
  | cons bound bounds ih =>
    simp only [choices, List.mem_flatMap, List.mem_range, List.mem_map, ih, List.forall₂_cons_right_iff]
    constructor
    · rintro ⟨i, hi, is, his, rfl⟩
      exact ⟨i, is, hi, his, rfl⟩
    · rintro ⟨i, is, hi, his, rfl⟩
      exact ⟨i, hi, is, his, rfl⟩

theorem choices_pairwise (bounds : List Nat) : (choices bounds).Pairwise (· < ·) := by
  induction bounds with
  | nil => exact List.pairwise_singleton _ _
  | cons bound bounds ih =>
    refine List.pairwise_flatMap.mpr ⟨fun i _ => List.pairwise_map.mpr ?_, List.pairwise_lt_range.imp ?_⟩
    · exact ih.imp fun h => List.cons_lt_cons_iff.mpr (.inr ⟨rfl, h⟩)
    · intro i j hij is his js hjs
      obtain ⟨is, -, rfl⟩ := List.mem_map.mp his
      obtain ⟨js, -, rfl⟩ := List.mem_map.mp hjs
      exact List.cons_lt_cons_iff.mpr (.inl hij)

theorem length_choices (bounds : List Nat) : (choices bounds).length = bounds.prod := by
  induction bounds with
  | nil => rfl
  | cons bound bounds ih =>
    simp only [choices, List.length_flatMap, List.length_map, ih, List.map_const', List.length_range,
      List.sum_replicate, smul_eq_mul, List.prod_cons]

theorem choices_singleton (bound : Nat) : choices [bound] = (List.range bound).map fun i => [i] :=
  (List.map_eq_flatMap ..).symm

/-- The last index varies the fastest. -/
theorem choices_concat (bounds : List Nat) (bound : Nat) :
    choices (bounds ++ [bound]) = (choices bounds).flatMap fun is => (List.range bound).map fun i => is ++ [i] := by
  induction bounds with
  | nil =>
    rw [List.nil_append, choices_singleton, choices, List.flatMap_singleton]
    rfl
  | cons first bounds ih =>
    simp only [List.cons_append, choices, ih, List.flatMap_assoc, List.flatMap_map, List.map_flatMap, List.map_map]
    rfl

/-- The items at some indices, one in each list. -/
def tupleAt (lists : List (List Value)) (is : List Nat) : Value :=
  .tuple (List.zipWith (fun items i => items.getD i .null) lists is)

/-- The indices are all choices of one index in each list that meet a condition, each once and in lexicographic
    order. -/
structure Enumerates (lists : List (List Value)) (chosen : List Nat → Prop) (indices : List (List Nat)) : Prop where
  complete : ∀ is, is ∈ indices ↔ List.Forall₂ (fun i items => i < items.length) is lists ∧ chosen is
  ordered : indices.Pairwise (· < ·)

theorem enumerates_filter (lists : List (List Value)) (chosen : List Nat → Prop) [DecidablePred chosen] :
    Enumerates lists chosen ((choices (lists.map List.length)).filter fun is => chosen is) where
  complete is := by rw [List.mem_filter, mem_choices, List.forall₂_map_right_iff, decide_eq_true_iff]
  ordered := (choices_pairwise _).filter _

theorem enumerates_choices (lists : List (List Value)) :
    Enumerates lists (fun _ => True) (choices (lists.map List.length)) where
  complete is := by rw [mem_choices, List.forall₂_map_right_iff, and_true]
  ordered := choices_pairwise _

/-- A list is what stands at its indices. -/
theorem map_range_getD {α : Type} (f : Value → α) (xs : List Value) :
    (List.range xs.length).map (fun i => f (xs.getD i .null)) = xs.map f := by
  refine List.ext_getElem (by rw [List.length_map, List.length_map, List.length_range]) fun i hi _ => ?_
  rw [List.length_map, List.length_range] at hi
  rw [List.getElem_map, List.getElem_map, List.getElem_range, List.getD_eq_getElem xs .null hi]

/-! ### Pairs of one list -/

/-- Each index comes after those before it, or may be one of them. -/
def Later (self : Bool) (is : List Nat) : Prop :=
  is.Pairwise fun i j => i + (if self then 0 else 1) ≤ j

instance (self : Bool) : DecidablePred (Later self) :=
  fun is => inferInstanceAs (Decidable (is.Pairwise fun i j => i + (if self then 0 else 1) ≤ j))

/-- The choices of two indices in one list, the second one later. -/
def laterPairs (self : Bool) (n : Nat) : List (List Nat) :=
  (choices [n, n]).filter fun is => Later self is

section Later
variable {self : Bool} {i j : Nat}

theorem later_pair_iff : Later self [i, j] ↔ i + (if self then 0 else 1) ≤ j :=
  List.pairwise_pair

theorem later_succ_iff : Later self [i + 1, j + 1] ↔ Later self [i, j] := by
  rw [later_pair_iff, later_pair_iff, Nat.add_right_comm, Nat.add_le_add_iff_right]

theorem not_later_zero : ¬ Later self [i + 1, 0] := by
  rw [later_pair_iff]
  omega

theorem later_zero_succ : Later self [0, j + 1] := by
  rw [later_pair_iff]
  split <;> omega

end Later

theorem choices_square (n : Nat) :
    choices [n, n] = (List.range n).flatMap fun i => (List.range n).map fun j => [i, j] := by
  have rows : choices [n, n] = (List.range n).flatMap fun i => (choices [n]).map fun is => i :: is := rfl
  rw [rows, choices_singleton]
  simp only [List.map_map]
  rfl

/-- The pairs of one index more: those with the first index, and those of the others, each one further. -/
theorem laterPairs_succ (self : Bool) (n : Nat) :
    laterPairs self (n + 1) = ((if self then [[0, 0]] else []) ++ (List.range n).map fun j => [0, j + 1]) ++
      (laterPairs self n).map (List.map Nat.succ) := by
  rw [laterPairs, choices_square, List.range_succ_eq_map, List.flatMap_cons, List.filter_append, laterPairs,
    choices_square, List.flatMap_map, List.filter_flatMap, List.filter_flatMap, List.map_flatMap]
  congr 1
  · have all : ((List.range n).map fun j => [0, j + 1]).filter (fun is => Later self is) =
        (List.range n).map fun j => [0, j + 1] :=
      List.filter_eq_self.mpr (List.forall_mem_map.mpr fun j _ => decide_eq_true later_zero_succ)
    have first : [[0, 0]].filter (fun is => Later self is) = if self then [[0, 0]] else [] := by
      cases self <;> rfl
    rw [List.map_cons, List.map_map, ← List.singleton_append, List.filter_append, first]
    exact congrArg (fun row => (if self then [[0, 0]] else []) ++ row) all
  · -- the first index comes before those of any further row
    refine List.flatMap_congr fun i _ => ?_
    rw [List.map_cons, List.filter_cons_of_neg (by rw [decide_eq_true_iff]; exact not_later_zero), List.map_map,
      List.filter_map, List.filter_map, List.map_map]
    have same : (fun j => decide (Later self [i + 1, j + 1])) = fun j => decide (Later self [i, j]) :=
      funext fun j => decide_eq_decide.mpr later_succ_iff
    exact congrArg (fun p => ((List.range n).filter p).map fun j => [i + 1, j + 1]) same

/-- The pairs of a list are the tuples at the pairs of its indices. -/
theorem pairings_eq (self : Bool) (xs : List Value) :
    pairings self xs = (laterPairs self xs.length).map (tupleAt [xs, xs]) := by
  induction xs with
  | nil => rfl
  | cons x rest ih =>
    have further (is : List Nat) : tupleAt [x :: rest, x :: rest] (is.map Nat.succ) = tupleAt [rest, rest] is := by
      rcases is with _ | ⟨i, _ | ⟨j, is⟩⟩ <;> rfl
    have row : (List.range rest.length).map (fun j => tupleAt [x :: rest, x :: rest] [0, j + 1]) =
        rest.map fun y => .tuple [x, y] :=
      map_range_getD (fun y => Value.tuple [x, y]) rest
    have others : (laterPairs self rest.length).map (tupleAt [x :: rest, x :: rest] ∘ List.map Nat.succ) =
        pairings self rest := by
      rw [ih]
      exact List.map_congr_left fun is _ => further is
    rw [List.length_cons, laterPairs_succ, List.map_append, List.map_append, List.map_map, List.map_map, others,
      pairings]
    refine congrArg (fun row => row ++ pairings self rest) ?_
    cases self with
    | false => exact row.symm
    | true => exact congrArg (fun row => Value.tuple [x, x] :: row) row.symm

theorem length_pairings (self : Bool) (xs : List Value) :
    (pairings self xs).length = if self then xs.length * (xs.length + 1) / 2 else xs.length * (xs.length - 1) / 2 := by
  induction xs with
  | nil => cases self <;> rfl
  | cons x rest ih =>
    rw [pairings, List.length_append, List.length_map, ih, List.length_cons]
    cases self with
    | false => exact (Nat.add_comm ..).trans (Nat.triangle_succ rest.length).symm
    | true =>
      have next := Nat.triangle_succ (rest.length + 1)
      rw [Nat.add_sub_cancel, Nat.add_sub_cancel, Nat.mul_comm, Nat.mul_comm _ rest.length] at next
      exact (Nat.add_comm ..).trans next.symm

/-! ### Cross products -/

/-- Tuples of some lists crossed with one more list. -/
theorem product_tuples (lists : List (List Value)) (ys : List Value) :
    product ((choices (lists.map List.length)).map (tupleAt lists)) ys =
      (choices ((lists ++ [ys]).map List.length)).map (tupleAt (lists ++ [ys])) := by
  rw [List.map_append, List.map_singleton, choices_concat, product, List.flatMap_map, List.map_flatMap]
  refine List.flatMap_congr fun is his => ?_
  have hlen : lists.length = is.length := by
    rw [(mem_choices.mp his).length_eq, List.length_map]
  rw [← map_range_getD, List.map_map]
  refine List.map_congr_left fun i _ => ?_
  rw [Function.comp_apply, tupleAt, tupleAt, List.zipWith_append hlen]
  rfl

/-- Items that are no tuples are taken for tuples of one item each. -/
theorem product_items {xs : List Value} (h : ∀ x ∈ xs, ∀ items, x ≠ .tuple items) (ys : List Value) :
    product xs ys = product ((choices [xs.length]).map (tupleAt [xs])) ys := by
  have alone : (choices [xs.length]).map (tupleAt [xs]) = xs.map fun x => .tuple [x] := by
    rw [choices_singleton, List.map_map, ← map_range_getD]
    rfl
  rw [alone, product, product, List.flatMap_map]
  refine List.flatMap_congr fun x hx => List.map_congr_left fun y _ => ?_
  cases x with
  | tuple items => exact absurd rfl (h _ hx items)
  | _ => rfl

end ListMethod

namespace Expr

open ListMethod

/-- The expression gives a list or a tuple of these items at this origin. -/
def Gives (call : Caller) (scope : Scope) (origin : Origin) (e : Expr) (items : List Value) : Prop :=
  ∃ v, e.evaluate call scope origin = .ok v ∧ v.items? = some items

/-- The expression crosses a list with others, one after the other. -/
inductive Crosses (call : Caller) (scope : Scope) : Origin → Expr → List Value → List (List Value) → Prop
  | two {origin : Origin} {e e' : Expr} {xs ys : List Value} (left : Gives call scope (0 :: 0 :: origin) e xs)
      (right : Gives call scope (2 :: origin) e' ys) (name member place : Span) :
      Crosses call scope origin (send e .cross [e'] name member place) xs [ys]
  | next {origin : Origin} {e e' : Expr} {xs ys : List Value} {others : List (List Value)}
      (earlier : Crosses call scope (0 :: 0 :: origin) e xs others) (right : Gives call scope (2 :: origin) e' ys)
      (name member place : Span) :
      Crosses call scope origin (send e .cross [e'] name member place) xs (others ++ [ys])

variable {host : Host} {depth : Nat} {scope : Scope} {origin : Origin} {e e' : Expr} {xs ys : List Value}
  {others : List (List Value)}

theorem evaluate_pairings (h : Gives (host.caller (depth + 1)) scope (0 :: 0 :: origin) e xs) (self : Bool)
    (name member place : Span) :
    (send e (if self then .pairs else .distincts) [] name member place).evaluate (host.caller (depth + 1)) scope
      origin = .ok (.list (pairings self xs)) := by
  obtain ⟨v, hv, hitems⟩ := h
  have none : evaluateAll (host.caller (depth + 1)) scope origin 2 [] = .ok [] := rfl
  rw [evaluate_send hv hitems none (by cases self <;> rfl)]
  cases self <;> rfl

theorem evaluate_cross (h : Gives (host.caller (depth + 1)) scope (0 :: 0 :: origin) e xs)
    (h' : Gives (host.caller (depth + 1)) scope (2 :: origin) e' ys) (name member place : Span) :
    (send e .cross [e'] name member place).evaluate (host.caller (depth + 1)) scope origin =
      .ok (.list (product xs ys)) := by
  obtain ⟨v, hv, hitems⟩ := h
  obtain ⟨w, hw, hothers⟩ := h'
  have argument : evaluateAll (host.caller (depth + 1)) scope origin 2 [e'] = .ok [w] := by
    rw [evaluateAll, hw]
    rfl
  rw [evaluate_send hv hitems argument rfl, List.headD_cons, run, hothers]
  rfl

theorem Crosses.evaluate (h : Crosses (host.caller (depth + 1)) scope origin e xs others)
    (flat : ∀ x ∈ xs, ∀ items, x ≠ .tuple items) :
    e.evaluate (host.caller (depth + 1)) scope origin =
      .ok (.list ((choices ((xs :: others).map List.length)).map (tupleAt (xs :: others)))) := by
  induction h with
  | two left right name member place =>
    rw [evaluate_cross left right, product_items flat]
    exact congrArg (fun vs => Except.ok (Value.list vs)) (product_tuples [_] _)
  | next earlier right name member place ih =>
    rw [evaluate_cross ⟨_, ih flat, rfl⟩ right, product_tuples]
    rfl

/-- The methods that combine items give one tuple for each choice of indices, in the order of the indices: `distincts`
    for two increasing indices in a list, `pairs` for an index with itself too, and a chain of `cross` for one index in
    each of its lists. The first list of a chain has no tuples, since `cross` would take those for tuples it has
    made. -/
theorem evaluate_combinations (host : Host) (depth : Nat) (scope : Scope) (origin : Origin) :
    (∀ e xs name member place, Gives (host.caller (depth + 1)) scope (0 :: 0 :: origin) e xs →
      (∃ indices, Enumerates [xs, xs] (List.Pairwise (· < ·)) indices ∧
        indices.length = xs.length * (xs.length - 1) / 2 ∧
        (send e .distincts [] name member place).evaluate (host.caller (depth + 1)) scope origin =
          .ok (.list (indices.map (tupleAt [xs, xs])))) ∧
      ∃ indices, Enumerates [xs, xs] (List.Pairwise (· ≤ ·)) indices ∧
        indices.length = xs.length * (xs.length + 1) / 2 ∧
        (send e .pairs [] name member place).evaluate (host.caller (depth + 1)) scope origin =
          .ok (.list (indices.map (tupleAt [xs, xs])))) ∧
    ∀ e xs others, Crosses (host.caller (depth + 1)) scope origin e xs others →
      (∀ x ∈ xs, ∀ items, x ≠ .tuple items) →
      ∃ indices, Enumerates (xs :: others) (fun _ => True) indices ∧
        indices.length = ((xs :: others).map List.length).prod ∧
        e.evaluate (host.caller (depth + 1)) scope origin =
          .ok (.list (indices.map (tupleAt (xs :: others)))) := by
  constructor
  · intro e xs name member place h
    have paired (self : Bool) : Enumerates [xs, xs] (Later self) (laterPairs self xs.length) ∧
        (laterPairs self xs.length).length =
          (if self then xs.length * (xs.length + 1) / 2 else xs.length * (xs.length - 1) / 2) ∧
        (send e (if self then .pairs else .distincts) [] name member place).evaluate (host.caller (depth + 1)) scope
          origin = .ok (.list ((laterPairs self xs.length).map (tupleAt [xs, xs]))) := by
      refine ⟨enumerates_filter [xs, xs] (Later self), ?_, ?_⟩
      · rw [← length_pairings, pairings_eq, List.length_map]
      · rw [evaluate_pairings h, pairings_eq]
    exact ⟨⟨_, paired false⟩, ⟨_, paired true⟩⟩
  · intro e xs others h flat
    exact ⟨_, enumerates_choices (xs :: others), length_choices _, h.evaluate flat⟩

/-- Two numbers, and the same ones crossed with a tuple and with themselves. -/
theorem evaluate_combinations_of_two :
    (∃ indices, Enumerates [[.integer 1, .integer 2], [.integer 1, .integer 2]] (List.Pairwise (· < ·)) indices ∧
      indices.length = 1 ∧
      (send (.name "x" default) .distincts [] default default default).evaluate (Host.none.caller 2)
        (Scope.root [] [("x", .list [.integer 1, .integer 2]), ("y", .tuple [.tuple [.null]])]) [] =
          .ok (.list (indices.map (tupleAt [[.integer 1, .integer 2], [.integer 1, .integer 2]])))) ∧
    ∃ indices, Enumerates [[.integer 1, .integer 2], [.tuple [.null]], [.integer 1, .integer 2]] (fun _ => True)
        indices ∧
      indices.length = 4 ∧
      (send (send (.name "x" default) .cross [.name "y" default] default default default) .cross [.name "x" default]
        default default default).evaluate (Host.none.caller 2)
        (Scope.root [] [("x", .list [.integer 1, .integer 2]), ("y", .tuple [.tuple [.null]])]) [] =
          .ok (.list (indices.map
            (tupleAt [[.integer 1, .integer 2], [.tuple [.null]], [.integer 1, .integer 2]]))) := by
  have combinations := evaluate_combinations Host.none 1
    (Scope.root [] [("x", .list [.integer 1, .integer 2]), ("y", .tuple [.tuple [.null]])]) []
  constructor
  · exact (combinations.1 _ [.integer 1, .integer 2] _ _ _ ⟨_, rfl, rfl⟩).1
  · refine combinations.2 _ _ [[.tuple [.null]], [.integer 1, .integer 2]]
      (.next (.two ⟨_, rfl, rfl⟩ ⟨_, rfl, rfl⟩ _ _ _) ⟨_, rfl, rfl⟩ _ _ _) ?_
    rintro x hx items rfl
    simp at hx

end Expr

end RecordStats
