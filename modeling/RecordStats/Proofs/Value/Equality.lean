import Mathlib
import RecordStats.Evaluation.Operation
import RecordStats.Proofs.Double.Integer

/-! Equality of data. Two integers are compared exactly but an integer and a float as doubles, so equality is
    transitive except for integers that are different and have one nearest double: both are equal to that, and not to
    one another. -/

namespace RecordStats

open Double (nearestWhole)

namespace Double

/-- A double without the sign of a zero. -/
def unsignedZero (x : Float) : Float :=
  if x == 0 then 0 else x

theorem ne_nan {x : Float} (h : x.isNaN = false) : x ≠ Float.nan := by
  rw [Float.isNaN_eq_decide_eq_nan] at h
  exact of_decide_eq_false h

theorem beq_zero_iff {x : Float} : (x == 0) = true ↔ x = 0 ∨ x = -0 := by
  have number : (0 : Float) ≠ Float.nan := ne_nan rfl
  have number' : (-0 : Float) ≠ Float.nan := ne_nan rfl
  rw [Float.beq_iff_ne_nan_and_eq]
  constructor
  · rintro ⟨-, -, h | ⟨h, -⟩ | ⟨h, -⟩⟩
    exacts [.inl h, .inl h, .inr h]
  · rintro (rfl | rfl)
    · exact ⟨number, number, .inl rfl⟩
    · exact ⟨number', number, .inr (.inr ⟨rfl, rfl⟩)⟩

/-- Numbers are equal if they are one double, apart from the sign of a zero. -/
theorem beq_iff_unsignedZero {x y : Float} (hx : x.isNaN = false) (hy : y.isNaN = false) :
    (x == y) = true ↔ unsignedZero x = unsignedZero y := by
  -- Of two doubles that are no zeros, only one and the same are equal.
  have equal : (x == y) = true ↔ x = y ∨ ((x == 0) = true ∧ (y == 0) = true) := by
    rw [Float.beq_iff_ne_nan_and_eq, beq_zero_iff, beq_zero_iff]
    constructor
    · rintro ⟨-, -, h | ⟨h, h'⟩ | ⟨h, h'⟩⟩
      exacts [.inl h, .inr ⟨.inl h, .inr h'⟩, .inr ⟨.inr h, .inl h'⟩]
    · rintro (h | ⟨h, h'⟩)
      · exact ⟨ne_nan hx, ne_nan hy, .inl h⟩
      · refine ⟨ne_nan hx, ne_nan hy, ?_⟩
        rcases h with rfl | rfl <;> rcases h' with rfl | rfl <;> simp
  have zero : ((0 : Float) == 0) = true := rfl
  rw [equal]
  unfold unsignedZero
  by_cases hx0 : (x == 0) = true <;> by_cases hy0 : (y == 0) = true
  · simp [hx0, hy0]
  · rw [if_pos hx0, if_neg hy0]
    constructor
    · rintro (rfl | h)
      exacts [absurd hx0 hy0, absurd h.2 hy0]
    · rintro rfl
      exact absurd zero hy0
  · rw [if_neg hx0, if_pos hy0]
    constructor
    · rintro (rfl | h)
      exacts [absurd hy0 hx0, absurd h.1 hx0]
    · rintro rfl
      exact absurd zero hx0
  · rw [if_neg hx0, if_neg hy0]
    exact ⟨fun h => h.resolve_right fun h => hx0 h.1, .inl⟩

end Double

namespace Value

/-! ### Data -/

/-- Values without functions in which every float is a number. -/
inductive IsData : Value → Prop
  | null : IsData null
  | boolean (b : Bool) : IsData (boolean b)
  | integer (n : Int64) : IsData (integer n)
  | float {x : Float} (number : x.isNaN = false) : IsData (float x)
  | string (s : String) : IsData (string s)
  | list {items : List Value} (data : ∀ v ∈ items, IsData v) : IsData (list items)
  | tuple {items : List Value} (data : ∀ v ∈ items, IsData v) : IsData (tuple items)
  | record {fields : List (String × Value)} (data : ∀ p ∈ fields, IsData p.2) : IsData (record fields)

/-- Somewhere in the values there stand, at the same place, two different integers with one nearest double. -/
inductive Confused : Value → Value → Prop
  | integer {a b : Int64} (ne : a ≠ b) (same : nearestWhole a.toInt = nearestWhole b.toInt) :
      Confused (integer a) (integer b)
  | list {xs ys : List Value} {x y : Value} (place : (x, y) ∈ xs.zip ys) (h : Confused x y) :
      Confused (list xs) (list ys)
  | tuple {xs ys : List Value} {x y : Value} (place : (x, y) ∈ xs.zip ys) (h : Confused x y) :
      Confused (tuple xs) (tuple ys)
  | record {xs ys : List (String × Value)} {n m : String} {x y : Value} (place : ((n, x), (m, y)) ∈ xs.zip ys)
      (h : Confused x y) : Confused (record xs) (record ys)

mutual

/-- The value with doubles for its integers, and without signs of zeros. -/
def asDoubles : Value → Value
  | integer n => float (Double.unsignedZero (Double.ofWord n))
  | float x => float (Double.unsignedZero x)
  | list items => list (itemsAsDoubles items)
  | tuple items => tuple (itemsAsDoubles items)
  | record fields => record (fieldsAsDoubles fields)
  | v => v

def itemsAsDoubles : List Value → List Value
  | [] => []
  | v :: rest => asDoubles v :: itemsAsDoubles rest

def fieldsAsDoubles : List (String × Value) → List (String × Value)
  | [] => []
  | (n, v) :: rest => (n, asDoubles v) :: fieldsAsDoubles rest

end

theorem confused_list {xs ys : List Value} : Confused (.list xs) (.list ys) ↔ ∃ p ∈ xs.zip ys, Confused p.1 p.2 := by
  constructor
  · rintro (_ | ⟨place, h⟩)
    exact ⟨_, place, h⟩
  · rintro ⟨p, place, h⟩
    exact .list place h

theorem confused_tuple {xs ys : List Value} : Confused (.tuple xs) (.tuple ys) ↔ ∃ p ∈ xs.zip ys, Confused p.1 p.2 := by
  constructor
  · rintro (_ | _ | ⟨place, h⟩)
    exact ⟨_, place, h⟩
  · rintro ⟨p, place, h⟩
    exact .tuple place h

theorem confused_record {xs ys : List (String × Value)} :
    Confused (.record xs) (.record ys) ↔ ∃ p ∈ xs.zip ys, Confused p.1.2 p.2.2 := by
  constructor
  · rintro (_ | _ | _ | ⟨place, h⟩)
    exact ⟨_, place, h⟩
  · rintro ⟨p, place, h⟩
    exact .record place h

theorem ofWord_isNaN (n : Int64) : (Double.ofWord n).isNaN = false := (Double.denotes_ofWord n).isNaN_eq_false

theorem ofWord_beq_iff (a b : Int64) :
    (Double.ofWord a == Double.ofWord b) = true ↔ nearestWhole a.toInt = nearestWhole b.toInt := by
  rw [(Double.denotes_ofWord a).beq_iff (Double.denotes_ofWord b), Int.cast_inj]

theorem equals_integers_iff (a b : Int64) : (integer a).equals (integer b) = true ↔
    (integer a).asDoubles = (integer b).asDoubles ∧ ¬ Confused (integer a) (integer b) := by
  rw [equals, beq_iff_eq, asDoubles, asDoubles, float.injEq,
    ← Double.beq_iff_unsignedZero (ofWord_isNaN a) (ofWord_isNaN b), ofWord_beq_iff]
  constructor
  · rintro rfl
    refine ⟨rfl, ?_⟩
    rintro ⟨ne, -⟩
    exact ne rfl
  · rintro ⟨same, clear⟩
    by_contra ne
    exact clear (.integer ne same)

mutual

/-- Data are equal if they are the same as doubles and hold no integers that are confused with one another. -/
theorem equals_iff : ∀ {a b : Value}, a.IsData → b.IsData →
    (a.equals b = true ↔ a.asDoubles = b.asDoubles ∧ ¬ Confused a b)
  | .null, _, _, hb => by
    cases hb with
    | null => exact ⟨fun _ => ⟨rfl, nofun⟩, fun _ => rfl⟩
    | _ => simp [equals, asDoubles]
  | .boolean _, _, _, hb => by
    cases hb with
    | boolean =>
      rw [equals, beq_iff_eq]
      exact ⟨fun h => ⟨congrArg boolean h, nofun⟩, fun h => boolean.inj h.1⟩
    | _ => simp [equals, asDoubles]
  | .string _, _, _, hb => by
    cases hb with
    | string =>
      rw [equals, beq_iff_eq]
      exact ⟨fun h => ⟨congrArg string h, nofun⟩, fun h => string.inj h.1⟩
    | _ => simp [equals, asDoubles]
  | .integer a, _, _, hb => by
    cases hb with
    | integer b => exact equals_integers_iff a b
    | float number =>
      rw [equals, Double.beq_iff_unsignedZero (ofWord_isNaN a) number, asDoubles, asDoubles, float.injEq]
      exact ⟨fun h => ⟨h, nofun⟩, And.left⟩
    | _ => simp [equals, asDoubles]
  | .float _, _, ha, hb => by
    cases ha with
    | float number =>
      cases hb with
      | integer b =>
        rw [equals, Double.beq_iff_unsignedZero number (ofWord_isNaN b), asDoubles, asDoubles, float.injEq]
        exact ⟨fun h => ⟨h, nofun⟩, And.left⟩
      | float number' =>
        rw [equals, Double.beq_iff_unsignedZero number number', asDoubles, asDoubles, float.injEq]
        exact ⟨fun h => ⟨h, nofun⟩, And.left⟩
      | _ => simp [equals, asDoubles]
  | .list xs, _, ha, hb => by
    cases ha with
    | list data =>
      cases hb with
      | list data' =>
        rw [equals, asDoubles, asDoubles, list.injEq, confused_list, equalItems_iff data data']
        simp only [not_exists, not_and]
      | _ => simp [equals, asDoubles]
  | .tuple xs, _, ha, hb => by
    cases ha with
    | tuple data =>
      cases hb with
      | tuple data' =>
        rw [equals, asDoubles, asDoubles, tuple.injEq, confused_tuple, equalItems_iff data data']
        simp only [not_exists, not_and]
      | _ => simp [equals, asDoubles]
  | .record xs, _, ha, hb => by
    cases ha with
    | record data =>
      cases hb with
      | record data' =>
        rw [equals, asDoubles, asDoubles, record.injEq, confused_record, equalFields_iff data data']
        simp only [not_exists, not_and]
      | _ => simp [equals, asDoubles]
  | .function _, _, ha, _ => nomatch ha

theorem equalItems_iff : ∀ {xs ys : List Value}, (∀ v ∈ xs, v.IsData) → (∀ v ∈ ys, v.IsData) →
    (equalItems xs ys = true ↔ itemsAsDoubles xs = itemsAsDoubles ys ∧ ∀ p ∈ xs.zip ys, ¬ Confused p.1 p.2)
  | [], [], _, _ => by simp [equalItems, itemsAsDoubles]
  | [], _ :: _, _, _ => by simp [equalItems, itemsAsDoubles]
  | _ :: _, [], _, _ => by simp [equalItems, itemsAsDoubles]
  | x :: xs, y :: ys, hx, hy => by
    rw [List.forall_mem_cons] at hx hy
    rw [equalItems, Bool.and_eq_true, equals_iff hx.1 hy.1, equalItems_iff hx.2 hy.2, itemsAsDoubles, itemsAsDoubles,
      List.cons.injEq, List.zip_cons_cons, List.forall_mem_cons]
    exact and_and_and_comm

theorem equalFields_iff : ∀ {xs ys : List (String × Value)}, (∀ p ∈ xs, p.2.IsData) → (∀ p ∈ ys, p.2.IsData) →
    (equalFields xs ys = true ↔
      fieldsAsDoubles xs = fieldsAsDoubles ys ∧ ∀ p ∈ xs.zip ys, ¬ Confused p.1.2 p.2.2)
  | [], [], _, _ => by simp [equalFields, fieldsAsDoubles]
  | [], _ :: _, _, _ => by simp [equalFields, fieldsAsDoubles]
  | _ :: _, [], _, _ => by simp [equalFields, fieldsAsDoubles]
  | (n, x) :: xs, (m, y) :: ys, hx, hy => by
    rw [List.forall_mem_cons] at hx hy
    rw [equalFields, Bool.and_eq_true, Bool.and_eq_true, beq_iff_eq, equals_iff hx.1 hy.1, equalFields_iff hx.2 hy.2,
      fieldsAsDoubles, fieldsAsDoubles, List.cons.injEq, Prod.mk.injEq, List.zip_cons_cons, List.forall_mem_cons]
    constructor
    · rintro ⟨⟨hname, hvalue, clear⟩, hrest, others⟩
      exact ⟨⟨⟨hname, hvalue⟩, hrest⟩, clear, others⟩
    · rintro ⟨⟨⟨hname, hvalue⟩, hrest⟩, clear, others⟩
      exact ⟨⟨hname, hvalue, clear⟩, hrest, others⟩

end

theorem eq_of_mem_zip_self {α : Type} {l : List α} {a b : α} (h : (a, b) ∈ l.zip l) : a = b := by
  obtain ⟨i, hi, hp⟩ := List.mem_iff_getElem.mp h
  rw [List.getElem_zip, Prod.mk.injEq] at hp
  exact hp.1.symm.trans hp.2

theorem Confused.ne {a b : Value} (h : Confused a b) : a ≠ b := by
  induction h with
  | integer ne same => exact fun h => ne (integer.inj h)
  | list place _ ih | tuple place _ ih =>
    rintro ⟨⟩
    exact ih (eq_of_mem_zip_self place)
  | record place _ ih =>
    rintro ⟨⟩
    exact ih (congrArg Prod.snd (eq_of_mem_zip_self place))

theorem mem_zip_swap {α : Type} {l m : List α} {a b : α} (h : (a, b) ∈ l.zip m) : (b, a) ∈ m.zip l := by
  rw [← List.zip_swap]
  exact List.mem_map_of_mem h

theorem Confused.symm {a b : Value} (h : Confused a b) : Confused b a := by
  induction h with
  | integer ne same => exact .integer ne.symm same.symm
  | list place _ ih => exact .list (mem_zip_swap place) ih
  | tuple place _ ih => exact .tuple (mem_zip_swap place) ih
  | record place _ ih => exact .record (mem_zip_swap place) ih

/-! ### The operators -/

/-- An operator holds of two values. -/
def Holds (op : Operator) (a b : Value) : Prop :=
  ∀ (origin : Origin) (s : Span), op.apply origin [a, b] s = .ok (.boolean true)

theorem holds_iff {op : Operator} {a b : Value} {holds : Bool}
    (applied : ∀ (origin : Origin) (s : Span), op.apply origin [a, b] s = .ok (.boolean holds)) :
    Holds op a b ↔ holds = true := by
  constructor
  · intro h
    exact boolean.inj (Except.ok.inj ((applied [] default).symm.trans (h [] default)))
  · intro h origin s
    rw [applied, h]

theorem holds_equal_iff {a b : Value} : Holds .equal a b ↔ a.equals b = true := holds_iff fun _ _ => rfl

theorem holds_notEqual_iff {a b : Value} : Holds .notEqual a b ↔ a.equals b = false := by
  rw [← Bool.not_eq_true']
  exact holds_iff fun _ _ => rfl

/-- What is true of equality on three values. -/
structure AlmostEquivalent (a b c : Value) : Prop where
  decided : Holds .notEqual a b ↔ ¬ Holds .equal a b
  reflexive : Holds .equal a a
  symmetric : Holds .equal a b → Holds .equal b a
  transitive : Holds .equal a b → Holds .equal b c → (Holds .equal a c ↔ ¬ Confused a c)

/-- Equality of data is an equivalence, but for integers that are confused with one another. -/
theorem almostEquivalent {a b c : Value} (ha : a.IsData) (hb : b.IsData) (hc : c.IsData) : AlmostEquivalent a b c where
  decided := by rw [holds_equal_iff, holds_notEqual_iff, Bool.not_eq_true]
  reflexive := holds_equal_iff.mpr ((equals_iff ha ha).mpr ⟨rfl, fun h => h.ne rfl⟩)
  symmetric h := by
    obtain ⟨same, clear⟩ := (equals_iff ha hb).mp (holds_equal_iff.mp h)
    exact holds_equal_iff.mpr ((equals_iff hb ha).mpr ⟨same.symm, fun h => clear h.symm⟩)
  transitive hab hbc := by
    have first := ((equals_iff ha hb).mp (holds_equal_iff.mp hab)).1
    have same := first.trans ((equals_iff hb hc).mp (holds_equal_iff.mp hbc)).1
    rw [holds_equal_iff, equals_iff ha hc]
    exact ⟨And.right, fun clear => ⟨same, clear⟩⟩

/-- A list with an integer and one with a float are equal, either way round and there and back. -/
theorem almostEquivalent_lists : Holds .equal (.list [.float 3, .null]) (.list [.integer 3, .null]) ∧
    Holds .equal (.list [.integer 3, .null]) (.list [.integer 3, .null]) := by
  have data : ∀ x : Value, x.IsData → (list [x, null]).IsData := by
    intro x hx
    refine .list ?_
    rintro v (_ | ⟨_, _ | ⟨_, ⟨⟩⟩⟩)
    exacts [hx, .null]
  have mixed := almostEquivalent (data _ (.integer 3)) (data (.float 3) (.float rfl)) (data _ (.integer 3))
  have there : Holds .equal (.list [.integer 3, .null]) (.list [.float 3, .null]) := fun _ _ => rfl
  have back := mixed.symmetric there
  exact ⟨back, (mixed.transitive there back).mpr fun h => h.ne rfl⟩

/-- Equality of data is not transitive: `2 ^ 53` as a double is equal to the integer and to the next one. -/
theorem equal_not_transitive : ¬ ∀ a b c : Value, a.IsData → b.IsData → c.IsData →
    Holds .equal a b → Holds .equal b c → Holds .equal a c := by
  intro transitive
  have above : Holds .equal (.integer 9007199254740993) (.float 9007199254740992) := fun _ _ => rfl
  have here : Holds .equal (.float 9007199254740992) (.integer 9007199254740992) := fun _ _ => rfl
  have equal := transitive _ _ _ (.integer _) (.float rfl) (.integer _) above here
  exact absurd (holds_equal_iff.mp equal) (by decide)

end Value

end RecordStats
