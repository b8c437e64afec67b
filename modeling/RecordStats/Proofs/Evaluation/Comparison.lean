import Mathlib
import RecordStats.Evaluation.Expression
import RecordStats.Proofs.Double.Integer

/-! Comparisons of integers. Whether two integers are equal is told exactly, but they are ordered as doubles, each
    rounded first. So the operators agree as long as no two different integers have one nearest double, as up to
    `2 ^ 53`; two that have are neither equal nor in order. -/

namespace RecordStats

open Double (nearestWhole)

namespace Operator

/-- What the operators mean that tell whether two whole numbers are equal. -/
inductive Equating : Operator → (Int → Int → Bool) → Prop
  | equal : Equating equal fun a b => a = b
  | notEqual : Equating notEqual fun a b => a ≠ b

/-- What the operators mean that order whole numbers. -/
inductive Ranking : Operator → (Int → Int → Bool) → Prop
  | less : Ranking less fun a b => a < b
  | lessEqual : Ranking lessEqual fun a b => a ≤ b
  | greater : Ranking greater fun a b => a > b
  | greaterEqual : Ranking greaterEqual fun a b => a ≥ b

/-- What comparisons give on two integers. They are all exact if the two are equal as soon as their nearest doubles
    are, and only then. -/
structure ComparesAsDoubles (a b : Int) (results : Operator → Outcome Value) : Prop where
  equating : ∀ op holds, Equating op holds → results op = .ok (.boolean (holds a b))
  ranking : ∀ op holds, Ranking op holds → results op = .ok (.boolean (holds (nearestWhole a) (nearestWhole b)))
  exact : (∀ op holds, Equating op holds ∨ Ranking op holds → results op = .ok (.boolean (holds a b))) ↔
    (nearestWhole a = nearestWhole b → a = b)

variable {op : Operator} {holds : Int → Int → Bool}

theorem Equating.apply (h : Equating op holds) (origin : Origin) (a b : Int64) (s : Span) :
    op.apply origin [.integer a, .integer b] s = .ok (.boolean (holds a.toInt b.toInt)) := by
  have same : (a == b) = decide (a.toInt = b.toInt) := by
    rw [Bool.eq_iff_iff, beq_iff_eq, decide_eq_true_iff, Int64.toInt_inj]
  cases h with
  | equal =>
    show (.ok (.boolean (a == b)) : Outcome Value) = _
    rw [same]
  | notEqual =>
    show (.ok (.boolean !(a == b)) : Outcome Value) = _
    rw [same, ← decide_not]

theorem Ranking.apply (h : Ranking op holds) (origin : Origin) (a b : Int64) (s : Span) :
    op.apply origin [.integer a, .integer b] s =
      .ok (.boolean (holds (nearestWhole a.toInt) (nearestWhole b.toInt))) := by
  have ha := Double.denotes_ofWord a
  have hb := Double.denotes_ofWord b
  cases h with
  | less =>
    show (.ok (.boolean (decide (Double.ofWord a < Double.ofWord b))) : Outcome Value) = _
    simp only [ha.lt_iff hb, Int.cast_lt]
  | lessEqual =>
    show (.ok (.boolean (decide (Double.ofWord a ≤ Double.ofWord b))) : Outcome Value) = _
    simp only [ha.le_iff hb, Int.cast_le]
  | greater =>
    show (.ok (.boolean (decide (Double.ofWord b < Double.ofWord a))) : Outcome Value) = _
    simp only [hb.lt_iff ha, Int.cast_lt, gt_iff_lt]
  | greaterEqual =>
    show (.ok (.boolean (decide (Double.ofWord b ≤ Double.ofWord a))) : Outcome Value) = _
    simp only [hb.le_iff ha, Int.cast_le, ge_iff_le]

/-- Where the nearest doubles are equal only if the integers are, they are in the same order. -/
theorem Ranking.nearestWhole_eq (h : Ranking op holds) {a b : Int} (inj : nearestWhole a = nearestWhole b → a = b) :
    holds (nearestWhole a) (nearestWhole b) = holds a b := by
  have lt_iff := Double.nearestWhole_lt_iff inj
  have gt_iff := Double.nearestWhole_lt_iff fun heq => (inj heq.symm).symm
  cases h with
  | less => simp only [lt_iff]
  | lessEqual => simp only [← not_lt, gt_iff]
  | greater => simp only [gt_iff_lt, gt_iff]
  | greaterEqual => simp only [ge_iff_le, ← not_lt, lt_iff]

theorem comparesAsDoubles {a b : Int} {results : Operator → Outcome Value}
    (equating : ∀ op holds, Equating op holds → results op = .ok (.boolean (holds a b)))
    (ranking : ∀ op holds, Ranking op holds →
      results op = .ok (.boolean (holds (nearestWhole a) (nearestWhole b)))) : ComparesAsDoubles a b results where
  equating := equating
  ranking := ranking
  exact := by
    constructor
    · -- what is at most and at least the other is equal to it
      intro exact heq
      have below := (ranking _ _ .lessEqual).symm.trans (exact _ _ (.inr .lessEqual))
      have above := (ranking _ _ .greaterEqual).symm.trans (exact _ _ (.inr .greaterEqual))
      simp only [heq, Except.ok.injEq, Value.boolean.injEq, decide_eq_decide, ge_iff_le, le_refl, true_iff]
        at below above
      exact le_antisymm below above
    · rintro inj op holds (h | h)
      · exact equating op holds h
      · rw [ranking op holds h, h.nearestWhole_eq inj]

end Operator

namespace Expr

/-- The comparisons of two expressions that are integers. -/
theorem evaluate_comparison {call : Caller} {scope : Scope} {origin : Origin} {e₁ e₂ : Expr} {a b : Int64}
    (left : e₁.evaluate call scope (0 :: origin) = .ok (.integer a))
    (right : e₂.evaluate call scope (1 :: origin) = .ok (.integer b)) (s : Span) :
    Operator.ComparesAsDoubles a.toInt b.toInt fun op =>
      (operator op [e₁, e₂] s).evaluate call scope origin := by
  have applied (op : Operator) (h : op ≠ .member) :
      (operator op [e₁, e₂] s).evaluate call scope origin = op.apply origin [.integer a, .integer b] s := by
    rw [evaluate_operator _ _ _ (by rintro ⟨_, _, rfl, -⟩; exact h rfl), if_neg h]
    simp only [evaluateAll, left, right]
    rfl
  refine Operator.comparesAsDoubles (fun op holds h => ?_) fun op holds h => ?_
  · rw [applied op (by rintro rfl; cases h)]
    exact h.apply origin a b s
  · rw [applied op (by rintro rfl; cases h)]
    exact h.apply origin a b s

/-- The last two integers before doubles have gaps are in order. -/
theorem evaluate_comparison_literals :
    (operator .less [.literal (.integer 9007199254740991) default, .literal (.integer 9007199254740992) default]
        default).evaluate (fun _ _ _ => Outcome.fail .emptyBody) (Scope.above ⟨[], []⟩ []) [] = .ok (.boolean true) := by
  have compared := @evaluate_comparison (fun _ _ _ => Outcome.fail .emptyBody) (Scope.above ⟨[], []⟩ []) []
    (.literal (.integer 9007199254740991) default) (.literal (.integer 9007199254740992) default) 9007199254740991
    9007199254740992 rfl rfl default
  exact compared.exact.mpr (by decide) _ _ (.inr .less)

/-- Comparisons are not exact on all integers: `2 ^ 53` is not less than the next integer, which has no double of its
    own, though the two are not equal either. -/
theorem comparison_not_exact : ¬ ∀ (op : Operator) (holds : Int → Int → Bool) (a b : Int64),
    op.Equating holds ∨ op.Ranking holds → ∀ (call : Caller) (scope : Scope) (origin : Origin),
      (operator op [.literal (.integer a) default, .literal (.integer b) default] default).evaluate call scope origin =
        .ok (.boolean (holds a.toInt b.toInt)) := by
  intro exact
  have less := exact _ _ 9007199254740992 9007199254740993 (.inr .less) (fun _ _ _ => Outcome.fail .emptyBody)
    (Scope.above ⟨[], []⟩ []) []
  have rounded := Operator.Ranking.less.apply [] 9007199254740992 9007199254740993 default
  have told := Value.boolean.inj (Except.ok.inj (rounded.symm.trans less))
  exact absurd told (by decide)

end Expr

end RecordStats
