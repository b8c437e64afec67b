import RecordStats.Proofs.Grammar.Allowance
import RecordStats.Proofs.Grammar.Rule

/-! Knots. Constructs that are nested in themselves are read within an allowance for the depth of nesting. On a stream
    it is never spent, so each rule of the grammar does what its body says, with the rules that it calls. -/

namespace RecordStats.Parser

variable {α : Type}

/-- A parser that reads one level by reading the next, as deep as allowed. -/
structure Knot (level : Parser α → Parser α) (nested : Nat → Parser α) (M : α → Prop) : Prop where
  zero : nested 0 = throw .spent
  succ : ∀ n, nested (n + 1) = level (nested n)
  below : ∀ ⦃p q⦄, Below p q → Below (level p) (level q)
  takes : ∀ ⦃most p⦄, Takes .any most p M → Takes .any (most + 1) (level p) M

namespace Knot

variable {level : Parser α → Parser α} {nested : Nat → Parser α} {M : α → Prop} {s : List Lexeme}

theorem nested_takes (h : Knot level nested M) (n : Nat) : Takes .any n (nested n) M := by
  induction n with
  | zero => exact .empty
  | succ n ih =>
    rw [h.succ]
    exact h.takes ih

theorem nested_below (h : Knot level nested M) {few many : Nat} (hle : few ≤ many) :
    Below (nested few) (nested many) := by
  induction few generalizing many with
  | zero =>
    rw [h.zero]
    exact .spent
  | succ few ih =>
    cases many with
    | zero => exact absurd hle (Nat.not_succ_le_zero few)
    | succ many =>
      rw [h.succ, h.succ]
      exact h.below (ih (Nat.le_of_succ_le_succ hle))

/-- As many levels as there are lexemes are enough, and more do the same. -/
theorem nested_eq (h : Knot level nested M) (hs : Stream .any s) {n : Nat} (enough : s.length ≤ n) :
    nested s.length s = nested n s :=
  (h.nested_below enough).eq (h.nested_takes s.length s hs (Nat.le_refl _))

open Classical in
/-- Without an allowance: one level, and further ones where the level says so. -/
theorem unfolds (h : Knot level nested M) (hs : Stream .any s) :
    nested (s.length + 1) s = level (fun t => nested (t.length + 1) t) s := by
  -- the next level where it is on a stream, and nothing elsewhere, is below both
  let inner : Parser α := fun t =>
    if Stream .any t ∧ t.length ≤ s.length then nested s.length t else .error .spent
  have inner_takes : Takes .any s.length inner M := by
    intro t ht few
    have run : inner t = nested s.length t := if_pos ⟨ht, few⟩
    exact (h.nested_takes s.length t ht few).congr run
  have first : Below inner (nested s.length) := by
    intro t
    by_cases ht : Stream .any t ∧ t.length ≤ s.length
    · exact .inr (if_pos ht)
    · exact .inl (if_neg ht)
  have second : Below inner fun t => nested (t.length + 1) t := by
    intro t
    by_cases ht : Stream .any t ∧ t.length ≤ s.length
    · refine .inr ((if_pos ht).trans ?_)
      exact (h.nested_eq ht.1 ht.2).symm.trans (h.nested_eq ht.1 (Nat.le_succ _))
    · exact .inl (if_neg ht)
  have taken := h.takes inner_takes s hs (Nat.le_succ _)
  rw [h.succ]
  exact ((h.below first).eq taken).symm.trans ((h.below second).eq taken)

end Knot

/-! ### The knots of the grammar -/

open Pieces

theorem expression_knot : Knot (fun inner => Open.expression (function inner) (disjunction inner)) expressionWithin
    (Expr.MadeOf .any) where
  zero := rfl
  succ _ := rfl
  below _ _ h := .openExpression (.openFunction (.functionBody h)) (.disjunction h)
  takes _ _ h := .openExpression (.function any_closed h) (.disjunction any_closed h)

theorem negation_knot : Knot (fun inner => Open.negation inner (comparison expression)) (negationWithin expression)
    (Expr.MadeOf .any) where
  zero := rfl
  succ _ := rfl
  below _ _ h := .openNegation h (.refl _)
  takes _ _ h := .openNegation any_closed h (.comparison any_closed (.expression any_closed))

theorem factor_knot :
    Knot (fun inner => Open.factor inner (Open.power (operand expression) inner)) (factorWithin expression)
      (Expr.MadeOf .any) where
  zero := rfl
  succ _ := rfl
  below _ _ h := .openFactor h (.openPower (.refl _) h)
  takes _ _ h := .openFactor any_closed h (.openPower any_closed (.operand any_closed (.expression any_closed)) h)

theorem body_knot : Knot (fun inner => Open.functionBody expression (definition expression inner))
    (bodyWithin expression) (Takes.Body .any) where
  zero := rfl
  succ _ := rfl
  below _ _ h := .openBody (.refl _) (.definition (.refl _) h)
  takes _ _ h := .openBody any_closed (.expression any_closed)
    ((Takes.definition any_closed (.expression any_closed) h).fewer (Nat.le_succ _))

theorem statement_knot :
    Knot (fun inner => Open.statement collect (source inner) (region inner) (vary inner) (loop inner) define)
      statementWithin (Statement.MadeOf .any) where
  zero := rfl
  succ _ := rfl
  below _ _ h := .openStatement (.source h) (.region h) (.vary h) (.loop h)
  takes _ _ h := .openStatement (.collect any_closed)
    (fun inclusive _ hstart => .source any_closed h inclusive hstart) (.region any_closed h) (.vary any_closed h)
    (.loop any_closed h) (.define any_closed)

/-- On a stream each rule does what its body says. -/
theorem Rule.parser_eq (r : Rule) {s : List Lexeme} (hs : Stream .any s) : r.parser s = r.body Rule.parser s := by
  cases r with
  | expression => exact expression_knot.unfolds hs
  | negation => exact negation_knot.unfolds hs
  | factor => exact factor_knot.unfolds hs
  | functionBody => exact body_knot.unfolds hs
  | statement => exact statement_knot.unfolds hs
  | _ => rfl

end RecordStats.Parser
