import RecordStats.Program.Basic

/-! The trees that texts stand for. An operator has its operands, and a member access names its member; a
    function's body is some definitions and one result, and its parameters are different names. Result
    statements stand nowhere else, a collector has an expression unless it counts, and no block statement goes
    without variables, variations or patterns. The number of arguments of a call is bounded by `most`. -/

namespace RecordStats

namespace Expr

mutual

/-- The expression is one that a text can hold. -/
def WellFormed (most : Nat) : Expr → Prop
  | literal _ _ => True
  | name _ _ => True
  | operator op operands _ =>
    operands.length = op.arity ∧
      (op = .member → ∃ receiver text s, operands = [receiver, name text s]) ∧ WellFormedAll most operands
  | call callee arguments _ => callee.WellFormed most ∧ arguments.length ≤ most ∧ WellFormedAll most arguments
  | lambda parameters body _ => (parameters.map Name.text).Nodup ∧ WellFormedBody most body

/-- All of some expressions are well-formed. -/
def WellFormedAll (most : Nat) : List Expr → Prop
  | [] => True
  | e :: rest => e.WellFormed most ∧ WellFormedAll most rest

/-- The statements are a function's body: definitions, and then a result. -/
def WellFormedBody (most : Nat) : List Statement → Prop
  | [] => False
  | .result e _ :: rest => e.WellFormed most ∧ rest = []
  | .define _ e _ :: rest => e.WellFormed most ∧ WellFormedBody most rest
  | .function _ parameters body _ :: rest =>
    (parameters.map Name.text).Nodup ∧ WellFormedBody most body ∧ WellFormedBody most rest
  | _ :: _ => False

end

theorem wellFormedAll_iff {most : Nat} {es : List Expr} :
    WellFormedAll most es ↔ ∀ e ∈ es, e.WellFormed most := by
  induction es with
  | nil => simp [WellFormedAll]
  | cons e rest ih => rw [WellFormedAll, ih, List.forall_mem_cons]

end Expr

/-- The expressions of an axis are well-formed. -/
structure Axis.WellFormed (most : Nat) (a : Axis Expr) : Prop where
  binning : a.binning.WellFormed most
  expression : a.expression.WellFormed most

/-- All that a collector evaluates is well-formed, and it has an expression if it does not only count. -/
structure Collector.WellFormed (most : Nat) (c : Collector Expr) : Prop where
  measured : c.expression = none ↔ c.statistic = .count
  expression : ∀ e ∈ c.expression, e.WellFormed most
  axes : ∀ a ∈ c.axes, a.WellFormed most
  weight : ∀ e ∈ c.weight, e.WellFormed most

namespace Statement

mutual

/-- The statement is one that a program can hold. -/
def WellFormed (most : Nat) : Statement → Prop
  | define _ e _ => e.WellFormed most
  | function _ parameters body _ => (parameters.map Name.text).Nodup ∧ Expr.WellFormedBody most body
  | result _ _ => False
  | collect c _ => c.WellFormed most
  | loop ranges block _ => ranges ≠ [] ∧ (∀ b ∈ ranges, b.expression.WellFormed most) ∧ WellFormedBlock most block
  | vary variations block _ =>
    variations ≠ [] ∧ (∀ v ∈ variations, ∀ b ∈ v.assignments, b.expression.WellFormed most) ∧
      WellFormedBlock most block
  | region _ predicate axes block _ =>
    (∀ e ∈ predicate, e.WellFormed most) ∧ (∀ a ∈ axes, a.WellFormed most) ∧ WellFormedBlock most block
  | source _ patterns block _ => patterns ≠ [] ∧ WellFormedBlock most block

/-- All statements of a block are well-formed. -/
def WellFormedBlock (most : Nat) : List Statement → Prop
  | [] => True
  | s :: rest => s.WellFormed most ∧ WellFormedBlock most rest

end

theorem wellFormedBlock_iff {most : Nat} {block : List Statement} :
    WellFormedBlock most block ↔ ∀ s ∈ block, s.WellFormed most := by
  induction block with
  | nil => simp [WellFormedBlock]
  | cons s rest ih => rw [WellFormedBlock, ih, List.forall_mem_cons]

end Statement

/-- The statements of a program are well-formed. -/
def Program.WellFormed (most : Nat) (p : Program) : Prop :=
  Statement.WellFormedBlock most p.block

end RecordStats
