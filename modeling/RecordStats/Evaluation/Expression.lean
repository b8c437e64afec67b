import RecordStats.Evaluation.ListMethod
import RecordStats.Evaluation.Operation
import RecordStats.Value.Scope

/-!
The value of an expression in a scope, and what a function's body gives. Operands are evaluated from
left to right and before the callee, and both operands of `and` and `or` are. Calls are left to a
`Caller`, so that evaluation itself follows the expression.
-/

namespace RecordStats

namespace Expr

mutual

def evaluate (call : Caller) (scope : Scope) (origin : Origin) : Expr → Outcome Value
  | literal value _ => .ok (.ofLiteral value)
  | name text s => match scope.get? text with
    | some v => .ok v
    | none => Outcome.failAt (.unbound text) s
  | lambda parameters body _ =>
    .ok (.function (.closure origin none ⟨parameters, body⟩ scope.freeze))
  | operator op operands s =>
    match op, operands with
    | .member, [receiver, member] => match member.name? with
      | some text => do
        let v ← evaluate call scope (0 :: origin) receiver
        Operator.apply .member origin [v, .string text] s
      | none => Outcome.failAt .memberName member.span
    | .member, _ => Outcome.failAt .memberOperands s
    | op, operands => do
      let vs ← evaluateAll call scope origin 0 operands
      op.apply origin vs s
  | Expr.call callee arguments s => do
    let vs ← evaluateAll call scope origin 2 arguments
    let f ← evaluate call scope (0 :: origin) callee
    (call (1 :: origin) f vs).orAt s

/-- The values of some expressions in order, each made at a branch of its own, counted from `i`. -/
def evaluateAll (call : Caller) (scope : Scope) (origin : Origin) : Nat → List Expr → Outcome (List Value)
  | _, [] => .ok []
  | i, e :: rest => do
    let v ← evaluate call scope (i :: origin) e
    let vs ← evaluateAll call scope origin (i + 1) rest
    return v :: vs

end

/-- What does not select a member evaluates all its operands. -/
theorem evaluate_operator (call : Caller) (scope : Scope) (origin : Origin) {op : Operator} {operands : List Expr}
    (other : ¬∃ receiver member, op = .member ∧ operands = [receiver, member]) (s : Span) :
    evaluate call scope origin (operator op operands s) =
      if op = .member then Outcome.failAt .memberOperands s
      else evaluateAll call scope origin 0 operands >>= fun vs => op.apply origin vs s := by
  by_cases hop : op = .member
  · subst hop
    rw [evaluate, if_pos rfl]
    exact fun receiver member heq => other ⟨receiver, member, rfl, heq⟩
  · rw [evaluate, if_neg hop]
    · exact hop
    · exact fun _ _ h => absurd h hop

end Expr

/-- The value of an expression that is evaluated for a binding or for itself. -/
def Scope.evaluate (call : Caller) (scope : Scope) (e : Expr) : Outcome Value :=
  e.evaluate call scope scope.place

/-- The scope after a definition. Other statements bind nothing and have no place in a function. -/
def Scope.bind (call : Caller) (scope : Scope) : Statement → Outcome Scope
  | .define target e _ => do return scope.define target.text (← scope.evaluate call e)
  | .function target parameters body _ =>
    .ok (scope.defineFunction target.text
      (.function (.closure scope.place (some target.text) ⟨parameters, body⟩ scope.freeze)))
  | s => Outcome.failAt .bodyStatement s.span

namespace Lambda

def result (call : Caller) : Scope → List Statement → Outcome Value
  | _, [] => Outcome.fail .emptyBody
  | scope, [last] => match last with
    | .result e _ => scope.evaluate call e
    | last => Outcome.failAt .bodyResult last.span
  | scope, s :: rest => do
    let scope ← scope.bind call s
    result call scope rest

/-- A function on its arguments: they are bound in a new frame over what the function has taken with
it. -/
def apply (call : Caller) (origin : Origin) (f : Lambda) (env : Env Value) (arguments : List Value) :
    Outcome Value :=
  if f.parameters.length = arguments.length then
    result call ((Scope.above env origin).defineAll ((f.parameters.map Name.text).zip arguments)) f.body
  else Outcome.fail (.parameterCount f.parameters.length arguments.length)

end Lambda

end RecordStats
