import RecordStats.Record.Action
import RecordStats.Record.Statement

/-!
The execution of statements on a record. Each statement finds the tree as the ones before it have left
it, and changes it in place. When a statement fails, what was filled before it stays filled.
-/

namespace RecordStats

/-- Executes a block once for each row of bindings, each time in a fresh scope. -/
def executeTurns (block : Scope → Action Namespace Scope) (scope : Scope) :
    List (List (String × Value)) → Action Namespace Unit
  | [] => pure ()
  | row :: rest => do
    let _ ← block (scope.child.defineAll row)
    executeTurns block scope rest

/-- Executes a block once for each variation, in the namespace of its label. -/
def executeVariations (call : Caller) (block : Scope → Action Namespace Scope) (scope : Scope) :
    List (Variation Expr) → Action Namespace Unit
  | [] => pure ()
  | v :: rest => do
    let inner ← variationScope call scope scope.child v.assignments
    let _ ← Namespace.within v.name (Node.opened .variationNotNamespace v.span (block inner))
    executeVariations call block scope rest

mutual

/-- Executes a statement in the namespace that it stands in, and gives the scope after it. -/
def Statement.execute (call : Caller) (tag : Option String) (scope : Scope) :
    Statement → Action Namespace Scope
  | .define target e s => .ofOutcome (scope.bind call (.define target e s))
  | .function target parameters body s => .ofOutcome (scope.bind call (.function target parameters body s))
  | .collect c _ => do
    let w ← weightOf call scope c.weight
    Namespace.within c.name (Node.enter call scope w)
    return scope
  | .loop ranges block s => do
    executeTurns (fun inner => executeBlock call tag inner block) scope (← turns call scope ranges s)
    return scope
  | .vary variations block _ => do
    executeVariations call (fun inner => executeBlock call tag inner block) scope variations
    return scope
  | .region name predicate axes block _ => do
    if ← takes call scope predicate then
      let _ ← Namespace.within name
        (Node.routed call scope name.span (executeBlock call tag scope.child block) axes.length)
      return scope
    else return scope
  | .source inclusive patterns block _ =>
    if acceptsTag inclusive patterns tag then executeBlock call tag scope block else return scope
  | .result _ s => .ofOutcome (Outcome.failAt .bareExpression s)

/-- Executes the statements of a block, one after another. -/
def executeBlock (call : Caller) (tag : Option String) (scope : Scope) :
    List Statement → Action Namespace Scope
  | [] => pure scope
  | s :: rest => do
    let scope ← s.execute call tag scope
    executeBlock call tag scope rest

end

end RecordStats
