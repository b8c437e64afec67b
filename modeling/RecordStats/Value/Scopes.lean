import RecordStats.Value.Scope

/-!
Scopes side by side: what is done with them, one operation after another, and what becomes of them and of the
snapshots taken of them.
-/

namespace RecordStats

namespace Scopes

/-- What can be done with scopes. Scopes and snapshots go by their numbers, in the order in which they are made. -/
inductive Operation where
  | root (standing : Dict Value) (data : List (String × Value))
  | fromFrozen (snapshot : Nat) (base : Origin)
  | child (scope : Nat)
  | define (scope : Nat) (name : String) (v : Value)
  | defineFunction (scope : Nat) (name : String) (v : Value)
  | dropFunctions (scope : Nat)
  | freeze (scope : Nat)

end Scopes

/-- The scopes that have been made, and the snapshots that have been taken. -/
structure Scopes where
  scopes : List Scope
  snapshots : List (Env Value)

namespace Scopes

def empty : Scopes :=
  ⟨[], []⟩

def add (w : Scopes) (made : Option Scope) : Scopes :=
  { w with scopes := w.scopes ++ made.toList }

def change (w : Scopes) (i : Nat) (f : Scope → Scope) : Scopes :=
  { w with scopes := w.scopes.modify i f }

/-- Does an operation, if what it needs is there. -/
def step (w : Scopes) : Operation → Scopes
  | .root standing data => w.add (some (.root standing data))
  | .fromFrozen k base => w.add ((w.snapshots[k]?).map fun env => .above env base)
  | .child i => w.add ((w.scopes[i]?).map Scope.child)
  | .define i name v => w.change i fun s => s.define name v
  | .defineFunction i name v => w.change i fun s => s.defineFunction name v
  | .dropFunctions i => w.change i Scope.dropFunctions
  | .freeze i => { w with snapshots := w.snapshots ++ ((w.scopes[i]?).map Scope.freeze).toList }

def run (w : Scopes) (ops : List Operation) : Scopes :=
  ops.foldl step w

end Scopes

end RecordStats
