import RecordStats.Builtin.Apply
import RecordStats.Evaluation.Expression
import RecordStats.Value.Basic

/-!
Calls. A call may nest further calls only to a given depth; beyond it the evaluation stops without a
result.

Functions of the host are those that whoever embeds the language supplies. A host function is a pure
function of its arguments; it may call function values of the program on the way.
-/

namespace RecordStats

/-- How a host function goes on: it has a result, it fails, or it wants a call's result first. -/
inductive Reply where
  | finish (v : Value)
  | raise (message : String)
  | call (f : Value) (arguments : List Value) (resume : Value → Reply)

/-- The host functions by their numbers. -/
abbrev Host := Nat → List Value → Reply

def Host.none : Host := fun _ _ => .raise "no such function"

def VectorMethod.apply (m : VectorMethod) (receiver : Value) (arguments : List Value) :
    Except Cause Value := do
  match arguments with
  | [v] =>
    let this ← Overload.requireVector receiver
    let other ← Overload.requireVector v
    return .float (this.measure m other)
  | arguments => .error (.argumentCount m.name (1, 1) arguments.length)

def Method.apply (call : Caller) (origin : Origin) (m : Method) (receiver : Value)
    (arguments : List Value) : Outcome Value :=
  match m with
  | .list m => m.apply call origin receiver arguments
  | .vector m => .ofCause (m.apply receiver arguments)

/-- How a host function's answer ends; its calls are made at branches of their own, counted from
`i`. -/
def Reply.run (call : Caller) (origin : Origin) : Nat → Reply → Outcome Value
  | _, finish v => .ok v
  | _, raise message => Outcome.fail (.raised message)
  | i, .call f arguments resume =>
    match call (i :: origin) f arguments with
    | .ok v => run call origin (i + 1) (resume v)
    | .error stop => .error stop

/-- Calls that nest at most so deep. -/
def Host.caller (host : Host) : Nat → Caller
  | 0, _, _, _ => .error .tooDeep
  | depth + 1, origin, f, arguments =>
    match f with
    | .function (.closure _ _ lambda env) => lambda.apply (host.caller depth) origin env arguments
    | .function (.builtin b) => .ofCause (b.apply arguments)
    | .function (.host number) => (host number arguments).run (host.caller depth) origin 0
    | .function (.method _ receiver m) => m.apply (host.caller depth) origin receiver arguments
    | other => Outcome.fail (.notCallable other.kind)

/-- How deep calls nest in the programs that are run. -/
def Host.maxDepth : Nat := 1000000

end RecordStats
