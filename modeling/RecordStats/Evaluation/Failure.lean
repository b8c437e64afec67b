import RecordStats.Decimal.Text
import RecordStats.Diagnostic
import RecordStats.Path
import RecordStats.Program.Basic

/-!
What can go wrong when a tree of statistics is built or a record is evaluated. Causes keep what the
message needs; a value that does not fit is kept as its text.
-/

namespace RecordStats

/-- Why a program fails on a record, or cannot be given a tree. -/
inductive Cause where
  -- names
  | unbound (name : String)
  -- calls
  | notCallable (kind : String)
  | argumentCount (callable : String) (arity : Nat × Nat) (given : Nat)
  | parameterCount (expected given : Nat)
  -- operands
  | notNumber (text : String)
  | notBoolean (text : String)
  | inapplicable (op : Operator) (kinds : List String)
  | noListMethod (name : String)
  | noMember (kind name : String)
  | noField (name : String)
  | indexOutOfRange (index : Int) (kind : String) (length : Nat)
  | overflow (op : Operator)
  | divisionByZero
  | moduloByZero
  | zeroToNegative
  -- methods
  | notVector (text : String)
  | keyNotNumber (text : String)
  | filterNotBoolean (text : String)
  | notNested (text : String)
  | crossNotList (kind : String)
  -- builtin functions
  | needsNumber (function kind : String)
  | needsInteger (function kind : String)
  | domain (function : String)
  | notIntegral (function : String) (x : Float)
  | outOfRange (function : String)
  | negativeFactorial
  | factorialOverflow (n : Int)
  | absOverflow
  -- functions of the host
  | raised (message : String)
  -- statements
  | weightNotNumber (text : String)
  | sampleNotNumber (text : String)
  | predicateNotBoolean (text : String)
  | notIterable (name : String)
  | unequalLengths
  -- declarations
  | duplicate (name : String)
  | notBinning
  | regularArguments
  | binCount
  | lowNotNumber
  | highNotNumber
  | highNotAbove
  | edgeNotNumber
  | fewEdges
  | edgesNotIncreasing
  -- uncertainties
  | unknownEstimator (name : String)
  | estimatorUnsupported (estimator statistic : String)
  | estimatorInapplicable (estimator statistic : String)
  | noEstimator
  -- trees that no text produces
  | memberOperands
  | memberName
  | operandCount (op : Operator)
  | bodyStatement
  | emptyBody
  | bodyResult
  | uninitialized (name : String)
  | axisNotBinning
  | regionNotNamespace
  | variationNotNamespace
  | fillsNamespace (name : Path)
  | noBin (slot : String)
  | bareExpression
  | noExpression (statistic : String)

def Path.describe (name : Path) : String :=
  if name.isEmpty then "the root" else "'" ++ name.text ++ "'"

namespace Cause

def kind : Cause → ErrorKind
  | unbound _ => .name
  | noField _ | indexOutOfRange _ _ _ | overflow _ | divisionByZero | moduloByZero | zeroToNegative
  | domain _ | notIntegral _ _ | outOfRange _ | negativeFactorial | factorialOverflow _ | absOverflow
  | raised _ => .runtime
  | memberOperands | memberName | operandCount _ | bodyStatement | emptyBody | bodyResult
  | uninitialized _ | axisNotBinning | regionNotNamespace | variationNotNamespace | fillsNamespace _
  | noBin _ | bareExpression | noExpression _ => .internal
  | _ => .type

/-- A number of arguments as a message gives it. -/
def arityText (arity : Nat × Nat) : String :=
  if arity.1 = arity.2 then toString arity.1 else toString arity.1 ++ " to " ++ toString arity.2

def message : Cause → String
  | unbound name => "no symbol named '" ++ name ++ "' in this scope"
  | notCallable kind => kind ++ " value is not callable"
  | argumentCount callable arity given =>
    callable ++ " takes " ++ arityText arity ++ " arguments (" ++ toString given ++ " given)"
  | parameterCount expected given =>
    "wrong number of arguments: expecting " ++ toString expected ++ ", encountered " ++ toString given
  | notNumber text => "value is not a number: " ++ text
  | notBoolean text => "value is not a boolean: " ++ text
  | inapplicable op kinds => "'" ++ op.symbol ++ "' does not apply to (" ++ ", ".intercalate kinds ++ ")"
  | noListMethod name => "lists do not have a method named '" ++ name ++ "'"
  | noMember kind name => kind ++ " value has no attribute '" ++ name ++ "'"
  | noField name => "record has no field named '" ++ name ++ "'"
  | indexOutOfRange index kind length =>
    "index " ++ toString index ++ " out of range for " ++ kind ++ " of length " ++ toString length
  | overflow op => "integer overflow in '" ++ op.symbol ++ "'"
  | divisionByZero => "division by zero"
  | moduloByZero => "modulo by zero"
  | zeroToNegative => "0.0 cannot be raised to a negative power"
  | notVector text => "value is not a Lorentz vector: " ++ text
  | keyNotNumber text => "key function returned a non-number: " ++ text
  | filterNotBoolean text => "filter function returned a non-boolean: " ++ text
  | notNested text => "cannot flatten a non-list item: " ++ text
  | crossNotList kind => "cross requires a list, not " ++ kind
  | needsNumber function kind => function ++ "() requires a number, not " ++ kind
  | needsInteger function kind => function ++ "() requires an integer, not " ++ kind
  | domain function => "math domain error in " ++ function ++ "()"
  | notIntegral function x =>
    function ++ "() cannot convert " ++ Decimal.plain x ++ " to an integer"
  | outOfRange function => function ++ "() result out of range"
  | negativeFactorial => "factorial() not defined for negative values"
  | factorialOverflow n => "factorial(" ++ toString n ++ ") overflows an integer"
  | absOverflow => "integer overflow in abs()"
  | raised message => "function raised " ++ message
  | weightNotNumber text => "weight returned a non-number: " ++ text
  | sampleNotNumber text => "expression returned a non-number: " ++ text
  | predicateNotBoolean text => "predicate returned a non-boolean: " ++ text
  | notIterable name => "loop variable '" ++ name ++ "' must be iterable with a known length"
  | unequalLengths => "loop variables in the same for loop must all have the same length"
  | duplicate name => "duplicate name '" ++ name ++ "' in the same namespace"
  | notBinning => "not a binning"
  | regularArguments => "regular binning takes exactly 3 arguments: numbins, low, high"
  | binCount => "numbins must be a literal positive integer"
  | lowNotNumber => "low must be a literal number"
  | highNotNumber => "high must be a literal number"
  | highNotAbove => "high must be greater than low"
  | edgeNotNumber => "edges must be literal numbers"
  | fewEdges => "variable binning needs at least 2 edges"
  | edgesNotIncreasing => "edges must be strictly increasing"
  | unknownEstimator name => "unrecognized uncertainty method: '" ++ name ++ "'"
  | estimatorUnsupported estimator statistic =>
    "uncertainty method '" ++ estimator ++ "' is not supported for " ++ statistic
  | estimatorInapplicable estimator statistic =>
    "uncertainty method '" ++ estimator ++ "' does not apply to " ++ statistic
  | noEstimator => "sum has no uncertainty estimator"
  | memberOperands => "attribute access takes two operands"
  | memberName => "attribute name is not an identifier"
  | operandCount op => "too few operands for '" ++ op.symbol ++ "'"
  | bodyStatement => "only assignments may appear in a function body"
  | emptyBody => "function has an empty body"
  | bodyResult => "function body does not end with an expression"
  | uninitialized name => "aggregation '" ++ name ++ "' was never initialized"
  | axisNotBinning => "region axis is not a binning"
  | regionNotNamespace => "region is not a namespace"
  | variationNotNamespace => "variation is not a namespace"
  | fillsNamespace name => "cannot fill namespace " ++ name.describe
  | noBin slot => "binning has no " ++ slot
  | bareExpression => "cannot execute a bare expression; it is not a statement"
  | noExpression statistic => statistic ++ " without an expression"

end Cause

structure Failure where
  cause : Cause
  span : Option Span

namespace Failure

/-- The failure with a place, unless it has one already. -/
def orAt (f : Failure) (s : Span) : Failure :=
  ⟨f.cause, some (f.span.getD s)⟩

def diagnostic (f : Failure) (text : String) : Diagnostic :=
  .ofSpan f.cause.kind f.cause.message f.span text

def text (f : Failure) : String :=
  f.cause.kind.title ++ " error: " ++ f.cause.message

end Failure

/-- Why an evaluation has no result: a failure, or calls nested more deeply than is allowed. -/
inductive Stop where
  | failure (f : Failure)
  | tooDeep

abbrev Outcome (α : Type) := Except Stop α

namespace Outcome

variable {α : Type}

def fail (cause : Cause) : Outcome α :=
  .error (.failure ⟨cause, none⟩)

def failAt (cause : Cause) (s : Span) : Outcome α :=
  .error (.failure ⟨cause, some s⟩)

/-- Gives a failure the place, unless it has one. -/
def orAt (s : Span) : Outcome α → Outcome α
  | .error (.failure f) => .error (.failure (f.orAt s))
  | other => other

def ofCause : Except Cause α → Outcome α
  | .ok a => .ok a
  | .error cause => fail cause

end Outcome

end RecordStats
