import RecordStats.Glob.Pattern
import RecordStats.Program.Operator
import RecordStats.Source.Span

/-!
Programs as trees. An expression is built from literals, names, operators, calls and functions; a
statement binds a name, collects a statistic, or repeats, varies, selects or filters a block of
statements. Every node has the span that it was read from.
-/

namespace RecordStats

/-- A name where it is written: an identifier, or the quoted name of a statistic. -/
structure Name where
  text : String
  span : Span
deriving DecidableEq, Inhabited

inductive Literal where
  | integer (value : Int64)
  | float (value : Float)
  | string (value : String)
deriving Inhabited

def Literal.number? : Literal → Option Float
  | integer n => some (Float.ofInt n.toInt)
  | float x => some x
  | string _ => none

/-- What a collector measures. -/
inductive Statistic where
  | count | sum | profile | fraction
deriving DecidableEq, Inhabited

def Statistic.word : Statistic → String
  | count => "count"
  | sum => "sum"
  | profile => "profile"
  | fraction => "fraction"

/-- A name bound to an expression of type `ε`: an assignment, or a variable of a loop. -/
structure Binding (ε : Type) where
  target : Name
  expression : ε
  span : Span
deriving Inhabited

/-- A binning, and the expression whose value it sorts. -/
structure Axis (ε : Type) where
  binning : ε
  expression : ε
  span : Span
deriving Inhabited

/-- A labelled set of alternative bindings. -/
structure Variation (ε : Type) where
  name : Name
  assignments : List (Binding ε)
  span : Span
deriving Inhabited

/-- A statistic with its name, the expression that it measures (a count has none), its axes from the
outermost inwards, and the weight of each entry. -/
structure Collector (ε : Type) where
  statistic : Statistic
  name : Name
  expression : Option ε
  axes : List (Axis ε)
  weight : Option ε
deriving Inhabited

/-- A wildcard pattern as written, and ready to match. -/
structure Pattern where
  text : String
  regex : Regex
  span : Span
deriving Inhabited

def Pattern.accepts (p : Pattern) (tag : String) : Bool :=
  p.regex.isMatch tag

mutual

/-- Expressions. The second operand of a member access is a name that is not looked up. -/
inductive Expr where
  | literal (value : Literal) (span : Span)
  | name (text : String) (span : Span)
  | operator (op : Operator) (operands : List Expr) (span : Span)
  | call (callee : Expr) (arguments : List Expr) (span : Span)
  | lambda (parameters : List Name) (body : List Statement) (span : Span)

/-- Statements. A result is the last statement of a function's body and stands nowhere else. -/
inductive Statement where
  | define (target : Name) (expression : Expr) (span : Span)
  | function (target : Name) (parameters : List Name) (body : List Statement) (span : Span)
  | result (expression : Expr) (span : Span)
  | collect (collector : Collector Expr) (span : Span)
  | loop (ranges : List (Binding Expr)) (block : List Statement) (span : Span)
  | vary (variations : List (Variation Expr)) (block : List Statement) (span : Span)
  | region (name : Name) (predicate : Option Expr) (axes : List (Axis Expr)) (block : List Statement)
      (span : Span)
  | source (inclusive : Bool) (patterns : List Pattern) (block : List Statement) (span : Span)

end

instance : Inhabited Expr := ⟨.name "" default⟩

instance : Inhabited Statement := ⟨.result default default⟩

structure Lambda where
  parameters : List Name
  body : List Statement

structure Program where
  block : List Statement
  span : Span

namespace Expr

def span : Expr → Span
  | literal _ s | name _ s | operator _ _ s | call _ _ s | lambda _ _ s => s

/-- The same expression with another span. -/
def withSpan (s : Span) : Expr → Expr
  | literal value _ => literal value s
  | name text _ => name text s
  | operator op operands _ => operator op operands s
  | call callee arguments _ => call callee arguments s
  | lambda parameters body _ => lambda parameters body s

/-- An operator on its operands; `mark` is where the operator itself stands. -/
def apply (op : Operator) (operands : List Expr) (mark : Span) : Expr :=
  operator op operands (operands.foldl (fun s e => s.join e.span) mark)

/-- A call that ends with a closing parenthesis. -/
def callUpTo (callee : Expr) (arguments : List Expr) (closing : Span) : Expr :=
  call callee arguments (callee.span.join closing)

def name? : Expr → Option String
  | name text _ => some text
  | _ => none

def literal? : Expr → Option Literal
  | literal value _ => some value
  | _ => none

def children : Expr → List Expr
  | operator _ operands _ => operands
  | call callee arguments _ => callee :: arguments
  | _ => []

mutual

/-- The expression and all below it, functions' bodies apart. -/
def nodes : Expr → List Expr
  | literal value s => [literal value s]
  | name text s => [name text s]
  | operator op operands s => operator op operands s :: nodesOf operands
  | call callee arguments s => call callee arguments s :: (nodes callee ++ nodesOf arguments)
  | lambda parameters body s => [lambda parameters body s]

def nodesOf : List Expr → List Expr
  | [] => []
  | e :: rest => nodes e ++ nodesOf rest

end

end Expr

namespace Statement

def span : Statement → Span
  | define _ _ s | function _ _ _ s | result _ s | collect _ s | loop _ _ s | vary _ _ s
  | region _ _ _ _ s | source _ _ _ s => s

/-- Whether the statement is the result of a function's body. -/
def isResult : Statement → Bool
  | result _ _ => true
  | _ => false

end Statement

end RecordStats
