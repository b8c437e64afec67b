import RecordStats.Grammar.Statement

/-! The rules of the grammar, one for each construct that is read by calls of others. What a rule does is told by its
    body, in which the rules that it calls are left open. -/

namespace RecordStats.Parser

/-- The rules. A definition goes on from its target, and a source from its first lexemes. -/
inductive Rule where
  | program
  | block (closed : Bool)
  | braced
  | statement
  | definition (target : Expr)
  | functionBody
  | collect (statistic : Statistic)
  | axes
  | axis
  | source (inclusive : Bool) (start : Span)
  | region
  | vary
  | loop
  | expression
  | function
  | disjunction
  | conjunction
  | negation
  | comparison
  | sum
  | product
  | factor
  | power
  | operand
  | arguments
  | atom

namespace Rule

/-- What a rule reads. -/
abbrev Result : Rule → Type
  | program => Program
  | block _ => List Statement
  | braced | functionBody => List Statement × Span
  | statement | definition _ | collect _ | source _ _ | region | vary | loop => Statement
  | axes => List (Axis Expr)
  | axis => Axis Expr
  | arguments => List Expr
  | expression | function | disjunction | conjunction | negation | comparison | sum | product | factor | power
  | operand | atom => Expr

/-- The parser of a rule. -/
def parser : ∀ r : Rule, Parser r.Result
  | program => Parser.program
  | block closed => Parser.block Parser.statement closed
  | braced => Parser.braced Parser.statement
  | statement => Parser.statement
  | definition target => Parser.definition Parser.expression (Parser.functionBody Parser.expression) target
  | functionBody => Parser.functionBody Parser.expression
  | collect statistic => Parser.collect statistic
  | axes => Parser.axes
  | axis => Parser.axis
  | source inclusive start => Parser.source Parser.statement inclusive start
  | region => Parser.region Parser.statement
  | vary => Parser.vary Parser.statement
  | loop => Parser.loop Parser.statement
  | expression => Parser.expression
  | function => Parser.function Parser.expression
  | disjunction => Parser.disjunction Parser.expression
  | conjunction => Parser.conjunction Parser.expression
  | negation => Parser.negation Parser.expression
  | comparison => Parser.comparison Parser.expression
  | sum => Parser.sum Parser.expression
  | product => Parser.product Parser.expression
  | factor => Parser.factor Parser.expression
  | power => Open.power (Parser.operand Parser.expression) (Parser.factor Parser.expression)
  | operand => Parser.operand Parser.expression
  | arguments => Parser.arguments Parser.expression
  | atom => Parser.atom Parser.expression

/-- What a rule does, apart from the rules that it calls. -/
def body (call : ∀ r : Rule, Parser r.Result) : ∀ r : Rule, Parser r.Result
  | program => Open.program (call (block false))
  | block closed => Parser.block (call statement) closed
  | braced => Open.braced (call (block true))
  | statement =>
    Open.statement (fun statistic => call (collect statistic)) (fun inclusive start => call (source inclusive start))
      (call region) (call vary) (call loop) (Open.define (call operand) fun target => call (definition target))
  | definition target => Parser.definition (call expression) (call functionBody) target
  | functionBody => Open.functionBody (call expression) fun target => call (definition target)
  | collect statistic => Open.collect (call expression) (call axes) statistic
  | axes => Open.axes (call axis)
  | axis => Open.axis (call operand) (call expression)
  | source inclusive start => Open.source (call braced) inclusive start
  | region => Open.region (call expression) (call axes) (call braced)
  | vary => Open.vary (call expression) (call braced)
  | loop => Open.loop (call expression) (call braced)
  | expression => Open.expression (call function) (call disjunction)
  | function => Open.function (call functionBody)
  | disjunction => leftGrouped [(.or, .or)] (call conjunction)
  | conjunction => leftGrouped [(.and, .and)] (call negation)
  | negation => Open.negation (call negation) (call comparison)
  | comparison => chained (call sum)
  | sum => leftGrouped [(.plus, .plus), (.minus, .minus)] (call product)
  | product => leftGrouped [(.star, .times), (.slash, .divide), (.percent, .modulo)] (call factor)
  | factor => Open.factor (call factor) (call power)
  | power => Open.power (call operand) (call factor)
  | operand => Open.operand (call atom) (call expression) (call arguments)
  | arguments => Parser.arguments (call expression)
  | atom => Parser.atom (call expression)

/-- How many rules at most are called one by another, below a rule, before a lexeme is taken. -/
def height : Rule → Nat
  | atom | function | definition _ | collect _ | axes | source _ _ | region | vary | loop | braced => 0
  | operand => 1
  | power | axis | statement => 2
  | factor | block _ => 3
  | product | program => 4
  | sum => 5
  | comparison => 6
  | negation => 7
  | conjunction => 8
  | disjunction => 9
  | expression => 10
  | functionBody | arguments => 11

end Rule

end RecordStats.Parser
