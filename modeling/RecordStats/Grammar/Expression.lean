import RecordStats.Grammar.Parser

/-!
The grammar of expressions, from the loosest operators to the tightest: functions, `or`, `and`, `not`,
comparisons, sums, products, signs, `**`, and what follows an operand (`.name`, `[index]`, `(arguments)`).

Every level is written over `inner`, the parser of the expressions inside brackets, arguments and
functions' bodies; the expression parser closes the knot by its depth of nesting. A construct that calls
other rules of the grammar is written over their parsers first, under `Open`.
-/

namespace RecordStats.Parser

/-! ### Lookahead -/

/-- Whether a list of parameters in parentheses and an arrow stand ahead, after the opening one. -/
def parametersAhead : List Lexeme → Bool
  | [] => false
  | l :: rest =>
    match l.token with
    | .name _ => parametersAhead rest
    | .symbol .comma => parametersAhead rest
    | .symbol .rightParen => (front rest).isSymbol .rightArrow
    | _ => false

/-- Whether a function stands ahead: parameters and an arrow. -/
def functionAhead (lexemes : List Lexeme) : Bool :=
  match front lexemes with
  | .name _ => (second lexemes).isSymbol .rightArrow
  | .symbol .leftParen => parametersAhead (lexemes.drop 1)
  | _ => false

/-! ### Operators that stand between operands -/

/-- A level of operators that group to the left. -/
def leftGrouped (operators : List (Symbol × Operator)) (operand : Parser Expr) : Parser Expr := do
  let first ← operand
  repeating (fun left => do
    let token ← current
    match operators.find? fun o => token.isSymbol o.1 with
    | none => return none
    | some (_, op) =>
      let mark ← advance
      let right ← operand
      return some (.apply op [left, right] mark)) first

/-- The comparisons. -/
def comparisons : List (Symbol × Operator) :=
  [(.equal, .equal), (.notEqual, .notEqual), (.less, .less), (.lessEqual, .lessEqual),
   (.greater, .greater), (.greaterEqual, .greaterEqual)]

def chainStep (operand : Parser Expr) (chain : Expr × Option Expr) :
    Parser (Option (Expr × Option Expr)) := do
  let token ← current
  match comparisons.find? fun o => token.isSymbol o.1 with
  | none => return none
  | some (_, op) =>
    let mark ← advance
    let right ← operand
    let comparison := Expr.apply op [chain.1, right] mark
    match chain.2 with
    | none => return some (right, some comparison)
    | some before =>
      return some (right, some (.apply .and [before, comparison] (before.span.join comparison.span)))

/-- A chain of comparisons: all of its neighbouring pairs have to hold. -/
def chained (operand : Parser Expr) : Parser Expr := do
  let first ← operand
  let chain ← repeating (chainStep operand) (first, none)
  return chain.2.getD chain.1

/-! ### Functions -/

/-- Rejects a list of parameters that has a name twice. -/
def distinctParameters (parameters : List Name) : Parser Unit :=
  go [] parameters
where
  /-- Looks for the first parameter among those before it. -/
  go (seen : List String) : List Name → Parser Unit
    | [] => return ()
    | p :: rest => if p.text ∈ seen then fault .repeatedParameter p.span else go (p.text :: seen) rest

/-- What follows `target :=`: the value of a name, or the body of the function whose head it is. -/
def definition (inner : Parser Expr) (body : Parser (List Statement × Span)) (target : Expr) :
    Parser Statement := do
  let mark ← expect .define "':='"
  match target with
  | .name text span =>
    let expression ← inner
    return .define ⟨text, span⟩ expression ((span.join mark).join expression.span)
  | .call callee arguments span =>
    let some name := callee.name? | fault .invalidTarget span
    let parameters ← arguments.mapM fun argument =>
      match argument.name? with
      | some text => return Name.mk text argument.span
      | none => fault .invalidTarget argument.span
    distinctParameters parameters
    let (body, stop) ← body
    return .function ⟨name, callee.span⟩ parameters body ((span.join mark).join stop)
  | _ => fault .invalidTarget target.span

/-- One more statement of a function's body in braces; the body so far is in reverse. -/
def Open.bodyStep (expression : Parser Expr) (definition : Expr → Parser Statement)
    (sofar : List Statement × Bool) : Parser (Option (List Statement × Bool)) := do
  let separated := (← semicolons) || sofar.2
  if ← sees .rightBrace then return none
  if sofar.1.head?.any Statement.isResult then unexpected "'\x7d' after the result expression"
  requireSeparator separated
  let expression ← expression
  if ← sees .define then
    let statement ← definition expression
    return some (statement :: sofar.1, false)
  return some (.result expression expression.span :: sofar.1, false)

def bodyStep (inner : Parser Expr) (body : Parser (List Statement × Span))
    (sofar : List Statement × Bool) : Parser (Option (List Statement × Bool)) :=
  Open.bodyStep inner (definition inner body) sofar

/-- A function's body: an expression, or statements in braces. -/
def Open.functionBody (expression : Parser Expr) (definition : Expr → Parser Statement) :
    Parser (List Statement × Span) := do
  unless ← sees .leftBrace do
    let expression ← expression
    return ([.result expression expression.span], expression.span)
  let opening ← advance
  let (reversed, _) ← repeating (bodyStep expression definition) ([], true)
  let closing ← advance
  unless reversed.head?.any Statement.isResult do
    fault .missingResult (opening.join closing)
  return (reversed.reverse, closing)

def bodyWithin (inner : Parser Expr) : Nat → Parser (List Statement × Span)
  | 0 => throw .spent
  | allowed + 1 => Open.functionBody inner (definition inner (bodyWithin inner allowed))

def functionBody (inner : Parser Expr) : Parser (List Statement × Span) := do
  bodyWithin inner ((← get).length + 1)

def parameters : Parser (List Name) := do
  unless ← sees .leftParen do
    return [← identifier]
  let _ ← advance
  let reversed ← repeating (fun (sofar : List Name) => do
    if ← sees .rightParen then return none
    let name ← identifier
    unless ← sees .rightParen do
      let _ ← expect .comma "','"
    return some (name :: sofar)) []
  let _ ← advance
  return reversed.reverse

/-- Parameters, an arrow and a body. -/
def Open.function (body : Parser (List Statement × Span)) : Parser Expr := do
  let start ← currentSpan
  let parameters ← parameters
  let _ ← expect .rightArrow "'->'"
  distinctParameters parameters
  let (body, stop) ← body
  return .lambda parameters body (start.join stop)

def function (inner : Parser Expr) : Parser Expr :=
  Open.function (functionBody inner)

/-! ### Operands -/

/-- A literal, a name, or an expression in parentheses, whose span takes them in. -/
def atom (inner : Parser Expr) : Parser Expr := do
  let span ← currentSpan
  match ← current with
  | .integer n => return .literal (.integer n) (← advance)
  | .float x => return .literal (.float x) (← advance)
  | .string s => return .literal (.string s) (← advance)
  | .name text => return .name text (← advance)
  | .symbol .leftParen =>
    let _ ← advance
    let expression ← inner
    let closing ← expect .rightParen "')'"
    return expression.withSpan ((span.join expression.span).join closing)
  | _ => unexpected "an expression"

/-- The arguments of a call up to its closing parenthesis; a comma may follow the last one. -/
def arguments (inner : Parser Expr) : Parser (List Expr) := do
  let reversed ← repeating (fun (sofar : List Expr) => do
    if ← sees .rightParen then return none
    let argument ← inner
    unless ← sees .rightParen do
      let _ ← expect .comma "',' or ')'"
    return some (argument :: sofar)) []
  return reversed.reverse

/-- One more member access, subscript or call after an operand. -/
def Open.postfixStep (expression : Parser Expr) (arguments : Parser (List Expr)) (operand : Expr) :
    Parser (Option Expr) := do
  match ← current with
  | .symbol .dot =>
    let mark ← advance
    let name ← identifier
    return some (.apply .member [operand, .name name.text name.span] mark)
  | .symbol .leftBracket =>
    let mark ← advance
    let index ← expression
    let closing ← expect .rightBracket "']'"
    let item := Expr.apply .item [operand, index] mark
    return some (item.withSpan (item.span.join (operand.span.join closing)))
  | .symbol .leftParen =>
    let _ ← advance
    let arguments ← arguments
    let closing ← expect .rightParen "')'"
    return some (.callUpTo operand arguments closing)
  | _ => return none

def postfixStep (inner : Parser Expr) (operand : Expr) : Parser (Option Expr) :=
  Open.postfixStep inner (arguments inner) operand

def Open.operand (atom expression : Parser Expr) (arguments : Parser (List Expr)) : Parser Expr := do
  repeating (postfixStep expression arguments) (← atom)

def operand (inner : Parser Expr) : Parser Expr :=
  Open.operand (atom inner) inner (arguments inner)

/-! ### Signs and powers -/

/-- The literal that a sign before a number literal makes; no other literal takes a sign. -/
def signed? (op : Operator) (literal : Literal) : Option Literal :=
  match op, literal with
  | .positive, .integer n => some (.integer n)
  | .positive, .float x => some (.float x)
  | .negative, .integer n => (Decimal.word? (-n.toInt)).map .integer
  | .negative, .float x => some (.float (-x))
  | _, _ => none

/-- A sign on an operand; on a number literal it gives another literal. -/
def applySign (op : Operator) (operand : Expr) (mark : Span) : Expr :=
  match operand.literal?.bind (signed? op) with
  | some literal => .literal literal (mark.join operand.span)
  | none => .apply op [operand] mark

/-- A power binds tighter than a sign on its left, and its exponent may have signs of its own. -/
def Open.power (operand factor : Parser Expr) : Parser Expr := do
  let base ← operand
  if ← sees .power then
    let mark ← advance
    let exponent ← factor
    return .apply .power [base, exponent] mark
  return base

/-- A sign on a factor, or a power. -/
def Open.factor (factor power : Parser Expr) : Parser Expr := do
  match ← current with
  | .symbol .plus =>
    let mark ← advance
    return applySign .positive (← factor) mark
  | .symbol .minus =>
    let mark ← advance
    return applySign .negative (← factor) mark
  | _ => power

/-- Signs before a power; signs and exponents are nested at most as deep as allowed. -/
def factorWithin (inner : Parser Expr) : Nat → Parser Expr
  | 0 => throw .spent
  | allowed + 1 =>
    Open.factor (factorWithin inner allowed) (Open.power (operand inner) (factorWithin inner allowed))

def factor (inner : Parser Expr) : Parser Expr := do
  factorWithin inner ((← get).length + 1)

/-! ### Levels -/

def product (inner : Parser Expr) : Parser Expr :=
  leftGrouped [(.star, .times), (.slash, .divide), (.percent, .modulo)] (factor inner)

def sum (inner : Parser Expr) : Parser Expr :=
  leftGrouped [(.plus, .plus), (.minus, .minus)] (product inner)

def comparison (inner : Parser Expr) : Parser Expr :=
  chained (sum inner)

def Open.negation (negation comparison : Parser Expr) : Parser Expr := do
  if ← sees .not then
    let mark ← advance
    let operand ← negation
    return .apply .not [operand] mark
  comparison

def negationWithin (inner : Parser Expr) : Nat → Parser Expr
  | 0 => throw .spent
  | allowed + 1 => Open.negation (negationWithin inner allowed) (comparison inner)

def negation (inner : Parser Expr) : Parser Expr := do
  negationWithin inner ((← get).length + 1)

def conjunction (inner : Parser Expr) : Parser Expr :=
  leftGrouped [(.and, .and)] (negation inner)

def disjunction (inner : Parser Expr) : Parser Expr :=
  leftGrouped [(.or, .or)] (conjunction inner)

/-- A function where one stands ahead, and otherwise operators. -/
def Open.expression (function disjunction : Parser Expr) : Parser Expr := do
  if functionAhead (← get) then function else disjunction

/-- Expressions, nested at most as deep as allowed. -/
def expressionWithin : Nat → Parser Expr
  | 0 => throw .spent
  | allowed + 1 => Open.expression (function (expressionWithin allowed)) (disjunction (expressionWithin allowed))

def expression : Parser Expr := do
  expressionWithin ((← get).length + 1)

end RecordStats.Parser
