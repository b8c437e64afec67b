import RecordStats.Grammar.Expression

/-!
The grammar of statements. Statements of a block are set apart by newlines or semicolons; blocks stand
in braces. Reading a text gives a program or the first fault.
-/

namespace RecordStats.Parser

/-! ### Axes -/

/-- Whether the parenthesis that is open `depth` deep closes before an arrow to the left. -/
def arrowAfterClosing (depth : Nat) : List Lexeme → Bool
  | [] => false
  | l :: rest =>
    match l.token with
    | .symbol .leftParen => arrowAfterClosing (depth + 1) rest
    | .symbol .rightParen =>
      if depth ≤ 1 then (front rest).isSymbol .leftArrow else arrowAfterClosing (depth - 1) rest
    | .finish => false
    | _ => arrowAfterClosing depth rest

/-- Whether an axis stands ahead: a name, something in parentheses, and an arrow to the left. -/
def axisAhead (lexemes : List Lexeme) : Bool :=
  match front lexemes, second lexemes with
  | .name _, .symbol .leftParen => arrowAfterClosing 0 (lexemes.drop 1)
  | _, _ => false

def Open.axis (operand expression : Parser Expr) : Parser (Axis Expr) := do
  let binning ← operand
  let _ ← expect .leftArrow "'<-'"
  let expression ← expression
  return ⟨binning, expression, binning.span.join expression.span⟩

def axis : Parser (Axis Expr) :=
  Open.axis (operand expression) expression

def Open.axes (axis : Parser (Axis Expr)) : Parser (List (Axis Expr)) := do
  unless ← sees .along do
    return []
  let _ ← advance
  let first ← axis
  let reversed ← repeating (fun (sofar : List (Axis Expr)) => do
    if axisAhead (← get) then return some ((← axis) :: sofar) else return none) [first]
  return reversed.reverse

def axes : Parser (List (Axis Expr)) :=
  Open.axes axis

/-! ### Statements without a block -/

def Open.define (operand : Parser Expr) (definition : Expr → Parser Statement) : Parser Statement := do
  let target ← operand
  unless ← sees .define do
    unexpected "':='"
  definition target

def define : Parser Statement :=
  Open.define (operand expression) (definition expression (functionBody expression))

def Open.collect (expression : Parser Expr) (axes : Parser (List (Axis Expr))) (statistic : Statistic) :
    Parser Statement := do
  let start ← advance
  let name ← label
  let measured ← match statistic with
    | .count => pure none
    | _ => do pure (some (← expression))
  let axes ← axes
  let weight ← if ← sees .weight then do
      let _ ← advance
      pure (some (← expression))
    else pure none
  let stop := ((weight.map Expr.span) <|> axes.getLast?.map Axis.span <|> measured.map Expr.span).getD name.span
  return .collect ⟨statistic, name, measured, axes, weight⟩ (start.join stop)

def collect (statistic : Statistic) : Parser Statement :=
  Open.collect expression axes statistic

/-! ### Blocks -/

/-- One more statement of a block; the block so far is in reverse. -/
def blockStep (statement : Parser Statement) (closed : Bool) (sofar : List Statement × Bool) :
    Parser (Option (List Statement × Bool)) := do
  let separated := (← semicolons) || sofar.2
  match ← current with
  | .finish => return none
  | token =>
    if closed && token.isSymbol .rightBrace then return none
    requireSeparator separated
    return some ((← statement) :: sofar.1, false)

/-- The statements up to the end of the text or, when `closed`, up to a closing brace. -/
def block (statement : Parser Statement) (closed : Bool) : Parser (List Statement) := do
  let (reversed, _) ← repeating (blockStep statement closed) ([], true)
  return reversed.reverse

def Open.braced (block : Parser (List Statement)) : Parser (List Statement × Span) := do
  let _ ← expect .leftBrace "'\x7b'"
  let statements ← block
  let closing ← expect .rightBrace "'\x7d'"
  return (statements, closing)

def braced (statement : Parser Statement) : Parser (List Statement × Span) :=
  Open.braced (block statement true)

/-- Reads one or more things with commas between them. -/
def separatedByCommas {α : Type} (one : Parser α) : Parser (List α) := do
  let first ← one
  let reversed ← repeating (fun (sofar : List α) => do
    unless ← sees .comma do
      return none
    let _ ← advance
    return some ((← one) :: sofar)) [first]
  return reversed.reverse

def pattern : Parser Pattern := do
  let name ← label
  match Glob.compile? name.text with
  | some regex => return ⟨name.text, regex, name.span⟩
  | none => fault (.invalidPattern name.text) name.span

def Open.source (braced : Parser (List Statement × Span)) (inclusive : Bool) (start : Span) :
    Parser Statement := do
  let patterns ← separatedByCommas pattern
  let (statements, closing) ← braced
  return .source inclusive patterns statements (start.join closing)

def source (statement : Parser Statement) (inclusive : Bool) (start : Span) : Parser Statement :=
  Open.source (braced statement) inclusive start

def Open.region (expression : Parser Expr) (axes : Parser (List (Axis Expr)))
    (braced : Parser (List Statement × Span)) : Parser Statement := do
  let start ← advance
  let name ← label
  let predicate ← if (← sees .along) || (← sees .leftBrace) then pure none
    else do pure (some (← expression))
  let axes ← axes
  let (statements, closing) ← braced
  return .region name predicate axes statements (start.join closing)

def region (statement : Parser Statement) : Parser Statement :=
  Open.region expression axes (braced statement)

/-- One more assignment of a variation; those so far are in reverse. -/
def Open.assignmentStep (expression : Parser Expr) (sofar : List (Binding Expr) × Bool) :
    Parser (Option (List (Binding Expr) × Bool)) := do
  match ← current with
  | .symbol .semicolon =>
    let _ ← advance
    return some (sofar.1, true)
  | .name _ =>
    requireSeparator sofar.2
    let target ← identifier
    let _ ← expect .define "':='"
    let expression ← expression
    return some (⟨target, expression, target.span.join expression.span⟩ :: sofar.1, false)
  | _ => return none

def assignmentStep (sofar : List (Binding Expr) × Bool) : Parser (Option (List (Binding Expr) × Bool)) :=
  Open.assignmentStep expression sofar

/-- A variation: a quoted name, a colon if any, and assignments. -/
def Open.variation (expression : Parser Expr) : Parser (Variation Expr) := do
  let name ← label
  let labelled ← if ← sees .colon then advance else pure name.span
  let (reversed, _) ← repeating (assignmentStep expression) ([], true)
  let stop := (reversed.head?.map Binding.span).getD labelled
  return ⟨name, reversed.reverse, name.span.join stop⟩

def variation : Parser (Variation Expr) :=
  Open.variation expression

/-- A block that is repeated for each of some variations. -/
def Open.vary (expression : Parser Expr) (braced : Parser (List Statement × Span)) : Parser Statement := do
  let start ← advance
  let reversed ← repeating (fun (sofar : List (Variation Expr)) => do
    match ← current with
    | .string _ => return some ((← variation expression) :: sofar)
    | _ => return none) []
  if reversed.isEmpty then
    unexpected "a quoted variation name"
  let (statements, closing) ← braced
  return .vary reversed.reverse statements (start.join closing)

def vary (statement : Parser Statement) : Parser Statement :=
  Open.vary expression (braced statement)

def Open.loopVariable (expression : Parser Expr) : Parser (Binding Expr) := do
  let target ← identifier
  let _ ← expect .within "'in'"
  let expression ← expression
  return ⟨target, expression, target.span.join expression.span⟩

def loopVariable : Parser (Binding Expr) :=
  Open.loopVariable expression

/-- A loop over lists side by side. -/
def Open.loop (expression : Parser Expr) (braced : Parser (List Statement × Span)) : Parser Statement := do
  let start ← advance
  let ranges ← separatedByCommas (loopVariable expression)
  let (statements, closing) ← braced
  return .loop ranges statements (start.join closing)

def loop (statement : Parser Statement) : Parser Statement :=
  Open.loop expression (braced statement)

/-- A statement, which its first lexeme tells apart. -/
def Open.statement (collect : Statistic → Parser Statement) (source : Bool → Span → Parser Statement)
    (region vary loop define : Parser Statement) : Parser Statement := do
  match ← current with
  | .symbol .count => collect .count
  | .symbol .sum => collect .sum
  | .symbol .profile => collect .profile
  | .symbol .fraction => collect .fraction
  | .symbol .source => source true (← advance)
  | .symbol .not =>
    if (second (← get)).isSymbol .source then
      let start ← advance
      let _ ← advance
      source false start
    else define
  | .symbol .region => region
  | .symbol .vary => vary
  | .symbol .each => loop
  | _ => define

/-- Statements, with blocks nested at most as deep as allowed. -/
def statementWithin : Nat → Parser Statement
  | 0 => throw .spent
  | allowed + 1 =>
    let inner := statementWithin allowed
    Open.statement collect (source inner) (region inner) (vary inner) (loop inner) define

def statement : Parser Statement := do
  statementWithin ((← get).length + 1)

def Open.program (block : Parser (List Statement)) : Parser Program := do
  let start ← currentSpan
  let statements ← block
  expectFinish
  return ⟨statements, statements.foldl (fun span s => span.join s.span) start⟩

def program : Parser Program :=
  Open.program (block statement false)

/-- Runs a parser on the lexemes of a text. -/
def onText {α : Type} (parser : Parser α) (text : String) : Except Halt α :=
  match Lexeme.ofText text with
  | .error e => .error (.fault (.lexical e))
  | .ok lexemes => (parser.run lexemes).map Prod.fst

def wholeExpression : Parser Expr := do
  let e ← expression
  expectFinish
  return e

end RecordStats.Parser

namespace RecordStats

def Program.ofText (text : String) : Except Halt Program :=
  Parser.program.onText text

def Expr.ofText (text : String) : Except Halt Expr :=
  Parser.wholeExpression.onText text

end RecordStats
