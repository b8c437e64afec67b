import RecordStats.Program.Basic
import RecordStats.Source.Lexeme

/-!
Reading a list of lexemes. A parser takes what it reads from the front of the list; the last lexeme
marks the end of the text and is never taken, so there is always a current one.

Repetition has an allowance of steps, one more than there are lexemes. Each step of a repetition takes
a lexeme, so the allowance outlasts the text.
-/

namespace RecordStats

inductive ParseCause where
  | unexpected (found expected : String)
  /-- Two statements on one line without a semicolon. -/
  | missingSeparator
  /-- The left side of an assignment is neither a name nor a function's head. -/
  | invalidTarget
  | repeatedParameter
  /-- A function's body does not end with an expression. -/
  | missingResult
  /-- A pattern with a set that means nothing. -/
  | invalidPattern (pattern : String)

def ParseCause.message : ParseCause → String
  | unexpected found expected => "illegal syntax: expected " ++ expected ++ ", found " ++ found
  | missingSeparator => "missing semicolon or newline"
  | invalidTarget => "can only assign to a name or define a function as name(param, ...)"
  | repeatedParameter => "duplicate function parameter"
  | missingResult => "function body must end with an expression"
  | invalidPattern pattern => "invalid source pattern '" ++ pattern ++ "'"

inductive ParseError where
  | lexical (e : LexError)
  | grammatical (cause : ParseCause) (span : Span)

def ParseError.message : ParseError → String
  | lexical e => e.message
  | grammatical cause _ => cause.message

/-- Why a parser stops: a fault in the text, or an allowance that is spent. -/
inductive Halt where
  | fault (e : ParseError)
  | spent

/-- Parsers of an `α`: what they read comes off the front of the lexemes. -/
abbrev Parser (α : Type) := StateT (List Lexeme) (Except Halt) α

namespace Parser

def front (lexemes : List Lexeme) : Token :=
  match lexemes with
  | [] => .finish
  | l :: _ => l.token

def second (lexemes : List Lexeme) : Token :=
  match lexemes with
  | _ :: l :: _ => l.token
  | _ => .finish

def frontSpan (lexemes : List Lexeme) : Span :=
  match lexemes with
  | [] => default
  | l :: _ => l.span

def behind (lexemes : List Lexeme) : List Lexeme :=
  match lexemes with
  | _ :: l :: rest => l :: rest
  | _ => lexemes

def current : Parser Token := do
  return front (← get)

def currentSpan : Parser Span := do
  return frontSpan (← get)

def sees (s : Symbol) : Parser Bool := do
  return (front (← get)).isSymbol s

def onNewLine : Parser Bool := do
  match ← get with
  | [] => return false
  | l :: _ => return l.afterNewline

def advance : Parser Span := do
  let span ← currentSpan
  modify behind
  return span

def fault {α : Type} (cause : ParseCause) (span : Span) : Parser α :=
  throw (.fault (.grammatical cause span))

def unexpected {α : Type} (expected : String) : Parser α := do
  fault (.unexpected (← current).describe expected) (← currentSpan)

def expect (s : Symbol) (expected : String) : Parser Span := do
  if ← sees s then advance else unexpected expected

def expectFinish : Parser Unit := do
  match ← current with
  | .finish => return ()
  | _ => unexpected "end of input"

def identifier : Parser Name := do
  match ← current with
  | .name text => return ⟨text, ← advance⟩
  | _ => unexpected "a name"

/-- Takes a quoted name. -/
def label : Parser Name := do
  match ← current with
  | .string text => return ⟨text, ← advance⟩
  | _ => unexpected "a quoted name"

/-! ### Repetition -/

/-- Repeats a step until it gives nothing, at most as often as allowed. -/
def repeatWithin {α : Type} (step : α → Parser (Option α)) : Nat → α → Parser α
  | 0, _ => throw .spent
  | allowed + 1, a => do
    match ← step a with
    | none => return a
    | some b => repeatWithin step allowed b

def repeating {α : Type} (step : α → Parser (Option α)) (a : α) : Parser α := do
  repeatWithin step ((← get).length + 1) a

/-- Takes semicolons and says whether there were any. -/
def semicolons : Parser Bool :=
  repeating (fun _ => do
    if ← sees .semicolon then
      let _ ← advance
      return some true
    else return none) false

/-- Checks that a statement is set apart from the one before it, if `separated` does not say so. -/
def requireSeparator (separated : Bool) : Parser Unit := do
  unless separated || (← onNewLine) do
    fault .missingSeparator (← currentSpan)

end Parser

end RecordStats
