import RecordStats.Grammar.Parser
import RecordStats.Text.Basic

/-! Diagnostics: errors of a program together with the lines of its text that they point at. -/

namespace RecordStats

inductive ErrorKind where
  | malformed
  | name
  | type
  | runtime
  | internal
deriving DecidableEq, Inhabited

def ErrorKind.title : ErrorKind → String
  | malformed => "Syntax"
  | name => "Name"
  | type => "Type"
  | runtime => "Runtime"
  | internal => "Internal"

/-- An error with its place and the lines that it touches. -/
structure Diagnostic where
  kind : ErrorKind
  message : String
  span : Option Span
  quoted : List String

namespace Diagnostic

def ofSpan (kind : ErrorKind) (message : String) (span : Option Span) (text : String) : Diagnostic :=
  let quoted := match span with
    | some s => ((Text.lines text).drop (s.first.line - 1)).take (s.last.line - s.first.line + 1)
    | none => []
  ⟨kind, message, span, quoted⟩

/-- A fault of a text as a diagnostic; a fault in its characters points at one of them. -/
def ofParseError (e : ParseError) (text : String) : Diagnostic :=
  match e with
  | .lexical e =>
    ofSpan .malformed e.message (some ((LineTable.ofText text).span e.offset (e.offset + 1))) text
  | .grammatical cause span => ofSpan .malformed cause.message (some span) text

def line? (d : Diagnostic) : Option Nat :=
  d.span.map fun s => s.first.line

def column? (d : Diagnostic) : Option Nat :=
  (d.span.filter fun s => !s.isMultiline).map fun s => s.first.column

def headline (d : Diagnostic) : String :=
  d.kind.title ++ " error: " ++ d.message

def text (d : Diagnostic) : String :=
  match d.span, d.quoted with
  | some s, first :: rest =>
    if s.isMultiline then
      "Lines " ++ toString s.first.line ++ "-" ++ toString s.last.line ++ ": " ++ d.headline ++
        String.join ((first :: rest).map fun line => "\n    " ++ line)
    else
      "Line " ++ toString s.first.line ++ ": " ++ d.headline ++ "\n    " ++ first ++ "\n" ++
        "".pushn '-' (s.first.column + 4) ++ "".pushn '^' (max (s.last.column - s.first.column) 1)
  | _, _ => d.headline

end Diagnostic

end RecordStats
