import RecordStats.Evaluation.Call
import RecordStats.Json.Reader
import RecordStats.Json.Writer
import RecordStats.Run
import RecordStats.Tree.Report

/-!
Checking a program: it is read and given its tree, and unless no more is wanted it is run on one JSON
object of columns. The report holds the symbols and the tree, or one node of the tree.
-/

namespace RecordStats.Check

/-- What to check. -/
structure Request where
  program : String
  /-- A JSON object of columns. -/
  input : Option String
  tag : Option String
  /-- The node to report on; all when absent. -/
  path : Option String
  /-- Whether to stop before the program is run. -/
  declarationsOnly : Bool

inductive Result where
  | valid
  | report (j : Json)

inductive CheckError where
  | program (e : ProgramError)
  | record (stop : Stop)
  | access (e : AccessError)
  | noInput
  | unreadable
  | notColumns (found : String)

def kindOf : Json → String
  | .array _ => "an array"
  | .string _ => "a string"
  | .integer _ => "a number"
  | .float _ => "a number"
  | .boolean _ => "a boolean"
  | _ => "null"

def columnsOf : Json → Except CheckError (List (String × Value))
  | .object members => .ok (Value.fieldsOfJson members)
  | other => .error (.notColumns (kindOf other))

/-- The symbols that columns of data gave. -/
def outputJson : Output → Json
  | .batch columns => .object (columns.map fun c => (c.1, .array (Value.itemsToJson c.2)))
  | .single symbols => .object (Value.fieldsToJson symbols)

def reportOn (run : Run) (output : Output) : Option String → Except CheckError Json
  | none => .ok (.ofMembers [("symbols", outputJson output), ("aggregation", run.tree.toJson)])
  | some path => match run.tree.lookup (Path.ofText path) with
    | .ok node => .ok node.toJson
    | .error e => .error (.access e)

def run (r : Request) : Except CheckError Result :=
  match Run.ofText r.program standing with
  | .error e => .error (.program e)
  | .ok run =>
    if r.declarationsOnly then .ok .valid
    else match r.input with
      | none => .error .noInput
      | some text => match Json.ofText? text with
        | none => .error .unreadable
        | some document => do
          let columns ← columnsOf document
          match run.evaluate (Host.none.caller Host.maxDepth) r.tag columns with
          | (.error stop, _) => .error (.record stop)
          | (.ok output, run) => return .report (← reportOn run output r.path)

/-- The text of a program error. -/
def programText (text : String) : ProgramError → String
  | .malformed (.fault e) => (Diagnostic.ofParseError e text).text
  | .malformed .spent => "the program cannot be read"
  | .undeclared (.failure f) => (f.diagnostic text).text
  | .undeclared .tooDeep => "the program cannot be declared"

def CheckError.text (program : String) : CheckError → String
  | .program e => programText program e
  | .record (.failure f) => (f.diagnostic program).text
  | .record .tooDeep => "calls are nested too deeply"
  | access e => "Aggregation lookup failed: " ++ e.message
  | noInput => "No input provided. Use --input or pipe JSON to stdin."
  | unreadable => "Invalid JSON"
  | notColumns found => "Invalid input: expected an object of named columns, found " ++ found

end RecordStats.Check
