import RecordStats.Builtin.Apply
import RecordStats.Grammar.Statement
import RecordStats.Record.Execution
import RecordStats.Tree.Declaration

/-!
Runs: a program with the tree that it fills. A run evaluates records one at a time, or columns of data
that stand for many records.
-/

namespace RecordStats

inductive ProgramError where
  | malformed (e : Halt)
  | undeclared (stop : Stop)

/-- A program, the standing bindings of its records, and the tree that they have filled so far. -/
structure Run where
  program : Program
  standing : Dict Value
  tree : Namespace

/-- What is bound when a record has been evaluated. -/
abbrev Symbols := Dict Value

inductive Output where
  | batch (columns : Dict (List Value))
  | single (symbols : Symbols)

inductive Plan where
  | empty
  | single (record : List (String × Value))
  | batch (records : List (List (String × Value)))

namespace Plan

/-- The plan of some columns. Functions are part of every record. When all other columns are sequences
of one length, each index is a record; otherwise the columns are one record as they are. -/
def ofColumns (columns : List (String × Value)) : Plan :=
  let functions := columns.filter fun c => c.2.isFunction
  let data := columns.filter fun c => !c.2.isFunction
  if data.isEmpty then .empty
  else
    match data.mapM fun c => c.2.items?.map fun items => (c.1, items) with
    | some sequences =>
      let length := (sequences.head?.map fun s => s.2.length).getD 0
      if sequences.all fun s => s.2.length == length then
        .batch ((rows length sequences).map fun row => row ++ functions)
      else .single columns
    | none => .single columns

def records : Plan → List (List (String × Value))
  | empty => []
  | single record => [record]
  | batch records => records

end Plan

namespace Run

/-- A run of a program's text with an empty tree. -/
def ofText (text : String) (standing : Dict Value) : Except ProgramError Run :=
  match Program.ofText text with
  | .error e => .error (.malformed e)
  | .ok program => match program.tree with
    | .error stop => .error (.undeclared stop)
    | .ok tree => .ok ⟨program, standing, tree⟩

/-- What the program does with a record: its fills, and the scope at its end. -/
def trace (run : Run) (call : Caller) (tag : Option String) (record : List (String × Value)) :
    Trace Scope :=
  runBlock call tag [] run.tree (Scope.root run.standing record) run.program.block

/-- Evaluates a record. Its symbols are what is bound at the end, the program's functions apart; what
was filled before a failure stays filled. -/
def single (run : Run) (call : Caller) (tag : Option String) (record : List (String × Value)) :
    Outcome Symbols × Run :=
  let (outcome, tree) := executeBlock call tag (Scope.root run.standing record) run.program.block run.tree
  (outcome.map fun scope => scope.dropFunctions.own.bindings, { run with tree := tree })

/-- Adds the data among a record's symbols to the columns of a batch. -/
def appendSymbols (columns : Dict (List Value)) (symbols : Symbols) : Dict (List Value) :=
  symbols.foldl (fun columns s =>
    if s.2.isFunction then columns
    else columns.insert s.1 ((columns.get? s.1).getD [] ++ [s.2])) columns

/-- Evaluates records until one fails, and gathers their symbols. -/
def batch (run : Run) (call : Caller) (tag : Option String) (columns : Dict (List Value)) :
    List (List (String × Value)) → Outcome (Dict (List Value)) × Run
  | [] => (.ok columns, run)
  | record :: rest =>
    match run.single call tag record with
    | (.ok symbols, run) => run.batch call tag (appendSymbols columns symbols) rest
    | (.error stop, run) => (.error stop, run)

/-- Evaluates columns of data. -/
def evaluate (run : Run) (call : Caller) (tag : Option String) (columns : List (String × Value)) :
    Outcome Output × Run :=
  match Plan.ofColumns columns with
  | .empty => (.ok (.batch []), run)
  | .single record =>
    let (symbols, run) := run.single call tag record
    (symbols.map Output.single, run)
  | .batch records =>
    let (columns, run) := run.batch call tag [] records
    (columns.map Output.batch, run)

/-- Evaluates records one after another, whether they fail or not. -/
def each (run : Run) (call : Caller) (tag : Option String) :
    List (List (String × Value)) → List (Outcome Symbols) × Run
  | [] => ([], run)
  | record :: rest =>
    let (symbols, run) := run.single call tag record
    let (others, run) := run.each call tag rest
    (symbols :: others, run)

def iterate (run : Run) (call : Caller) (tag : Option String) (columns : List (String × Value))
    (most : Nat) : List (Outcome Symbols) × Run :=
  match Plan.ofColumns columns with
  | .empty => ([(.ok [] : Outcome Symbols)].take most, run)
  | plan => run.each call tag (plan.records.take most)

def clear (run : Run) : Run :=
  { run with tree := Node.childrenLike [] run.tree }

end Run

/-- An iteration over columns of data: the run as it has been left, and how many results were asked for. -/
structure Iteration where
  run : Run
  tag : Option String
  plan : Plan
  asked : Nat

namespace Iteration

def ofColumns (run : Run) (tag : Option String) (columns : List (String × Value)) : Iteration :=
  ⟨run, tag, Plan.ofColumns columns, 0⟩

/-- The next result. Every record has one, and it is evaluated when it is asked for; columns without data
have an empty result. -/
def next (call : Caller) (it : Iteration) : Option (Outcome Symbols) × Iteration :=
  let later := { it with asked := it.asked + 1 }
  match it.plan with
  | .empty => (if it.asked = 0 then some (.ok []) else none, later)
  | plan => match plan.records[it.asked]? with
    | some record =>
      let (symbols, run) := it.run.single call it.tag record
      (some symbols, { later with run := run })
    | none => (none, later)

/-- The results of asking so many times. -/
def take (call : Caller) : Nat → Iteration → List (Outcome Symbols) × Iteration
  | 0, it => ([], it)
  | most + 1, it =>
    let (result, it) := it.next call
    let (others, it) := take call most it
    (result.toList ++ others, it)

end Iteration

end RecordStats
