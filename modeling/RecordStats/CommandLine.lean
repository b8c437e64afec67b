import RecordStats.Check

/-! The arguments of the command `check`: a program or the file that holds it, and options. -/

namespace RecordStats

/-- What the command is asked for. -/
structure CommandLine where
  /-- The program's text, or the name of its file. -/
  program : String
  isFile : Bool
  input : Option String
  tag : Option String
  path : Option String
  pretty : Bool
  declarationsOnly : Bool

namespace CommandLine

inductive UsageError where
  | noCommand
  | unknownCommand (name : String)
  | noProgram
  | unexpected (argument : String)
  | missingValue (option : String)

def UsageError.message : UsageError → String
  | noCommand => "a command is required: check"
  | unknownCommand name => "unrecognized command '" ++ name ++ "'"
  | noProgram => "a program is required"
  | unexpected argument => "unexpected argument '" ++ argument ++ "'"
  | missingValue option => "a value is required for '" ++ option ++ "'"

def usage : String :=
  "Usage: check PROGRAM [--file] [--input JSON] [--source TAG] [--path PATH] [--pretty] [--syntax-only]"

def plain (program : String) : CommandLine :=
  ⟨program, false, none, none, none, false, false⟩

def readOptions (c : CommandLine) (program : Option String) : List String → Except UsageError CommandLine
  | [] => match program with
    | some text => .ok { c with program := text }
    | none => .error .noProgram
  | "--file" :: rest | "-f" :: rest => readOptions { c with isFile := true } program rest
  | "--pretty" :: rest | "-p" :: rest => readOptions { c with pretty := true } program rest
  | "--syntax-only" :: rest => readOptions { c with declarationsOnly := true } program rest
  | "--input" :: value :: rest | "-i" :: value :: rest =>
    readOptions { c with input := some value } program rest
  | "--source" :: value :: rest | "-s" :: value :: rest =>
    readOptions { c with tag := some value } program rest
  | "--path" :: value :: rest => readOptions { c with path := some value } program rest
  | argument :: rest =>
    if ["--input", "-i", "--source", "-s", "--path"].contains argument then .error (.missingValue argument)
    else if program.isSome || argument.startsWith "-" then .error (.unexpected argument)
    else readOptions c (some argument) rest

/-- The command that some arguments ask for. -/
def ofArguments : List String → Except UsageError CommandLine
  | [] => .error .noCommand
  | "check" :: rest => readOptions (plain "") none rest
  | name :: _ => .error (.unknownCommand name)

/-- What is to be checked, once the program's text and the input are at hand. -/
def request (c : CommandLine) (program : String) (input : Option String) : Check.Request :=
  ⟨program, input, c.tag, c.path, c.declarationsOnly⟩

def resultText (c : CommandLine) : Check.Result → String
  | .valid => "Program is valid"
  | .report j => if c.pretty then j.pretty 0 else j.compact

end CommandLine

end RecordStats
