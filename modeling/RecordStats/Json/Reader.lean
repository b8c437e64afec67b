import RecordStats.Json.Token

/-!
Reading JSON text. The tokens are taken one by one; a stack holds the arrays and objects that are
still open.
-/

namespace RecordStats.Json

/-- An array or an object that is still open: the items in reverse, or the members with the name whose
value comes next. -/
inductive Open where
  | array (items : List Json)
  | object (members : Dict Json) (name : String)

inductive Expect where
  | value
  | item
  | member
  | name
  | colon
  | comma
  | done (j : Json)

/-- A point within a document. -/
structure Progress where
  stack : List Open
  expect : Expect

/-- How many arrays and objects may be open at once. -/
def maxDepth : Nat := 127

namespace Progress

def start : Progress := ⟨[], .value⟩

def complete (stack : List Open) (j : Json) : Progress :=
  match stack with
  | [] => ⟨[], .done j⟩
  | .array items :: outer => ⟨.array (j :: items) :: outer, .comma⟩
  | .object members name :: outer => ⟨.object (members.insert name j) name :: outer, .comma⟩

def push (p : Progress) (o : Open) (expect : Expect) : Option Progress :=
  if p.stack.length < maxDepth then some ⟨o :: p.stack, expect⟩ else none

def begin (p : Progress) (t : Token) : Option Progress :=
  match t with
  | .openArray => p.push (.array []) .item
  | .openObject => p.push (.object [] "") .member
  | .atom j => some (complete p.stack j)
  | _ => none

def named (p : Progress) (t : Token) : Option Progress :=
  match t, p.stack with
  | .atom (.string s), .object members _ :: outer => some ⟨.object members s :: outer, .colon⟩
  | _, _ => none

def close (p : Progress) (t : Token) : Option Progress :=
  match t, p.stack with
  | .closeArray, .array items :: outer => some (complete outer (array items.reverse))
  | .closeObject, .object members _ :: outer => some (complete outer (object members))
  | _, _ => none

def step (p : Progress) (t : Token) : Option Progress :=
  match p.expect with
  | .value => p.begin t
  | .item => (p.begin t).or (p.close t)
  | .member => (p.named t).or (p.close t)
  | .name => p.named t
  | .colon => match t with
    | .colon => some ⟨p.stack, .value⟩
    | _ => none
  | .comma => match t, p.stack with
    | .comma, .array _ :: _ => some ⟨p.stack, .value⟩
    | .comma, .object _ _ :: _ => some ⟨p.stack, .name⟩
    | t, _ => p.close t
  | .done _ => none

def document? (p : Progress) : Option Json :=
  match p.expect with
  | .done j => some j
  | _ => none

end Progress

def ofText? (text : String) : Option Json := do
  let tokens ← tokens? text.toList
  let last ← tokens.foldlM Progress.step Progress.start
  last.document?

end RecordStats.Json
