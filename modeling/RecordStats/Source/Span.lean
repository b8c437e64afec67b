/-!
Places in a program's text, the spans between two places, and the table of line starts that finds
the line and column of an offset.

Offsets count characters, lines count from one and columns from zero.
-/

namespace RecordStats

structure Place where
  offset : Nat
  line : Nat
  column : Nat
deriving DecidableEq, Inhabited

namespace Place

def start : Place := ⟨0, 1, 0⟩

def step (p : Place) (c : Char) : Place :=
  if c = '\n' then ⟨p.offset + 1, p.line + 1, 0⟩ else ⟨p.offset + 1, p.line, p.column + 1⟩

def after (p : Place) (run : List Char) : Place :=
  run.foldl step p

@[simp] theorem after_nil (p : Place) : p.after [] = p := rfl

@[simp] theorem after_cons (p : Place) (c : Char) (run : List Char) :
    p.after (c :: run) = (p.step c).after run := rfl

theorem after_append (p : Place) (run more : List Char) :
    p.after (run ++ more) = (p.after run).after more := by
  simp [after]

theorem offset_step (p : Place) (c : Char) : (p.step c).offset = p.offset + 1 := by
  unfold step; split <;> rfl

theorem offset_after (p : Place) (run : List Char) : (p.after run).offset = p.offset + run.length := by
  induction run generalizing p with
  | nil => rfl
  | cons c run ih => simp [ih, offset_step]; omega

end Place

/-- A stretch of a text, from its first place to its last. The span of all zeros belongs to no text. -/
structure Span where
  first : Place
  last : Place
deriving DecidableEq, Inhabited

namespace Span

/-- The smallest span that holds both: it starts where the earlier one starts and ends where the
later one ends. -/
def join (a b : Span) : Span :=
  ⟨if b.first.offset < a.first.offset then b.first else a.first,
   if b.last.offset > a.last.offset then b.last else a.last⟩

def isMultiline (s : Span) : Bool :=
  s.first.line != s.last.line

def encloses (s t : Span) : Bool :=
  s.first.offset ≤ t.first.offset && t.last.offset ≤ s.last.offset

end Span

/-- The offsets at which the lines of a text begin, in order. -/
structure LineTable where
  starts : List Nat

namespace LineTable

/-- The offsets just after the newlines of a run that begins at `offset`. -/
def newlineEnds (offset : Nat) : List Char → List Nat
  | [] => []
  | c :: run =>
    if c = '\n' then (offset + 1) :: newlineEnds (offset + 1) run else newlineEnds (offset + 1) run

/-- The line table of a text: the first line starts at zero, each other line after a newline. -/
def ofChars (text : List Char) : LineTable :=
  ⟨0 :: newlineEnds 0 text⟩

def ofText (text : String) : LineTable :=
  ofChars text.toList

/-- The place of an offset: its line is the last one that begins at or before it. -/
def locate (table : LineTable) (offset : Nat) : Place :=
  let before := table.starts.takeWhile (· ≤ offset)
  ⟨offset, before.length, offset - before.getLastD 0⟩

/-- The span between two offsets. -/
def span (table : LineTable) (start stop : Nat) : Span :=
  ⟨table.locate start, table.locate stop⟩

end LineTable

end RecordStats
