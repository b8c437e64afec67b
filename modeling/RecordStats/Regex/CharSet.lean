/-!
Character sets of regular expressions: what stands between `[` and `]`.

A set is a union of characters, ranges and further sets in brackets. Unions are combined by `&&`, `--` and `~~`
from left to right, and a caret at the head turns a whole set into its complement.

Sets that have a name, such as `[:alpha:]`, are refused: the text of a wildcard pattern closes fewer brackets than
it opens wherever it has one.
-/

namespace RecordStats.Regex

/-- The characters that a backslash makes stand for themselves. -/
def marks : List Char :=
  ['\\', '.', '+', '*', '?', '(', ')', '|', '[', ']', '\x7b', '\x7d', '^', '$', '#', '&', '-', '~']

inductive SetOperator where
  | meet | minus | symmetric
deriving DecidableEq

inductive CharSet where
  | empty
  /-- The characters from one to another, both included. -/
  | range (first last : Char)
  | union (before item : CharSet)
  | combine (op : SetOperator) (left right : CharSet)
  /-- A set with its brackets. -/
  | bracketed (negated : Bool) (body : CharSet)
deriving DecidableEq

namespace CharSet

def contains (c : Char) : CharSet → Bool
  | empty => false
  | range first last => first ≤ c && c ≤ last
  | union before item => before.contains c || item.contains c
  | combine .meet left right => left.contains c && right.contains c
  | combine .minus left right => left.contains c && !right.contains c
  | combine .symmetric left right => left.contains c != right.contains c
  | bracketed negated body => body.contains c != negated

/-- One more item of a union. -/
def add : CharSet → CharSet → CharSet
  | empty, item => item
  | before, item => union before item

def single (c : Char) : CharSet := range c c

def addAll (before : CharSet) (text : List Char) : CharSet :=
  text.foldl (fun items c => items.add (single c)) before

def isUnion : CharSet → Bool
  | union _ _ => true
  | _ => false

/-- How deeply a set is nested. The items of one union stand on one level. -/
def depth : CharSet → Nat
  | empty | range _ _ => 0
  | union before item => max (before.depth + if before.isUnion then 0 else 1) (item.depth + 1)
  | combine _ left right => max left.depth right.depth + 1
  | bracketed _ body => body.depth + 1

end CharSet

/-- A set whose closing bracket is still to come: what stands before the last operator, and the union since. -/
structure OpenSet where
  negated : Bool
  before : Option (CharSet × SetOperator)
  items : CharSet

namespace OpenSet

def add (s : OpenSet) (item : CharSet) : OpenSet := { s with items := s.items.add item }

def body (s : OpenSet) : CharSet :=
  match s.before with
  | none => s.items
  | some (left, op) => .combine op left s.items

def operate (s : OpenSet) (op : SetOperator) : OpenSet :=
  { s with before := some (s.body, op), items := .empty }

def close (s : OpenSet) : CharSet := .bracketed s.negated s.body

/-- The head of a set, after its opening bracket. Hyphens there stand for themselves, and so does a closing
bracket with none before it. -/
def start (text : List Char) : OpenSet × List Char :=
  let negated := text.head? == some '^'
  let text := if negated then text.tail else text
  let hyphens := text.takeWhile (· == '-')
  let (heads, rest) := match hyphens, text.dropWhile (· == '-') with
    | [], ']' :: rest => ([']'], rest)
    | _, rest => (hyphens, rest)
  (⟨negated, none, CharSet.empty.addAll heads⟩, rest)

end OpenSet

/-- Reads one character of a set; a mark may have a backslash before it. -/
def setChar? : List Char → Option (Char × List Char)
  | [] | ['\\'] => none
  | '\\' :: c :: rest => if c ∈ marks then some (c, rest) else none
  | c :: rest => some (c, rest)

/-- Reads a character of a set, or a range. -/
def setItem? (text : List Char) : Option (CharSet × List Char) := do
  let (first, rest) ← setChar? text
  match rest with
  | '-' :: next :: more =>
    if next = '-' ∨ next = ']' then
      return (.single first, rest)
    let (last, rest) ← setChar? (next :: more)
    if first ≤ last then return (.range first last, rest) else none
  | _ => return (.single first, rest)

theorem suffix_start (text : List Char) : (OpenSet.start text).2 <:+ text := by
  have tail (b : Bool) : (if b then text.tail else text) <:+ text := by
    cases b
    · exact List.suffix_refl text
    · exact List.tail_suffix text
  have drop := (List.dropWhile_suffix (· == '-')).trans (tail (text.head? == some '^'))
  simp only [OpenSet.start]
  split
  · next h => exact (List.suffix_cons ..).trans (h ▸ drop)
  · exact drop

theorem suffix_of_setChar? {c d : Char} {text rest : List Char} (h : setChar? (c :: text) = some (d, rest)) :
    rest <:+ text := by
  unfold setChar? at h
  split at h
  · cases h
  · cases h
  · next heq =>
    cases heq
    split at h <;> cases h
    exact List.suffix_cons ..
  · next heq =>
    cases heq
    cases h
    exact List.suffix_refl text

theorem suffix_of_setItem? {c : Char} {text rest : List Char} {item : CharSet}
    (h : setItem? (c :: text) = some (item, rest)) : rest <:+ text := by
  simp only [setItem?, Option.bind_eq_bind, Option.bind_eq_some_iff] at h
  obtain ⟨⟨first, after⟩, hfirst, h⟩ := h
  have hafter := suffix_of_setChar? hfirst
  split at h
  · next next more hrange =>
    obtain rfl : after = '-' :: next :: more := hrange
    split at h
    · cases h
      exact hafter
    · obtain ⟨⟨last, rest⟩, hlast, h⟩ := Option.bind_eq_some_iff.mp h
      have hmore : more <:+ '-' :: next :: more := (List.suffix_cons next more).trans (List.suffix_cons '-' _)
      split at h <;> cases h
      exact (suffix_of_setChar? hlast).trans (hmore.trans hafter)
  · cases h
    exact hafter

/-- Reads the rest of a set, and of those that it stands in. -/
def readSet? (inner : OpenSet) (outer : List OpenSet) (text : List Char) : Option (CharSet × List Char) :=
  match text with
  | [] => none
  | ']' :: rest =>
    match outer with
    | [] => some (inner.close, rest)
    | s :: outer => readSet? (s.add inner.close) outer rest
  | '[' :: ':' :: _ => none
  | '[' :: rest => readSet? (OpenSet.start rest).1 (inner :: outer) (OpenSet.start rest).2
  | '&' :: '&' :: rest => readSet? (inner.operate .meet) outer rest
  | '-' :: '-' :: rest => readSet? (inner.operate .minus) outer rest
  | '~' :: '~' :: rest => readSet? (inner.operate .symmetric) outer rest
  | c :: rest =>
    match _h : setItem? (c :: rest) with
    | none => none
    | some (item, rest) => readSet? (inner.add item) outer rest
termination_by text.length
decreasing_by
  · simp
  · exact Nat.lt_succ_of_le (suffix_start rest).length_le
  · simp only [List.length_cons]
    omega
  · simp only [List.length_cons]
    omega
  · simp only [List.length_cons]
    omega
  · exact Nat.lt_succ_of_le (suffix_of_setItem? _h).length_le

theorem suffix_of_readSet? {inner : OpenSet} {outer : List OpenSet} {text rest : List Char} {s : CharSet}
    (h : readSet? inner outer text = some (s, rest)) : rest <:+ text := by
  fun_induction readSet? inner outer text with
  | case1 => cases h
  | case2 => cases h; exact List.suffix_cons ..
  | case3 inner rest s outer ih => exact (ih h).trans (List.suffix_cons ..)
  | case4 => cases h
  | case5 inner outer rest _ ih => exact (ih h).trans ((suffix_start rest).trans (List.suffix_cons ..))
  | case6 inner outer rest ih => exact (ih h).trans ((List.suffix_cons ..).trans (List.suffix_cons ..))
  | case7 inner outer rest ih => exact (ih h).trans ((List.suffix_cons ..).trans (List.suffix_cons ..))
  | case8 inner outer rest ih => exact (ih h).trans ((List.suffix_cons ..).trans (List.suffix_cons ..))
  | case9 => cases h
  | case10 _ _ _ _ _ _ _ _ _ _ _ _ hitem ih =>
    exact (ih h).trans ((suffix_of_setItem? hitem).trans (List.suffix_cons ..))

/-- Reads a set after its opening bracket. -/
def charSet? (text : List Char) : Option (CharSet × List Char) :=
  readSet? (OpenSet.start text).1 [] (OpenSet.start text).2

theorem suffix_of_charSet? {text rest : List Char} {s : CharSet} (h : charSet? text = some (s, rest)) :
    rest <:+ text :=
  (suffix_of_readSet? h).trans (suffix_start text)

end RecordStats.Regex
