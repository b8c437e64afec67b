import RecordStats.Regex.CharSet

/-!
Regular expressions, as far as wildcard patterns are written in them: the anchors `^` and `$`, the dot, sets,
characters, and the star. Groups, alternatives and the other repetitions are refused.

A text matches where the terms of an expression match some part of it. The search for one carries along what is
left of the expression after each way to take the characters so far.
-/

namespace RecordStats

namespace Regex

/-- What stands for one character. -/
inductive Atom where
  | any
  | char (c : Char)
  | set (s : CharSet)
deriving DecidableEq

inductive Term where
  /-- The start of the text. -/
  | start
  /-- The end of the text. -/
  | stop
  | one (a : Atom)
  /-- Any number of characters, none included. -/
  | many (a : Atom)
deriving DecidableEq

end Regex

abbrev Regex := List Regex.Term

namespace Regex

/-! ### Reading -/

/-- The marks that do not stand for themselves, apart from those that end a set or a count. -/
def special : List Char := ['\\', '.', '+', '*', '?', '(', ')', '|', '[', '\x7b', '^', '$']

def atom? : List Char → Option (Atom × List Char)
  | [] => none
  | '.' :: rest => some (.any, rest)
  | '[' :: rest => (charSet? rest).map fun (s, rest) => (.set s, rest)
  | '\\' :: c :: rest => if c ∈ marks then some (.char c, rest) else none
  | c :: rest => if c ∈ special then none else some (.char c, rest)

theorem suffix_of_atom? {c : Char} {text rest : List Char} {a : Atom} (h : atom? (c :: text) = some (a, rest)) :
    rest <:+ text := by
  unfold atom? at h
  split at h
  · cases h
  · next heq =>
    cases heq
    cases h
    exact List.suffix_refl text
  · next heq =>
    cases heq
    obtain ⟨⟨s, after⟩, hset, h⟩ := Option.map_eq_some_iff.mp h
    cases h
    exact suffix_of_charSet? hset
  · next heq =>
    cases heq
    split at h <;> cases h
    exact List.suffix_cons ..
  · next heq =>
    cases heq
    split at h <;> cases h
    exact List.suffix_refl text

def terms? (text : List Char) : Option (List Term) :=
  match text with
  | [] => some []
  | '^' :: rest => (terms? rest).map (.start :: ·)
  | '$' :: rest => (terms? rest).map (.stop :: ·)
  | c :: rest =>
    match _h : atom? (c :: rest) with
    | none => none
    | some (a, '*' :: rest) => (terms? rest).map (.many a :: ·)
    | some (a, rest) => (terms? rest).map (.one a :: ·)
termination_by text.length
decreasing_by
  · simp
  · simp
  · exact Nat.lt_succ_of_le (Nat.le_of_succ_le (suffix_of_atom? _h).length_le)
  · exact Nat.lt_succ_of_le (suffix_of_atom? _h).length_le

def Atom.depth : Atom → Nat
  | set s => s.depth
  | _ => 0

def Term.depth : Term → Nat
  | one a => a.depth
  | many a => a.depth + 1
  | _ => 0

/-- How deeply expressions may be nested. -/
def depthLimit : Nat := 250

/-- The expression with a text, unless it has none. -/
def ofText? (text : String) : Option Regex := do
  let terms ← terms? text.toList
  if terms.all fun t => t.depth < depthLimit then return terms else none

/-! ### Matching -/

def Atom.takes (c : Char) : Atom → Bool
  | any => c != '\n'
  | char d => c == d
  | set s => s.contains c

/-- What is left to match after one character, for each way to take it. -/
def residuals (atStart : Bool) (c : Char) : Regex → List Regex
  | [] => []
  | .start :: rest => if atStart then residuals atStart c rest else []
  | .stop :: _ => []
  | .one a :: rest => if a.takes c then [rest] else []
  | .many a :: rest => (if a.takes c then [.many a :: rest] else []) ++ residuals atStart c rest

/-- Whether an expression matches without a character. -/
def isDone (atStart atEnd : Bool) : Regex → Bool
  | [] => true
  | .start :: rest => atStart && isDone atStart atEnd rest
  | .stop :: rest => atEnd && isDone atStart atEnd rest
  | .one _ :: _ => false
  | .many _ :: rest => isDone atStart atEnd rest

/-- Whether one of some expressions matches from here on, or the given one from somewhere later. -/
def search (r : Regex) (atStart : Bool) (alternatives : List Regex) : List Char → Bool
  | [] => alternatives.any (isDone atStart true)
  | c :: text =>
    alternatives.any (isDone atStart false) ||
      search r false (r :: alternatives.flatMap (residuals atStart c)).eraseDups text

def isMatch (r : Regex) (text : String) : Bool :=
  search r true [r] text.toList

end Regex

end RecordStats
