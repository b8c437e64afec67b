import RecordStats.Regex.Basic

/-!
Wildcard patterns for tags. `*` stands for any run of characters and `?` for any one, newlines apart;
`[...]` stands for one character of a set and `[!...]` for one outside it; all else stands for itself.
The whole tag has to match.

A pattern is matched as a regular expression, in which every other mark is escaped.
-/

namespace RecordStats.Glob

inductive Piece where
  | run
  | any
  | set (text : List Char)
  | char (c : Char)
deriving DecidableEq

/-- The text of a set that begins after `[`, and what follows its closing bracket. A bracket right
after the opening one, or after its `!`, does not close the set. -/
def setText? (text : List Char) : Option (List Char × List Char) :=
  let bang := if text.head? = some '!' then ['!'] else []
  let bracket := if (text.drop bang.length).head? = some ']' then [']'] else []
  let tail := text.drop (bang ++ bracket).length
  match tail.dropWhile (· ≠ ']') with
  | [] => none
  | _ :: rest => some (bang ++ bracket ++ tail.takeWhile (· ≠ ']'), rest)

theorem length_of_setText? {text body rest : List Char} (h : setText? text = some (body, rest)) :
    rest.length < text.length := by
  simp only [setText?] at h
  split at h
  · cases h
  · next c r hr =>
    cases h
    have h1 := congrArg List.length hr
    have h2 := (List.dropWhile_sublist (l := text.drop
      ((if text.head? = some '!' then ['!'] else []) ++
        if (text.drop (if text.head? = some '!' then ['!'] else []).length).head? = some ']'
          then [']'] else []).length) (· ≠ ']')).length_le
    rw [h1] at h2
    simp only [List.length_cons, List.length_drop] at h2
    omega

/-- The parts of a pattern; an opening bracket that is never closed stands for itself. -/
def pieces (text : List Char) : List Piece :=
  match text with
  | [] => []
  | '*' :: rest => .run :: pieces rest
  | '?' :: rest => .any :: pieces rest
  | '[' :: rest =>
    match _h : setText? rest with
    | some (body, rest) => .set body :: pieces rest
    | none => .char '[' :: pieces rest
  | c :: rest => .char c :: pieces rest
termination_by text.length
decreasing_by
  · simp
  · simp
  · have h := length_of_setText? _h
    simp only [List.length_cons]
    omega
  · simp
  · simp

/-! ### As a regular expression -/

def doubleBackslashes (text : List Char) : List Char :=
  text.flatMap fun c => if c = '\\' then ['\\', '\\'] else [c]

/-- A set's text inside the brackets of a regular expression: `!` becomes a caret, a leading caret is
escaped, and then every backslash is doubled. -/
def setRegex (text : List Char) : List Char :=
  doubleBackslashes <| match text with
    | '!' :: rest => '^' :: rest
    | '^' :: rest => '\\' :: '^' :: rest
    | _ => text

def Piece.regex : Piece → List Char
  | run => ['.', '*']
  | any => ['.']
  | set text => '[' :: setRegex text ++ [']']
  | char c => if c ∈ Regex.marks then ['\\', c] else [c]

def regexText (pattern : String) : String :=
  String.ofList ('^' :: (pieces pattern.toList).flatMap Piece.regex ++ ['$'])

/-- The pattern made ready to match, unless one of its sets means nothing. -/
def compile? (pattern : String) : Option Regex :=
  Regex.ofText? (regexText pattern)

end RecordStats.Glob
