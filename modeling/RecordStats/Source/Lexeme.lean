import RecordStats.Decimal.Read
import RecordStats.Source.Token
import RecordStats.Text.Basic

/-!
Splitting a text into lexemes. Between tokens stand white space and comments, which run from `#` to
the end of their line; every token is the longest one that its text allows.

A reader says how many characters it took. Places are computed from these counts alone, so a span is
where the text says it is.
-/

namespace RecordStats

inductive LexCause where
  | unexpected (c : Char)
  | unterminated
  | escape (c : Char)
  | number (text : String)

structure LexError where
  cause : LexCause
  offset : Nat

def LexError.message (e : LexError) : String :=
  match e.cause with
  | .unexpected c => "illegal character '" ++ String.singleton c ++ "'"
  | .unterminated => "unterminated string"
  | .escape c => "invalid escape sequence \\" ++ String.singleton c
  | .number text => "invalid number " ++ text

namespace Lexeme

/-! ### Gaps -/

/-- How many characters of white space and comments stand at the head of a text; `comment` says
whether the text begins inside a comment. -/
def gap (comment : Bool) : List Char → Nat
  | [] => 0
  | c :: rest =>
    if comment then gap (c != '\n') rest + 1
    else if c = '#' then gap true rest + 1
    else if Text.isBlank c then gap false rest + 1
    else 0

/-! ### Strings -/

/-- What a backslash and a character stand for; an escaped newline stands for nothing. -/
def unescape? : Char → Option (List Char)
  | 'n' => some ['\n']
  | 't' => some ['\t']
  | 'r' => some ['\r']
  | '0' => some ['\x00']
  | '"' => some ['"']
  | '\'' => some ['\'']
  | '\\' => some ['\\']
  | '\n' => some []
  | _ => none

/-- The rest of a string on one line, after `taken` of its characters: what it holds, and how many
characters it takes with its closing quote. -/
def shortString (quote : Char) (taken : Nat) : List Char → Except LexError (List Char × Nat)
  | [] => .error ⟨.unterminated, 0⟩
  | c :: rest =>
    if c = quote then .ok ([], taken + 1)
    else if c = '\n' then .error ⟨.unterminated, 0⟩
    else if c = '\\' then
      match rest with
      | [] => .error ⟨.unterminated, taken⟩
      | e :: rest =>
        match unescape? e with
        | none => .error ⟨.escape e, taken⟩
        | some piece => (shortString quote (taken + 2) rest).map fun r => (piece ++ r.1, r.2)
    else (shortString quote (taken + 1) rest).map fun r => (c :: r.1, r.2)

/-- Like `shortString`, for a string between triple quotes, which may hold newlines. -/
def longString (quote : Char) (taken : Nat) : List Char → Except LexError (List Char × Nat)
  | [] => .error ⟨.unterminated, 0⟩
  | c :: rest =>
    if c = quote ∧ rest.take 2 = [quote, quote] then .ok ([], taken + 3)
    else if c = '\\' then
      match rest with
      | [] => .error ⟨.unterminated, taken⟩
      | e :: rest =>
        match unescape? e with
        | none => .error ⟨.escape e, taken⟩
        | some piece => (longString quote (taken + 2) rest).map fun r => (piece ++ r.1, r.2)
    else (longString quote (taken + 1) rest).map fun r => (c :: r.1, r.2)

def readString (quote : Char) (rest : List Char) : Except LexError (Token × Nat) :=
  let body :=
    if rest.take 2 = [quote, quote] then longString quote 3 (rest.drop 2)
    else shortString quote 1 rest
  body.map fun r => (.string (String.ofList r.1), r.2)

/-! ### Numbers -/

/-- The fraction at the head of a text: the digits after a point, which needs one. -/
def fraction : List Char → List Char
  | '.' :: rest => rest.takeWhile Char.isDigit
  | _ => []

/-- The exponent at the head of a text: its value and its width, if the mark has a digit after it. -/
def exponent? : List Char → Option (Int × Nat)
  | mark :: rest =>
    if mark = 'e' ∨ mark = 'E' then
      let (sign, tail) : List Char × List Char := match rest with
        | '+' :: tail => (['+'], tail)
        | '-' :: tail => (['-'], tail)
        | _ => ([], rest)
      let digits := tail.takeWhile Char.isDigit
      (Decimal.readExponent? (sign ++ digits)).map fun e => (e, 1 + sign.length + digits.length)
    else none
  | [] => none

/-- A number from its first character on: whole, unless it has a fraction or an exponent. -/
def readNumber (text : List Char) : Except LexError (Token × Nat) :=
  let whole := text.takeWhile Char.isDigit
  let rest := text.dropWhile Char.isDigit
  let part := fraction rest
  let pointed := if part.isEmpty then 0 else part.length + 1
  let float (e : Int) (width : Nat) : Except LexError (Token × Nat) :=
    .ok (.float (Decimal.toDouble (Decimal.natOfDigits (whole ++ part)) (e - part.length)), width)
  match exponent? (rest.drop pointed) with
  | some (e, width) => float e (whole.length + pointed + width)
  | none =>
    if part.isEmpty then
      match Decimal.word? (Decimal.natOfDigits whole) with
      | some n => .ok (.integer n, whole.length)
      | none => .error ⟨.number (String.ofList whole), 0⟩
    else float 0 (whole.length + pointed)

/-! ### Tokens -/

def startsName (c : Char) : Bool :=
  c.isAlpha || c = '_'

def inName (c : Char) : Bool :=
  c.isAlphanum || c = '_'

def ofWord (word : List Char) : Token :=
  let text := String.ofList word
  match Symbol.ofWord? text with
  | some s => .symbol s
  | none => .name text

/-- A mark, the longest one. -/
def readMark (c : Char) (rest : List Char) : Except LexError (Token × Nat) :=
  match rest.head?.bind (Symbol.ofPair? c), Symbol.ofChar? c with
  | some s, _ => .ok (.symbol s, 2)
  | none, some s => .ok (.symbol s, 1)
  | none, none => .error ⟨.unexpected c, 0⟩

def read (c : Char) (rest : List Char) : Except LexError (Token × Nat) :=
  if c = '\'' ∨ c = '"' then readString c rest
  else if startsName c then
    let word := c :: rest.takeWhile inName
    .ok (ofWord word, word.length)
  else if c.isDigit ∨ (c = '.' ∧ rest.head?.any Char.isDigit) then readNumber (c :: rest)
  else readMark c rest

/-! ### Texts -/

/-- The lexemes of a text that begins at a place, up to its end or its first fault. -/
def scan (p : Place) (text : List Char) : List Lexeme × Option LexError :=
  let blank := text.take (gap false text)
  let start := p.after blank
  let afterNewline := blank.contains '\n'
  match _h : text.drop (gap false text) with
  | [] => ([⟨.finish, ⟨start, start⟩, afterNewline⟩], none)
  | c :: rest =>
    match read c rest with
    | .error e => ([], some ⟨e.cause, start.offset + e.offset⟩)
    | .ok (token, width) =>
      let stop := start.after (c :: rest.take (width - 1))
      let more := scan stop (rest.drop (width - 1))
      (⟨token, ⟨start, stop⟩, afterNewline⟩ :: more.1, more.2)
termination_by text.length
decreasing_by
  have h := congrArg List.length _h
  simp only [List.length_drop, List.length_cons] at h ⊢
  omega

/-- The lexemes of a text before its first fault, and the fault. -/
def scanText (text : String) : List Lexeme × Option LexError :=
  scan .start text.toList

/-- The lexemes of a text; the last one marks its end. -/
def ofText (text : String) : Except LexError (List Lexeme) :=
  match scanText text with
  | (lexemes, none) => .ok lexemes
  | (_, some e) => .error e

end Lexeme

end RecordStats
