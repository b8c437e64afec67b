import RecordStats.Decimal.Read
import RecordStats.Json.Basic

/-!
The tokens of JSON text. A number is read with a significand of at most 64 bits: the digits after it
are dropped, and one power of ten is applied to it as a double.
-/

namespace RecordStats.Json

inductive Token where
  | openArray | closeArray | openObject | closeObject | colon | comma
  | atom (j : Json)

/-! ### Numbers -/

/-- The largest significand, one less than two to the 64. -/
def maxSignificand : Nat := 18446744073709551615

/-- A significand with further digits, as many as fit, and how many those are. -/
def extend (significand : Nat) : List Char → Nat × Nat
  | [] => (significand, 0)
  | c :: rest =>
    let next := significand * 10 + (c.toNat - '0'.toNat)
    if next ≤ maxSignificand then
      let (n, count) := extend next rest
      (n, count + 1)
    else (significand, 0)

/-- A double times a power of ten, if the result is in range. Far below, the power is applied in
parts. -/
def scaleTen (x : Float) (e : Int) : Option Float :=
  if e.natAbs ≤ 308 then
    let ten := Decimal.toDouble 1 e.natAbs
    if e < 0 then some (x / ten)
    else if (x * ten).isInf then none else some (x * ten)
  else if x == 0 then some x
  else if 0 ≤ e then none
  else scaleTen (x / 1e308) (e + 308)
termination_by e.natAbs
decreasing_by omega

/-- A number from its sign, its significand and the power of ten, as a double. -/
def floatNumber? (negative : Bool) (significand : Nat) (e : Int) : Option Json :=
  (scaleTen (Double.nearest false significand 0) e).map fun x => float (if negative then -x else x)

/-- A number without point and exponent: an integer if it fits, else a double; minus zero is a
double. -/
def wholeNumber (negative : Bool) (significand : Nat) : Json :=
  let n : Int := if negative then -significand else significand
  match Decimal.word? n with
  | some w => if negative && significand = 0 then float (-0) else integer w
  | none => float (if negative then -Double.nearest false significand 0 else Double.nearest false significand 0)

/-- The largest exponent that is taken at its word, one less than two to the 31. -/
def maxExponent : Nat := 2147483647

/-- What follows the mark of an exponent: the number, and the rest. A huge exponent makes the number
zero or, when it is not zero already, too large. -/
def exponent? (negative : Bool) (significand : Nat) (start : Int) (text : List Char) :
    Option (Json × List Char) :=
  let (down, digits) := match text with
    | '-' :: rest => (true, rest)
    | '+' :: rest => (false, rest)
    | rest => (false, rest)
  let run := digits.takeWhile Char.isDigit
  let rest := digits.dropWhile Char.isDigit
  if run.isEmpty then none
  else
    let n := Decimal.natOfDigits run
    let number :=
      if maxExponent < n then
        if significand ≠ 0 ∧ !down then none else some (float (if negative then -0 else 0))
      else floatNumber? negative significand (if down then start - n else start + n)
    number.map fun j => (j, rest)

/-- The end of a number whose significand and power of ten are known but for an exponent. -/
def finishFloat? (negative : Bool) (significand : Nat) (e : Int) (text : List Char) :
    Option (Json × List Char) :=
  match text with
  | 'e' :: rest => exponent? negative significand e rest
  | 'E' :: rest => exponent? negative significand e rest
  | rest => (floatNumber? negative significand e).map fun j => (j, rest)

/-- A number after its sign. A leading zero stands alone. -/
def number? (negative : Bool) (text : List Char) : Option (Json × List Char) :=
  let (run, rest) := match text with
    | '0' :: rest => (['0'], rest)
    | text => (text.takeWhile Char.isDigit, text.dropWhile Char.isDigit)
  if run.isEmpty then none
  else
    let (significand, kept) := extend 0 run
    let dropped : Int := run.length - kept
    match rest with
    | '.' :: more =>
      let fraction := more.takeWhile Char.isDigit
      if fraction.isEmpty then none
      else
        let (significand, kept) := extend significand fraction
        finishFloat? negative significand (dropped - kept) (more.dropWhile Char.isDigit)
    | c :: _ =>
      if c = 'e' ∨ c = 'E' ∨ dropped ≠ 0 then finishFloat? negative significand dropped rest
      else some (wholeNumber negative significand, rest)
    | [] =>
      if dropped ≠ 0 then finishFloat? negative significand dropped rest
      else some (wholeNumber negative significand, rest)

/-! ### Strings -/

def hexDigit? (c : Char) : Option Nat :=
  if c.isDigit then some (c.toNat - '0'.toNat)
  else if 'a' ≤ c ∧ c ≤ 'f' then some (c.toNat - 'a'.toNat + 10)
  else if 'A' ≤ c ∧ c ≤ 'F' then some (c.toNat - 'A'.toNat + 10)
  else none

def hex4? (a b c d : Char) : Option Nat := do
  return (((← hexDigit? a) * 16 + (← hexDigit? b)) * 16 + (← hexDigit? c)) * 16 + (← hexDigit? d)

def escape? (c : Char) : Option Char :=
  match c with
  | '"' => some '"'
  | '\\' => some '\\'
  | '/' => some '/'
  | 'b' => some '\x08'
  | 'f' => some '\x0c'
  | 'n' => some '\n'
  | 'r' => some '\r'
  | 't' => some '\t'
  | _ => none

/-- A string after its opening quote, and the rest after the closing one. Characters beyond 16 bits
may be written as a pair of escapes; half a pair is no character. -/
def string? (sofar : List Char) : List Char → Option (String × List Char)
  | [] => none
  | '"' :: rest => some (String.ofList sofar.reverse, rest)
  | '\\' :: 'u' :: a :: b :: c :: d :: rest =>
    match hex4? a b c d with
    | none => none
    | some high =>
      if 0xD800 ≤ high ∧ high < 0xDC00 then
        match rest with
        | '\\' :: 'u' :: e :: f :: g :: h :: rest => match hex4? e f g h with
          | none => none
          | some low =>
            if 0xDC00 ≤ low ∧ low < 0xE000 then
              string? (Char.ofNat (0x10000 + (high - 0xD800) * 0x400 + (low - 0xDC00)) :: sofar) rest
            else none
        | _ => none
      else if 0xDC00 ≤ high ∧ high < 0xE000 then none
      else string? (Char.ofNat high :: sofar) rest
  | '\\' :: c :: rest => match escape? c with
    | some e => string? (e :: sofar) rest
    | none => none
  | c :: rest => if c = '\\' ∨ c.toNat < 0x20 then none else string? (c :: sofar) rest
termination_by text => text.length

/-! ### Tokens -/

def token? (text : List Char) : Option (Token × List Char) :=
  match text with
  | '[' :: rest => some (.openArray, rest)
  | ']' :: rest => some (.closeArray, rest)
  | '{' :: rest => some (.openObject, rest)
  | '}' :: rest => some (.closeObject, rest)
  | ':' :: rest => some (.colon, rest)
  | ',' :: rest => some (.comma, rest)
  | '"' :: rest => (string? [] rest).map fun (s, rest) => (.atom (string s), rest)
  | 'n' :: 'u' :: 'l' :: 'l' :: rest => some (.atom null, rest)
  | 't' :: 'r' :: 'u' :: 'e' :: rest => some (.atom (boolean true), rest)
  | 'f' :: 'a' :: 'l' :: 's' :: 'e' :: rest => some (.atom (boolean false), rest)
  | '-' :: rest => (number? true rest).map fun (j, rest) => (.atom j, rest)
  | text => (number? false text).map fun (j, rest) => (.atom j, rest)

/-- The characters that may stand between tokens. -/
def isSpace (c : Char) : Bool :=
  c = ' ' || c = '\n' || c = '\t' || c = '\r'

/-- The tokens of a text. A token that is not shorter than the text has no end, so each step leaves
less. -/
def tokens? (text : List Char) : Option (List Token) :=
  match text with
  | [] => some []
  | c :: rest =>
    if isSpace c then tokens? rest
    else match token? (c :: rest) with
      | none => none
      | some (t, more) =>
        if _h : more.length < rest.length + 1 then (tokens? more).map (t :: ·) else none
termination_by text.length

end RecordStats.Json
