import RecordStats.Double.Parts

/-!
Reading decimal numerals: whole numbers of 64 bits, and doubles rounded once from the exact value.
-/

namespace RecordStats.Decimal

/-- The number that decimal digits spell. -/
def natOfDigits (digits : List Char) : Nat :=
  digits.foldl (fun n c => 10 * n + (c.toNat - '0'.toNat)) 0

/-- The double nearest to `mantissa * 10 ^ exponent`. Exponents far out of range are cut off before
any power is computed. -/
def toDouble (mantissa : Nat) (exponent : Int) : Float :=
  if mantissa = 0 then 0
  else if 400 < exponent then 1 / 0
  else if (Nat.log2 mantissa : Int) / 3 + 1 + exponent < -400 then 0
  else if exponent < 0 then Float.ofScientific mantissa true (-exponent).toNat
  else Float.ofScientific mantissa false exponent.toNat

def word? (n : Int) : Option Int64 :=
  if -9223372036854775808 ≤ n ∧ n < 9223372036854775808 then some (Int64.ofInt n) else none

/-- The magnitude that a nonempty run of decimal digits spells. -/
def nat? (digits : List Char) : Option Nat :=
  if digits.isEmpty || !digits.all Char.isDigit then none else some (natOfDigits digits)

/-- A whole number with an optional sign, if it fits in 64 bits. -/
def readWord? (text : List Char) : Option Int64 :=
  match text with
  | '-' :: digits => (nat? digits).bind fun n => word? (-n)
  | '+' :: digits => (nat? digits).bind fun n => word? n
  | digits => (nat? digits).bind fun n => word? n

/-- The number after an exponent mark: a sign if any, then at least one digit. -/
def readExponent? (text : List Char) : Option Int :=
  match text with
  | '-' :: digits => (nat? digits).map fun n => -(n : Int)
  | '+' :: digits => (nat? digits).map fun n => (n : Int)
  | digits => (nat? digits).map fun n => (n : Int)

/-- An unsigned decimal: digits, a point and digits (one side may be empty), an exponent if any. -/
def readUnsigned? (text : List Char) : Option Float :=
  let whole := text.takeWhile Char.isDigit
  let rest := text.dropWhile Char.isDigit
  let (fraction, rest) := match rest with
    | '.' :: more => (more.takeWhile Char.isDigit, more.dropWhile Char.isDigit)
    | _ => ([], rest)
  if whole.isEmpty && fraction.isEmpty then none
  else
    let value (e : Int) := toDouble (natOfDigits (whole ++ fraction)) (e - fraction.length)
    match rest with
    | [] => some (value 0)
    | c :: more => if c = 'e' ∨ c = 'E' then (readExponent? more).map value else none

/-- A double: a decimal with an optional sign, or one of the words for what is not finite. -/
def readDouble? (text : String) : Option Float :=
  let unsigned (cs : List Char) : Option Float :=
    match (String.ofList cs).toLower with
    | "nan" => some (0 / 0)
    | "inf" | "infinity" => some (1 / 0)
    | _ => readUnsigned? cs
  match text.toList with
  | '-' :: cs => (unsigned cs).map fun x => -x
  | '+' :: cs => unsigned cs
  | cs => unsigned cs

end RecordStats.Decimal
