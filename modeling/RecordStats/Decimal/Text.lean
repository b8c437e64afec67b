import RecordStats.Decimal.Digits

/-!
The texts of numbers. A layout says where positional notation is used and how an exponent is
written; each kind of output has one.
-/

namespace RecordStats.Decimal

structure Layout where
  /-- The exponents of ten that are written out positionally. -/
  positional : Int → Bool
  /-- Whether a whole number is marked by a zero after the point. -/
  marked : Bool
  /-- Whether a positive exponent has a sign. -/
  plus : Bool
  /-- Which of two equally near and equally short texts is taken. -/
  half : Half

/-- Numbers in messages: positional, whole numbers without a point. -/
def Layout.plain : Layout := ⟨fun _ => true, false, false, .up⟩

/-- Numbers in JSON text: positional from `1e-5` up to `1e16`, whole numbers with a point. -/
def Layout.json : Layout := ⟨fun e => -5 ≤ e && e < 16, true, true, .even⟩

def Layout.scientific : Layout := ⟨fun _ => false, false, false, .up⟩

/-- Digits with the point where the exponent puts it. -/
def Digits.positional (d : Digits) (marked : Bool) : String :=
  if d.exponent < 0 then
    "0." ++ "".pushn '0' ((-d.exponent).toNat - 1) ++ String.ofList d.digits
  else
    let whole := d.exponent.toNat + 1
    if d.digits.length ≤ whole then
      String.ofList d.digits ++ "".pushn '0' (whole - d.digits.length) ++ (if marked then ".0" else "")
    else String.ofList (d.digits.take whole) ++ "." ++ String.ofList (d.digits.drop whole)

/-- Digits with the point after the first one and the exponent written. -/
def Digits.scientific (d : Digits) (plus : Bool) : String :=
  let mantissa := match d.digits with
    | [] => ""
    | [c] => String.singleton c
    | c :: rest => String.singleton c ++ "." ++ String.ofList rest
  mantissa ++ "e" ++ (if plus && 0 ≤ d.exponent then "+" else "") ++ toString d.exponent

/-- The text of digits in a layout. -/
def Layout.text (l : Layout) (d : Digits) : String :=
  if l.positional d.exponent then d.positional l.marked else d.scientific l.plus

/-- The text of a finite double in a layout, in the fewest digits that read back. -/
def Layout.finite (l : Layout) (x : Float) : String :=
  let p := Double.parts x
  (if p.negative then "-" else "") ++
    l.text (if p.mantissa = 0 then ⟨['0'], 0⟩ else shortest l.half p)

/-- The text of a double: in the layout when finite, else the given word or infinity with its sign. -/
def Layout.double (l : Layout) (nan : String) (x : Float) : String :=
  if x.isNaN then nan
  else if x.isInf then (if Double.isNegative x then "-inf" else "inf")
  else l.finite x

def plain (x : Float) : String :=
  Layout.plain.double "NaN" x

/-- A double as a value is shown: whole numbers with all their digits and one zero after the point. -/
def shown (x : Float) : String :=
  if x.isFinite && Double.isWhole x then
    let p := Double.parts x
    (if p.negative then "-" else "") ++ toString (p.mantissa * Double.pow2 p.exponent / Double.pow2 (-p.exponent)) ++ ".0"
  else plain x

/-- A double in scientific notation, in the fewest digits that read back. -/
def scientific (x : Float) : String :=
  Layout.scientific.double "nan" x

/-- A double in scientific notation with `count` digits. -/
def scientificTo (count : Nat) (x : Float) : String :=
  if x.isFinite then
    let p := Double.parts x
    let d := if p.mantissa = 0 then ⟨List.replicate count '0', 0⟩ else rounded p count
    (if p.negative then "-" else "") ++ Layout.scientific.text d
  else scientific x

end RecordStats.Decimal
