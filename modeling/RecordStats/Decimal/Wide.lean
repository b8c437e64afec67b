import RecordStats.Double.Parts

/-!
Decimals of 96 bits: whole numbers below `2 ^ 96` over a power of ten with at most 28 places. A double
becomes such a decimal with as many digits as fit; the decimal is rounded exactly.
-/

namespace RecordStats.Decimal

/-- A decimal: `digits / 10 ^ places`, negated when `negative`. -/
structure Wide where
  negative : Bool
  digits : Nat
  places : Nat
deriving DecidableEq, Inhabited

namespace Wide

def limit : Nat := 79228162514264337593543950336

def maxPlaces : Nat := 28

/-- Digits over a power of two are brought over a power of ten, one factor at a time: an even number
is halved, an odd one times five goes over ten, or is halved with a loss where that does not fit. The
number of places comes with the digits. -/
def clearTwos : Nat → Nat → Nat → Nat × Nat
  | digits, places, 0 => (digits, places)
  | digits, places, twos + 1 =>
    if digits % 2 = 0 then clearTwos (digits / 2) places twos
    else if digits * 5 < limit then clearTwos (digits * 5) (places + 1) twos
    else clearTwos (digits / 2) places twos

/-- Digits times a power of two are brought to a power of ten, one factor at a time: they are doubled
while that fits, else they are divided by five with a loss and a factor of ten is owed. -/
def spreadTwos : Nat → Nat → Nat → Nat × Nat
  | digits, tens, 0 => (digits, tens)
  | digits, tens, twos + 1 =>
    if digits < limit / 2 then spreadTwos (digits * 2) tens twos
    else spreadTwos (digits / 5) (tens + 1) twos

/-- Digits times ten, as often as is owed, if they fit. -/
def payTens : Nat → Nat → Option Nat
  | digits, 0 => some digits
  | digits, tens + 1 => if digits * 10 < limit then payTens (digits * 10) tens else none

/-- Digits with too many places lose the last one again and again, a five or more going up; what
becomes zero on the way is zero. -/
def dropPlaces : Nat → Nat → Nat
  | digits, 0 => digits
  | digits, excess + 1 =>
    if digits / 10 = 0 then 0
    else dropPlaces (digits / 10 + (if 5 ≤ digits % 10 then 1 else 0)) excess

/-- The decimal of a finite double, if it is not too large. -/
def ofDouble? (x : Float) : Option Wide :=
  if !x.isFinite then none
  else
    let p := Double.parts x
    if p.exponent < 0 then
      let (digits, places) := clearTwos p.mantissa 0 (-p.exponent).toNat
      let kept := dropPlaces digits (places - maxPlaces)
      some ⟨p.negative, kept, if kept = 0 then 0 else min places maxPlaces⟩
    else
      let (digits, tens) := spreadTwos p.mantissa 0 p.exponent.toNat
      (payTens digits tens).map fun n => ⟨p.negative, n, 0⟩

/-- The decimal with fewer places, a half going to the even neighbour; one that has no more places
already is kept. -/
def roundTo (w : Wide) (places : Nat) : Wide :=
  if w.places ≤ places then w
  else ⟨w.negative, Double.quotEven w.digits (Nat.pow 10 (w.places - places)), places⟩

/-- The whole number that a decimal without places is. -/
def whole (w : Wide) : Int :=
  if w.negative then -w.digits else w.digits

/-- A double near the decimal: its whole part and its fraction as doubles, added, and rounded once
more at the last place. Zero has no sign. -/
def toDouble (w : Wide) : Float :=
  let unsigned :=
    if w.places = 0 then Double.nearest false w.digits 0
    else
      let unit := Nat.pow 10 w.places
      let whole := Double.nearest false (w.digits / unit) 0
      let part := Double.nearest false (w.digits % unit) 0 / Double.nearest false unit 0
      if part == 0 then whole
      else
        let scale := Double.powNat 10 w.places
        Double.roundAwayFloat ((whole + part) * scale) / scale
  if w.negative && w.digits != 0 then -unsigned else unsigned

end Wide

end RecordStats.Decimal
