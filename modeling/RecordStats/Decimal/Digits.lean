import RecordStats.Double.Parts

/-!
Decimal digits of doubles, in exact arithmetic: the fewest digits that read back as the same double,
and a given number of digits rounded correctly.
-/

namespace RecordStats.Decimal

/-- A positive decimal number: its digits, the first before the point and none trailing unless asked
for, times a power of ten. -/
structure Digits where
  digits : List Char
  exponent : Int

def width (n : Nat) : Nat :=
  (Nat.toDigits 10 n).length

/-- The `e` with `10 ^ e ≤ num / den < 10 ^ (e + 1)`, for positive numbers. -/
def magnitude (num den : Nat) : Int :=
  if den ≤ num then (width (num / den) : Int) - 1
  else -(width ((den + num - 1) / num - 1) : Int)

/-- `n * base ^ e` as a fraction's numerator, given that the denominator takes the negative powers. -/
def raise (n base : Nat) (e : Int) : Nat :=
  n * Nat.pow base e.toNat

/-- The digits of `n` on the grid of `10 ^ step`, without trailing zeros. -/
def trimmed (n : Nat) (step : Int) : Digits :=
  let all := Nat.toDigits 10 n
  let kept := (all.reverse.dropWhile (· == '0')).reverse
  ⟨if kept.isEmpty then ['0'] else kept, step + (all.length : Int) - 1⟩

/-- The numbers that read back as one double: those between two bounds, which belong to them when
the double's mantissa is even. All three are multiples of `2 ^ exponent`. -/
structure Interval where
  low : Nat
  value : Nat
  high : Nat
  exponent : Int
  closed : Bool

/-- The interval of a positive double. The gap below a power of two is half as wide. -/
def interval (p : Double.Parts) : Interval :=
  { low := if p.mantissa = Double.leadingBit ∧ -1074 < p.exponent then 4 * p.mantissa - 1 else 4 * p.mantissa - 2
    value := 4 * p.mantissa
    high := 4 * p.mantissa + 2
    exponent := p.exponent - 2
    closed := p.mantissa % 2 = 0 }

/-- Whether `candidate * 10 ^ step` reads back as the interval's double. -/
def Interval.holds (i : Interval) (candidate : Nat) (step : Int) : Bool :=
  let c := raise (raise candidate 10 step) 2 (-i.exponent)
  let bound (n : Nat) := raise (raise n 10 (-step)) 2 i.exponent
  if i.closed then bound i.low ≤ c && c ≤ bound i.high else bound i.low < c && c < bound i.high

/-- Where a number goes that lies halfway between two grid points. -/
inductive Half where
  | even | up
deriving DecidableEq

def Half.quotient (half : Half) (num den : Nat) : Nat :=
  match half with
  | even => Double.quotEven num den
  | up => (2 * num + den) / (2 * den)

/-- The grid point with `count` digits that reads back as the double, if one of the double's two
neighbours does; the nearer one if both do. -/
def onGrid? (half : Half) (i : Interval) (top : Int) (count : Nat) : Option Digits :=
  let step := top - (count : Int) + 1
  let num := raise (raise i.value 10 (-step)) 2 i.exponent
  let den := raise (raise 1 10 step) 2 (-i.exponent)
  let below := num / den
  let near := half.quotient num den
  let far := if near = below then below + 1 else below
  if i.holds near step then some (trimmed near step)
  else if i.holds far step then some (trimmed far step)
  else none

/-- The fewest digits that read back as the positive double, and of those the nearest. Seventeen
always do. -/
def shortest (half : Half) (p : Double.Parts) : Digits :=
  let i := interval p
  let top := magnitude (raise i.value 2 i.exponent) (raise 1 2 (-i.exponent))
  ((List.range 17).findSome? fun n => onGrid? half i top (n + 1)).getD ⟨['0'], 0⟩

/-- The digits of a positive double rounded to `count` of them, a half going to the even neighbour. -/
def rounded (p : Double.Parts) (count : Nat) : Digits :=
  let num := raise p.mantissa 2 p.exponent
  let den := raise 1 2 (-p.exponent)
  let top := magnitude num den
  let step := top - (count : Int) + 1
  let n := Double.quotEven (raise num 10 (-step)) (raise den 10 step)
  if n = Nat.pow 10 count then ⟨Nat.toDigits 10 (n / 10), top + 1⟩ else ⟨Nat.toDigits 10 n, top⟩

end RecordStats.Decimal
