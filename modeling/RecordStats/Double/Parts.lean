/-!
Doubles as exact numbers: a finite double is a signed multiple of a power of two, and a multiple of a
power of two has a nearest double. Rounding to whole numbers and the remainder of a division are
computed on these parts, so that they are exact.
-/

namespace RecordStats.Double

/-- A finite double: `mantissa * 2 ^ exponent`, negated when `negative`. -/
structure Parts where
  negative : Bool
  mantissa : Nat
  exponent : Int

def pow2 (e : Int) : Nat :=
  Nat.pow 2 e.toNat

/-- The bit before a normal double's fraction: two to the 52. -/
def leadingBit : Nat := 4503599627370496

/-- Whether a double has its sign bit set; zero and NaN have a sign too. -/
def isNegative (x : Float) : Bool :=
  9223372036854775808 ≤ x.toBits.toNat

def parts (x : Float) : Parts :=
  let bits := x.toBits.toNat
  let field : Nat := bits / leadingBit % 2048
  let fraction : Nat := bits % leadingBit
  if field = 0 then ⟨isNegative x, fraction, -1074⟩
  else ⟨isNegative x, fraction + leadingBit, (field : Int) - 1075⟩

/-- A quotient of naturals rounded to the nearest one, a half going to the even neighbour. -/
def quotEven (num den : Nat) : Nat :=
  let q := num / den
  let twice := 2 * (num % den)
  if den < twice ∨ (twice = den ∧ q % 2 = 1) then q + 1 else q

/-- A double with the given sign and the other one's size. -/
def withSign (negative : Bool) (x : Float) : Float :=
  if isNegative x = negative then x else -x

/-- The double nearest to `mantissa * 2 ^ exponent`, a half going to the even neighbour; too large a
number gives infinity. -/
def nearest (negative : Bool) (mantissa : Nat) (exponent : Int) : Float :=
  if mantissa = 0 then withSign negative 0
  else
    let grid := max (exponent + (Nat.log2 mantissa : Int) - 52) (-1074)
    if 971 < grid then withSign negative (1 / 0)
    else
      let steps :=
        if grid ≤ exponent then mantissa * pow2 (exponent - grid)
        else quotEven mantissa (pow2 (grid - exponent))
      -- A step count of `2 ^ 53` carries into the exponent field by itself.
      let bits := if steps < leadingBit then steps else steps - leadingBit + (grid + 1075).toNat * leadingBit
      withSign negative (Float.ofBits (UInt64.ofNat bits))

/-- The largest whole number at or below a finite double. -/
def floor (x : Float) : Int :=
  let p := parts x
  let n : Int := if p.negative then -p.mantissa else p.mantissa
  if 0 ≤ p.exponent then n * pow2 p.exponent else Int.fdiv n (pow2 (-p.exponent))

/-- The smallest whole number at or above a finite double. -/
def ceil (x : Float) : Int :=
  -floor (-x)

/-- A finite double without its fraction. -/
def truncate (x : Float) : Int :=
  if isNegative x then ceil x else floor x

/-- The whole number nearest to a finite double, a half going to the even neighbour. -/
def roundEven (x : Float) : Int :=
  let p := parts x
  let n := if 0 ≤ p.exponent then p.mantissa * pow2 p.exponent
    else quotEven p.mantissa (pow2 (-p.exponent))
  if p.negative then -n else n

/-- A double rounded to a whole number as a double; zero keeps the sign, and what is not finite is
already as round as it gets. -/
def roundEvenFloat (x : Float) : Float :=
  if x.isFinite then
    let p := parts x
    if 0 ≤ p.exponent then x else nearest p.negative (quotEven p.mantissa (pow2 (-p.exponent))) 0
  else x

/-- Like `roundEvenFloat`, with a half going away from zero. -/
def roundAwayFloat (x : Float) : Float :=
  if x.isFinite then
    let p := parts x
    if 0 ≤ p.exponent then x
    else nearest p.negative ((2 * p.mantissa + pow2 (-p.exponent)) / (2 * pow2 (-p.exponent))) 0
  else x

/-- Whether a finite double is a whole number. -/
def isWhole (x : Float) : Bool :=
  let p := parts x
  0 ≤ p.exponent || p.mantissa % pow2 (-p.exponent) == 0

/-- The remainder of the division that truncates its quotient: exact, with the sign of `x`. A NaN, an
infinite `x` and a zero `y` have none. -/
def remainder (x y : Float) : Float :=
  if x.isNaN || y.isNaN || x.isInf || y == 0 then 0 / 0
  else if y.isInf then x
  else
    let p := parts x
    let q := parts y
    let low := min p.exponent q.exponent
    let r := (p.mantissa * pow2 (p.exponent - low)) % (q.mantissa * pow2 (q.exponent - low))
    nearest p.negative r low

/-- `x * 2 ^ n`, rounded once. -/
def scale (x : Float) (n : Int) : Float :=
  if x.isFinite then
    let p := parts x
    nearest p.negative p.mantissa (p.exponent + max (-4400) (min n 4400))
  else x

/-- The next double after `x` on the way to `y`; `y` itself when they are equal. -/
def next (x y : Float) : Float :=
  if x.isNaN || y.isNaN then x + y
  else if x == y then y
  else if x == 0 then withSign (isNegative y) (Float.ofBits 1)
  else if isNegative x == decide (x < y) then Float.ofBits (x.toBits - 1)
  else Float.ofBits (x.toBits + 1)

/-- Powers of a double with a natural exponent, by squaring: the products are rounded in this order. -/
def powNat (x : Float) (n : Nat) : Float :=
  go 1 x n
where
  /-- Multiplies `product` by the squares that the bits of `n` call for. -/
  go (product square : Float) (n : Nat) : Float :=
    if h : n ≤ 1 then (if n = 1 then product * square else product)
    else go (if n % 2 = 1 then product * square else product) (square * square) (n / 2)
  termination_by n
  decreasing_by omega

end RecordStats.Double
