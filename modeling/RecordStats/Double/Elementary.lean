import RecordStats.Double.Parts

/-!
Elementary functions of doubles that need care where the plain formula loses digits or range:
logarithms and exponentials near zero, lengths, and the inverse hyperbolic functions.
-/

namespace RecordStats.Double

def pi : Float := 3.141592653589793

def ln2 : Float := 0.6931471805599453

def nan : Float := 0 / 0

def infinity : Float := 1 / 0

/-- The exponent of the leading bit of a finite double; that of zero is the least one. -/
def topExponent (x : Float) : Int :=
  let p := parts x
  p.exponent + (Nat.log2 p.mantissa : Int)

/-- The logarithm of `1 + x`. The error of the rounded sum is made good by the factor: it is how far
the sum is from one, over how far it was meant to be. -/
def log1p (x : Float) : Float :=
  let u := 1 + x
  if u == 1 || u == infinity then x else u.log * (x / (u - 1))

/-- The exponential of `x` less one, made good like `log1p`. -/
def expm1 (x : Float) : Float :=
  let u := x.exp
  if u == 1 then x
  else if u.isInf || u - 1 == -1 then u - 1
  else (u - 1) * (x / u.log)

/-- The length of a pair of components; it is infinite when one of them is. -/
def hypot (x y : Float) : Float :=
  if x.isInf || y.isInf then infinity
  else if x.isNaN || y.isNaN then nan
  else
    -- The larger component is scaled near one, so that the squares stay in range.
    let e := max (topExponent x) (topExponent y)
    let a := scale x (-e)
    let b := scale y (-e)
    scale (a * a + b * b).sqrt e

/-- From here on the square of a number leaves no trace of a one that is added to it or taken off. -/
def farOut : Float := 268435456

/-- The inverse of the hyperbolic sine. Far out it is the logarithm of twice the number, taken as a sum
since twice the number may be out of range. -/
def asinh (x : Float) : Float :=
  let a := x.abs
  let inverse := 1 / a
  withSign (isNegative x)
    (if a < farOut then log1p (a + a / (hypot 1 inverse + inverse)) else a.log + ln2)

/-- The inverse of the hyperbolic cosine; there is none below one. Near one it hangs on the distance to
one alone, which is exact. -/
def acosh (x : Float) : Float :=
  if x < 1 then nan
  else if x < farOut then
    let t := x - 1
    log1p (t + (2 * t + t * t).sqrt)
  else x.log + ln2

/-- The inverse of the hyperbolic tangent: half the logarithm of the ratio of `1 + x` to `1 - x`. The
ratio less one is rounded before its logarithm is taken, so digits are lost next to minus one but not
next to one. -/
def atanh (x : Float) : Float :=
  0.5 * log1p (2 * x / (1 - x))

/-- The logarithm of the sum of two numbers that are given by their logarithms. -/
def logAddExp (x y : Float) : Float :=
  if x == y then x + ln2
  else
    let (high, low) := if x > y then (x, y) else (y, x)
    high + log1p (low - high).exp

/-- Like `logAddExp`, with logarithms to the base two. -/
def logAddExp2 (x y : Float) : Float :=
  if x == y then x + 1
  else
    let (high, low) := if x > y then (x, y) else (y, x)
    high + log1p (low - high).exp2 / ln2

/-- The remainder of a division that is not below zero. -/
def positiveRemainder (x y : Float) : Float :=
  let r := remainder x y
  if r < 0 then r + y.abs else r

end RecordStats.Double
