import RecordStats.Double.Elementary

/-!
The error function and the gamma function on doubles. Each is computed where it is far from its
awkward places, and carried to the rest by its symmetries and recurrences.
-/

namespace RecordStats.Double

def polynomial (coefficients : List Float) (x : Float) : Float :=
  coefficients.foldr (fun c sum => sum * x + c) 0

/-! ### Error function -/

def sqrtPi : Float := 1.772453850905516

/-- `1 + 2 x²/(2k+1) (1 + 2 x²/(2k+3) (1 + …))`, cut off after `count` terms. -/
def erfSeries (x : Float) : Nat → Nat → Float
  | _, 0 => 1
  | k, count + 1 => 1 + 2 * x * x / Float.ofNat (2 * k + 1) * erfSeries x (k + 1) count

/-- `x + (k/2)/(x + ((k+1)/2)/(x + …))`, cut off after `count` terms. -/
def erfcFraction (x : Float) : Nat → Nat → Float
  | _, 0 => x
  | k, count + 1 => x + Float.ofNat k / 2 / erfcFraction x (k + 1) count

/-- The number without the lower half of its bits. Its square is exact. -/
def coarse (x : Float) : Float :=
  Float.ofBits (x.toBits &&& 0xffffffff00000000)

/-- The exponential of `-x²`. The square is split, so that its rounding does not show. -/
def expMinusSquare (x : Float) : Float :=
  let z := coarse x
  (-z * z).exp * ((z - x) * (z + x)).exp

/-- The complement of the error function far from zero. `x` times it is nearly `expMinusSquare x` over
`sqrtPi`; the offset is near the logarithm of `sqrtPi` and keeps the second factor near one. Dividing
by `x` comes last: where results are too small for all their digits, each step rounds visibly. -/
def erfcTail (x : Float) : Float :=
  if x < 28 then
    let z := coarse x
    let factor := ((z - x) * (z + x) + 0.5625).exp * (x / (erfcFraction x 1 400 * sqrtPi))
    (-z * z - 0.5625).exp * factor / x
  else 0

/-- The slope of the error function at zero, `2 / sqrtPi`, less one and times eight. -/
def erfSlopeExcess : Float := 1.0270333367641007

/-- The error function: twice the integral of `exp (-t²)` from zero to `x`, over the square root of
`pi`. Next to zero it is a line; that is computed eight times too large, so that the smallest doubles
are rounded once. -/
def erf (x : Float) : Float :=
  let a := x.abs
  if a < 3.725290298461914e-9 then 0.125 * (8 * x + erfSlopeExcess * x)
  else if a < 1 then 2 / sqrtPi * x * expMinusSquare x * erfSeries x 1 40
  else if x.isNaN then x
  else withSign (isNegative x) (1 - erfcTail a)

def erfc (x : Float) : Float :=
  if x ≥ 1 then erfcTail x
  else if x ≤ -1 then 2 - erfcTail (-x)
  else 1 - erf x

/-! ### Gamma function -/

/-- The sine of `pi` times a number that is not negative. -/
def sinPi (x : Float) : Float :=
  let r := remainder x 2
  let s := if r > 1 then r - 1 else r
  let t := if s > 0.5 then 1 - s else s
  let value := if t > 0.25 then (pi * (0.5 - t)).cos else (pi * t).sin
  if r > 1 then -value else value

def gammaNumerator : List Float :=
  [23531376880.41076, 42919803642.6491, 35711959237.35567, 17921034426.037209, 6039542586.352028,
    1439720407.3117216, 248874557.86205417, 31426415.585400194, 2876370.6289353725,
    186056.26539522348, 8071.672002365816, 210.82427775157936, 2.5066282746310002]

/-- The denominator: the product of `x`, `x + 1`, … `x + 11`. -/
def gammaDenominator : List Float :=
  [0, 39916800, 120543840, 150917976, 105258076, 45995730, 13339535, 2637558, 357423, 32670, 1925, 66, 1]

/-- The offset that goes with the rational factor, less one half. -/
def gammaOffset : Float := 5.524680040776729583740234375

/-- The rational factor of the gamma function of a positive number. For large ones it is taken in the
inverse, so that the powers stay in range. -/
def gammaFactor (x : Float) : Float :=
  if x < 5 then polynomial gammaNumerator x / polynomial gammaDenominator x
  else polynomial gammaNumerator.reverse (1 / x) / polynomial gammaDenominator.reverse (1 / x)

/-- The gamma function of a positive number that is neither tiny nor too large, as a factor and a second
one that is to be taken twice. The power is halved like this to stay in range. -/
def gammaFactors (x : Float) : Float × Float :=
  let y := x + gammaOffset
  -- What the rounding of `y` lost, carried over by the derivative.
  let lost := if x > gammaOffset then (y - x) - gammaOffset else (y - gammaOffset) - x
  let base := gammaFactor x / y.exp
  (base + lost * (gammaOffset + 0.5) / y * base, y.pow (x / 2 - 0.25))

def factorial (n : Nat) : Nat :=
  match n with
  | 0 => 1
  | n + 1 => (n + 1) * factorial n

/-- The gamma function. It has no value at zero and the negative whole numbers. -/
def gamma (x : Float) : Float :=
  let a := x.abs
  if x.isNaN || x == -infinity then nan
  else if a < 1e-17 then 1 / x
  else if x > 0 then
    if x ≥ 184 then infinity
    else if x ≤ 23 && isWhole x then Float.ofNat (factorial (floor x - 1).toNat)
    else
      let (factor, half) := gammaFactors x
      factor * half * half
  else if a ≥ 184 then (if floor a % 2 = 0 then -0.0 else 0.0)
  else
    let (factor, half) := gammaFactors a
    pi / (-sinPi a * a * factor) / half / half

def logGammaSeries : List Float :=
  [0, 0.42278433509846713, 0.3224670334241132, -0.0673523010531981, 0.020580808427784546,
    -0.007385551028673986, 0.0028905103307415234, -0.001192753911703261, 0.0005096695247430425,
    -0.00022315475845357939, 9.945751278180853e-05, -4.492623673813314e-05, 2.050721277567069e-05,
    -9.439488275268397e-06, 4.374866789907488e-06, -2.039215753801366e-06, 9.55141213040742e-07,
    -4.492469198764566e-07, 2.1207184805554665e-07, -1.0043224823968099e-07, 4.7698101693639804e-08,
    -2.2711094608943164e-08, 1.0838659214896955e-08, -5.183475041970047e-09, 2.4836745438024785e-09,
    -1.1921401405860912e-09, 5.731367241678862e-10, -2.7595228851242334e-10, 1.330476437424449e-10,
    -6.4229645638381e-11, 3.1044247747322276e-11, -1.5021384080754142e-11]

/-- What the leading terms of the logarithm of the gamma function lack for large arguments, as a
polynomial in the inverse. -/
def stirlingSeries : List Float :=
  [0, 1 / 12, 0, -1 / 360, 0, 1 / 1260, 0, -1 / 1680, 0, 1 / 1188, 0, -691 / 360360, 0, 1 / 156]

def halfLogTwoPi : Float := 0.9189385332046728

/-- The logarithm of the gamma function between two and ten: the argument is lowered step by step to
where the series is good, and the factors are gathered. -/
def logGammaDown : Nat → Float → Float → Float
  | 0, x, factors => polynomial logGammaSeries (x - 2) + factors.log
  | steps + 1, x, factors =>
    if x > 2.5 then logGammaDown steps (x - 1) (factors * (x - 1))
    else polynomial logGammaSeries (x - 2) + factors.log

def logGammaPositive (x : Float) : Float :=
  if x ≥ 10 then
    x * (x.log - 1) - 0.5 * x.log + halfLogTwoPi + polynomial stirlingSeries (1 / x)
  else if x ≥ 1.5 then logGammaDown 10 x 1
  else if x ≥ 0.5 then polynomial logGammaSeries (x - 1) - log1p (x - 1)
  else polynomial logGammaSeries x - (x * (x + 1)).log

def logGamma (x : Float) : Float :=
  if x.isNaN then x
  else if x.isInf then infinity
  else if x.abs < 1e-17 then -x.abs.log
  else if x > 0 then logGammaPositive x
  else (pi / ((sinPi (-x)).abs * -x)).log - logGammaPositive (-x)

end RecordStats.Double
