/-! The builtin functions: their names and how many arguments they take. -/

namespace RecordStats

/-- Functions on numbers that a program may call without defining them. -/
inductive Builtin where
  -- powers and logarithms
  | sqrt | exp | exp2 | log | log2 | log10 | expm1 | log1p | logaddexp | logaddexp2
  -- angles and triangles
  | sin | cos | tan | arcsin | arccos | arctan | arctan2 | hypot | rad2deg | deg2rad
  -- hyperbolic functions
  | sinh | cosh | tanh | arcsinh | arccosh | arctanh
  -- error function and gamma function
  | erf | erfc | factorial | gamma | lgamma
  -- rounding and steps
  | abs | round | floor | ceil | sign | heaviside
  -- what kind of number, and its neighbours
  | isfinite | isinf | isnan | ldexp | nextafter | nextbefore | nexttoward
deriving DecidableEq, Inhabited

namespace Builtin

def name : Builtin → String
  | sqrt => "sqrt" | exp => "exp" | exp2 => "exp2" | log => "log" | log2 => "log2" | log10 => "log10"
  | expm1 => "expm1" | log1p => "log1p" | logaddexp => "logaddexp" | logaddexp2 => "logaddexp2"
  | sin => "sin" | cos => "cos" | tan => "tan" | arcsin => "arcsin" | arccos => "arccos"
  | arctan => "arctan" | arctan2 => "arctan2" | hypot => "hypot" | rad2deg => "rad2deg"
  | deg2rad => "deg2rad" | sinh => "sinh" | cosh => "cosh" | tanh => "tanh" | arcsinh => "arcsinh"
  | arccosh => "arccosh" | arctanh => "arctanh" | erf => "erf" | erfc => "erfc"
  | factorial => "factorial" | gamma => "gamma" | lgamma => "lgamma" | abs => "abs" | round => "round"
  | floor => "floor" | ceil => "ceil" | sign => "sign" | heaviside => "heaviside"
  | isfinite => "isfinite" | isinf => "isinf" | isnan => "isnan" | ldexp => "ldexp"
  | nextafter => "nextafter" | nextbefore => "nextbefore" | nexttoward => "nexttoward"

/-- The least and the greatest number of arguments. -/
def arity : Builtin → Nat × Nat
  | log | round | heaviside => (1, 2)
  | logaddexp | logaddexp2 | arctan2 | hypot | ldexp | nexttoward => (2, 2)
  | _ => (1, 1)

def all : List Builtin :=
  [sqrt, exp, exp2, log, log2, log10, expm1, log1p, logaddexp, logaddexp2,
    sin, cos, tan, arcsin, arccos, arctan, arctan2, hypot, rad2deg, deg2rad,
    sinh, cosh, tanh, arcsinh, arccosh, arctanh, erf, erfc, factorial, gamma, lgamma,
    abs, round, floor, ceil, sign, heaviside,
    isfinite, isinf, isnan, ldexp, nextafter, nextbefore, nexttoward]

theorem mem_all (b : Builtin) : b ∈ all := by
  cases b <;> decide

def ofName? (name : String) : Option Builtin :=
  all.find? fun b => b.name = name

end Builtin

end RecordStats
