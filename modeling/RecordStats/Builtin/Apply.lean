import RecordStats.Builtin.Basic
import RecordStats.Decimal.Read
import RecordStats.Decimal.Wide
import RecordStats.Double.Special
import RecordStats.Evaluation.Failure
import RecordStats.Value.Basic

/-! What the builtin functions compute. -/

namespace RecordStats.Builtin

def number (b : Builtin) (v : Value) : Except Cause Float :=
  match v.number? with
  | some x => .ok x
  | none => .error (.needsNumber b.name v.kind)

def integer (b : Builtin) (v : Value) : Except Cause Int :=
  match v with
  | .integer n => .ok n.toInt
  | v => .error (.needsInteger b.name v.kind)

def defined (b : Builtin) (x y : Float) : Except Cause Value :=
  if y.isNaN && !x.isNaN then .error (.domain b.name) else .ok (.float y)

def unary (b : Builtin) (f : Float → Float) (v : Value) : Except Cause Value := do
  let x ← number b v
  defined b x (f x)

def unaryAbove (b : Builtin) (bound : Float) (f : Float → Float) (v : Value) : Except Cause Value := do
  let x ← number b v
  if x ≤ bound then .error (.domain b.name) else defined b x (f x)

def binary (b : Builtin) (f : Float → Float → Float) (v w : Value) : Except Cause Value := do
  let x ← number b v
  let y ← number b w
  return .float (f x y)

def property (b : Builtin) (holds : Float → Bool) (v : Value) : Except Cause Value := do
  return .boolean (holds (← number b v))

/-- An integer result, if it fits in 64 bits; else there is the given cause. -/
def fitting (cause : Cause) (n : Int) : Except Cause Value :=
  match Decimal.word? n with
  | some w => .ok (.integer w)
  | none => .error cause

def word (b : Builtin) (n : Int) : Except Cause Value :=
  fitting (.outOfRange b.name) n

def integral (b : Builtin) (x : Float) (rounding : Float → Int) : Except Cause Value :=
  if x.isFinite then word b (rounding x) else .error (.notIntegral b.name x)

def logToBase (v w : Value) : Except Cause Value := do
  let x ← number .log v
  let base ← number .log w
  if x ≤ 0 || base ≤ 0 || base == 1 then .error (.domain Builtin.log.name)
  else return .float (x.log / base.log)

/-- A function that has poles at zero and the negative whole numbers. -/
def beyondPoles (b : Builtin) (f : Float → Float) (v : Value) : Except Cause Value := do
  let x ← number b v
  if x ≤ 0 && x.isFinite && Double.isWhole x then .error (.domain b.name) else return .float (f x)

/-- The product of the whole numbers up to `n`. Those above 20 do not fit in 64 bits. -/
def factorialOf (v : Value) : Except Cause Value := do
  let n ← integer .factorial v
  if n < 0 then .error .negativeFactorial
  else if 20 < n then .error (.factorialOverflow n)
  else word .factorial (Double.factorial n.toNat)

def absOf (v : Value) : Except Cause Value :=
  match v with
  | .integer n => fitting .absOverflow n.toInt.natAbs
  | v => do return .float (← number .abs v).abs

/-- The nearest whole number, a half going to the even neighbour. -/
def roundWhole (x : Float) : Except Cause Value :=
  match Decimal.Wide.ofDouble? x with
  | some w => word .round (w.roundTo 0).whole
  | none => integral .round x Double.roundEven

/-- The nearest number with so many decimal places. Beyond 28 places nothing is rounded. -/
def roundPlaces (x : Float) (places : Nat) : Float :=
  if places ≤ Decimal.Wide.maxPlaces then
    match Decimal.Wide.ofDouble? x with
    | some w => (w.roundTo places).toDouble
    | none => x
  else x

/-- The nearest multiple of a power of ten, computed on doubles. -/
def roundTens (x : Float) (tens : Nat) : Float :=
  let scale := Double.powNat 10 (min tens 2147483647)
  Double.roundEvenFloat (x / scale) * scale

/-- Rounding to a number of places, which may be negative; integers stay integers. -/
def roundTo (v w : Value) : Except Cause Value := do
  let places ← integer .round w
  match v with
  | .integer n =>
    if 0 ≤ places then return .integer n
    else integral .round (roundTens (Double.ofWord n) (-places).toNat) Double.truncate
  | v =>
    let x ← number .round v
    return .float (if 0 ≤ places then roundPlaces x places.toNat else roundTens x (-places).toNat)

def roundOf (v : Value) : Except Cause Value :=
  match v with
  | .integer n => .ok (.integer n)
  | v => do roundWhole (← number .round v)

/-- Rounding in one direction. -/
def directed (b : Builtin) (rounding : Float → Int) (v : Value) : Except Cause Value :=
  match v with
  | .integer n => .ok (.integer n)
  | v => do integral b (← number b v) rounding

def signOf (v : Value) : Except Cause Value := do
  let x ← number .sign v
  return .integer (if x < 0 then -1 else if x > 0 then 1 else 0)

/-- Zero below zero, one above, else the middle. -/
def step (v : Value) (middle : Except Cause Value) : Except Cause Value := do
  let x ← number .heaviside v
  if x < 0 then return .integer 0
  else if x > 0 then return .integer 1
  else middle

def middleOf (w : Value) : Except Cause Value := do
  let _ ← number .heaviside w
  return w

def scaled (v w : Value) : Except Cause Value := do
  let x ← number .ldexp v
  let n ← integer .ldexp w
  return .float (Double.scale x n)

def apply1 (b : Builtin) (v : Value) : Except Cause Value :=
  match b with
  | sqrt => unary b Float.sqrt v
  | exp => unary b Float.exp v
  | exp2 => unary b Float.exp2 v
  | log => unaryAbove b 0 Float.log v
  | log2 => unaryAbove b 0 Float.log2 v
  | log10 => unaryAbove b 0 Float.log10 v
  | expm1 => unary b Double.expm1 v
  | log1p => unaryAbove b (-1) Double.log1p v
  | sin => unary b Float.sin v
  | cos => unary b Float.cos v
  | tan => unary b Float.tan v
  | arcsin => unary b Float.asin v
  | arccos => unary b Float.acos v
  | arctan => unary b Float.atan v
  | rad2deg => unary b (fun x => x * 180 / Double.pi) v
  | deg2rad => unary b (fun x => x * Double.pi / 180) v
  | sinh => unary b Float.sinh v
  | cosh => unary b Float.cosh v
  | tanh => unary b Float.tanh v
  | arcsinh => unary b Double.asinh v
  | arccosh => unary b Double.acosh v
  | arctanh => unary b Double.atanh v
  | erf => unary b Double.erf v
  | erfc => unary b Double.erfc v
  | factorial => factorialOf v
  | gamma => beyondPoles b Double.gamma v
  | lgamma => beyondPoles b Double.logGamma v
  | abs => absOf v
  | round => roundOf v
  | floor => directed b Double.floor v
  | ceil => directed b Double.ceil v
  | sign => signOf v
  | heaviside => step v (.ok (.float 0.5))
  | isfinite => property b Float.isFinite v
  | isinf => property b Float.isInf v
  | isnan => property b Float.isNaN v
  | nextafter => unary b (fun x => Double.next x Double.infinity) v
  | nextbefore => unary b (fun x => Double.next x (-Double.infinity)) v
  | b => .error (.argumentCount b.name b.arity 1)

def apply2 (b : Builtin) (v w : Value) : Except Cause Value :=
  match b with
  | log => logToBase v w
  | logaddexp => binary b Double.logAddExp v w
  | logaddexp2 => binary b Double.logAddExp2 v w
  | arctan2 => binary b Float.atan2 v w
  | hypot => binary b Double.hypot v w
  | round => roundTo v w
  | heaviside => step v (middleOf w)
  | ldexp => scaled v w
  | nexttoward => binary b Double.next v w
  | b => .error (.argumentCount b.name b.arity 2)

def apply (b : Builtin) (arguments : List Value) : Except Cause Value :=
  match arguments with
  | [v] => apply1 b v
  | [v, w] => apply2 b v w
  | arguments => .error (.argumentCount b.name b.arity arguments.length)

end RecordStats.Builtin

namespace RecordStats

/-- The standing bindings of every program: the builtin functions, and `pi`. -/
def standing : Dict Value :=
  Dict.ofPairs (("pi", .float Double.pi) :: Builtin.all.map fun b => (b.name, .function (.builtin b)))

end RecordStats
