import RecordStats.Decimal.Read
import RecordStats.Double.Elementary
import RecordStats.Evaluation.Failure
import RecordStats.Kinematics.Vector
import RecordStats.Value.Text

/-!
What operators do. An operator has an ordered list of overloads; the first one that accepts the
operands is applied. An overload may also refuse operands with an error, which ends the search, so the
overloads that refuse come after those that only decline.
-/

namespace RecordStats

/-- One meaning of an operator. Function values that it makes get the given origin. -/
structure Overload where
  accepts : List Value → Except Cause Bool
  apply : Origin → List Value → Except Cause Value

namespace Overload

/-! ### Which operands an overload accepts -/

def always : List Value → Except Cause Bool :=
  fun _ => .ok true

def pair (operands : List Value) : Except Cause Bool :=
  .ok (operands.length = 2)

def isInteger : Value → Bool
  | .integer _ => true
  | _ => false

def integers (operands : List Value) : Except Cause Bool :=
  .ok (operands.all isInteger)

def numbers (operands : List Value) : Except Cause Bool :=
  match operands.find? fun v => v.number?.isNone with
  | some v => .error (.notNumber v.text)
  | none => .ok true

def booleans (operands : List Value) : Except Cause Bool :=
  match operands.find? fun v => v.boolean?.isNone with
  | some v => .error (.notBoolean v.text)
  | none => .ok true

/-- Two integers, the second not negative. -/
def naturalPower : List Value → Except Cause Bool
  | [.integer _, .integer n] => .ok (0 ≤ n.toInt)
  | _ => .ok false

def memberName : List Value → String
  | _ :: .string name :: _ => name
  | _ => ""

/-- A list or a tuple to begin with. -/
def sequence : List Value → Except Cause Bool
  | v :: _ => .ok v.items?.isSome
  | [] => .ok false

/-- Whether a name is a member or a method of Lorentz vectors. -/
def isVectorName (name : String) : Bool :=
  (Kinematics.Vector.member? name).isSome || (VectorMethod.ofName? name).isSome

def vector (cartesian : Bool) (operands : List Value) : Except Cause Bool :=
  match operands with
  | v :: _ => .ok (isVectorName (memberName operands) &&
      (Kinematics.Vector.ofValue? v).any fun w => w.isCartesian == cartesian)
  | [] => .ok false

def record : List Value → Except Cause Bool
  | .record _ :: _ => .ok true
  | _ => .ok false

def indexing : List Value → Except Cause Bool
  | [.list _, .integer _] | [.tuple _, .integer _] => .ok true
  | _ => .ok false

def keying : List Value → Except Cause Bool
  | [.record _, .string _] => .ok true
  | _ => .ok false

/-! ### What overloads compute -/

/-- An integer result, if it fits in 64 bits. -/
def exact (op : Operator) (n : Int) : Except Cause Value :=
  match Decimal.word? n with
  | some w => .ok (.integer w)
  | none => .error (.overflow op)

def ofIntegers (op : Operator) (f : Int → Int → Except Cause Value) : Overload where
  accepts := integers
  apply := fun _ operands => match operands with
    | .integer a :: .integer b :: _ => f a.toInt b.toInt
    | _ => .error (.operandCount op)

def ofNumbers (op : Operator) (f : Float → Float → Except Cause Value) : Overload where
  accepts := numbers
  apply := fun _ operands => match operands with
    | a :: b :: _ => f (a.number?.getD Double.nan) (b.number?.getD Double.nan)
    | _ => .error (.operandCount op)

def comparing (op : Operator) (holds : Float → Float → Bool) : Overload :=
  ofNumbers op fun x y => .ok (.boolean (holds x y))

/-- Booleans as operands of a connective. A first operand of the settling value is the result, whatever
follows, and even if nothing does; otherwise the second operand is. -/
def ofBooleans (op : Operator) (settling : Bool) : Overload where
  accepts := booleans
  apply := fun _ operands => match operands with
    | .boolean a :: rest =>
      if a = settling then .ok (.boolean a)
      else match rest with
        | .boolean b :: _ => .ok (.boolean b)
        | _ => .error (.operandCount op)
    | _ => .error (.operandCount op)

def relating (op : Operator) (holds : Value → Value → Bool) : Overload where
  accepts := pair
  apply := fun _ operands => match operands with
    | a :: b :: _ => .ok (.boolean (holds a b))
    | _ => .error (.operandCount op)

def ofInteger (op : Operator) (f : Int → Except Cause Value) : Overload where
  accepts := integers
  apply := fun _ operands => match operands with
    | .integer a :: _ => f a.toInt
    | _ => .error (.operandCount op)

def ofNumber (op : Operator) (f : Float → Float) : Overload where
  accepts := numbers
  apply := fun _ operands => match operands with
    | a :: _ => .ok (.float (f (a.number?.getD Double.nan)))
    | [] => .error (.operandCount op)

def quotient (x y : Float) : Except Cause Value :=
  if y == 0 then .error .divisionByZero else .ok (.float (x / y))

/-- The remainder of a division that truncates, moved to the side of zero where the divisor is. -/
def onSideOf (b r : Int) : Int :=
  if r ≠ 0 && decide (r < 0) != decide (b < 0) then r + b else r

/-- The remainder of two integers, with the sign of the divisor. Nothing here is checked for overflow: a sum
that does not fit in 64 bits would wrap. -/
def integerModulo (a b : Int) : Except Cause Value :=
  if b = 0 then .error .moduloByZero else .ok (.integer (.ofInt (onSideOf b (Int.tmod a b))))

/-- The remainder of two doubles, with the sign of the divisor. -/
def floatModulo (x y : Float) : Except Cause Value :=
  if y == 0 then .error .moduloByZero
  else
    let r := Double.remainder x y
    .ok (.float (if r != 0 && decide (r < 0) != decide (y < 0) then r + y else r))

/-- A power of an integer with a natural exponent; the exponent has to fit in 32 bits, and a power too
large for 64 bits is not computed. -/
def integerPower (b e : Int) : Except Cause Value :=
  if 4294967296 ≤ e then .error (.overflow .power)
  else if b.natAbs ≤ 1 then
    exact .power (if e = 0 then 1 else if e % 2 = 0 then b * b else b)
  else if 64 ≤ e then .error (.overflow .power)
  else exact .power (Int.pow b e.toNat)

def floatPower (x y : Float) : Except Cause Value :=
  if x == 0 && y < 0 then .error .zeroToNegative else .ok (.float (x.pow y))

def field (fields : Dict Value) (name : String) : Except Cause Value :=
  match Dict.get? fields name with
  | some v => .ok v
  | none => .error (.noField name)

def listMember (origin : Origin) (operands : List Value) : Except Cause Value :=
  match operands with
  | v :: _ => match ListMethod.ofName? (memberName operands) with
    | some m => .ok (.function (.method origin v (.list m)))
    | none => .error (.noListMethod (memberName operands))
  | [] => .error (.operandCount .member)

def requireVector (v : Value) : Except Cause Kinematics.Vector :=
  match Kinematics.Vector.ofValue? v with
  | some w => .ok w
  | none => .error (.notVector v.text)

def vectorMember (origin : Origin) (operands : List Value) : Except Cause Value :=
  match operands with
  | v :: _ => do
    let w ← requireVector v
    match Kinematics.Vector.member? (memberName operands) with
    | some f => .ok (.float (f w))
    | none => match VectorMethod.ofName? (memberName operands) with
      | some m => .ok (.function (.method origin v (.vector m)))
      | none => .error (.noMember "Lorentz vector" (memberName operands))
  | [] => .error (.operandCount .member)

def recordMember (operands : List Value) : Except Cause Value :=
  match operands with
  | .record fields :: _ => field fields (memberName operands)
  | _ => .error (.operandCount .member)

def noMember (operands : List Value) : Except Cause Value :=
  .error (.noMember ((operands.head?.map Value.kind).getD "null") (memberName operands))

/-- The item of a sequence at an index; negative indices count from the end. -/
def sequenceItem (operands : List Value) : Except Cause Value :=
  match operands with
  | v :: .integer n :: _ =>
    let items := v.items?.getD []
    let index := if n.toInt < 0 then n.toInt + items.length else n.toInt
    let item := if index < 0 then none else items[index.toNat]?
    match item with
    | some item => .ok item
    | none => .error (.indexOutOfRange n.toInt v.kind items.length)
  | _ => .error (.operandCount .item)

end Overload

namespace Operator

open Overload

/-- The overloads of an operator, in the order in which they are tried. -/
def overloads : Operator → List Overload
  | member =>
    [⟨sequence, listMember⟩, ⟨vector true, vectorMember⟩, ⟨vector false, vectorMember⟩,
      ⟨Overload.record, fun _ => recordMember⟩, ⟨always, fun _ => noMember⟩]
  | item => [⟨indexing, fun _ => sequenceItem⟩, ⟨keying, fun _ => recordMember⟩]
  | or => [ofBooleans or true]
  | and => [ofBooleans and false]
  | not => [{
      accepts := booleans
      apply := fun _ operands => match operands with
        | .boolean a :: _ => .ok (.boolean !a)
        | _ => .error (.operandCount not) }]
  | equal => [relating equal Value.equals]
  | notEqual => [relating notEqual fun a b => !a.equals b]
  | lessEqual => [comparing lessEqual fun x y => x ≤ y]
  | less => [comparing less fun x y => x < y]
  | greaterEqual => [comparing greaterEqual fun x y => x ≥ y]
  | greater => [comparing greater fun x y => x > y]
  | plus => [ofIntegers plus fun a b => exact plus (a + b), ofNumbers plus fun x y => .ok (.float (x + y))]
  | minus => [ofIntegers minus fun a b => exact minus (a - b), ofNumbers minus fun x y => .ok (.float (x - y))]
  | times => [ofIntegers times fun a b => exact times (a * b), ofNumbers times fun x y => .ok (.float (x * y))]
  | divide => [ofNumbers divide quotient]
  | modulo => [ofIntegers modulo integerModulo, ofNumbers modulo floatModulo]
  | positive => [ofInteger positive (exact positive), ofNumber positive id]
  | negative => [ofInteger negative fun a => exact negative (-a), ofNumber negative fun x => -x]
  | power => [{ ofIntegers power integerPower with accepts := naturalPower }, ofNumbers power floatPower]

/-- Applies the first of some overloads that accepts the operands. -/
def applyFirst (op : Operator) (origin : Origin) (operands : List Value) : List Overload → Except Cause Value
  | [] => .error (.inapplicable op (operands.map Value.kind))
  | o :: rest => do
    if ← o.accepts operands then o.apply origin operands else applyFirst op origin operands rest

/-- Applies an operator to its operands; errors are blamed on the given place. -/
def apply (op : Operator) (origin : Origin) (operands : List Value) (s : Span) : Outcome Value :=
  (Outcome.ofCause (applyFirst op origin operands op.overloads)).orAt s

end Operator

end RecordStats
