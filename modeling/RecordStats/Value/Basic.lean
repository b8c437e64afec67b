import RecordStats.Builtin.Basic
import RecordStats.Dict
import RecordStats.Program.Basic

/-!
Values: what expressions evaluate to. Data are nulls, booleans, numbers, strings, and lists, tuples and
records of values; a function value is a function together with what it needs when it is called.
-/

namespace RecordStats

/-- Where in the evaluation of a record a function value was made: a place in the tree of evaluations,
the innermost branch first. Two function values made at different places are different functions, even
when they were made from the same text. -/
abbrev Origin := List Nat

/-- Methods of lists and tuples. -/
inductive ListMethod where
  | map | filter | flatten | cross | pairs | distincts | min | max | minby | maxby
deriving DecidableEq, Inhabited

namespace ListMethod

def name : ListMethod → String
  | map => "map"
  | filter => "filter"
  | flatten => "flatten"
  | cross => "cross"
  | pairs => "pairs"
  | distincts => "distincts"
  | min => "min"
  | max => "max"
  | minby => "minby"
  | maxby => "maxby"

def arity : ListMethod → Nat
  | map | filter | cross | minby | maxby => 1
  | flatten | pairs | distincts | min | max => 0

def ofName? (name : String) : Option ListMethod :=
  [map, filter, flatten, cross, pairs, distincts, min, max, minby, maxby].find? fun m => m.name = name

end ListMethod

inductive VectorMethod where
  | dot | deltaPhi | deltaR
deriving DecidableEq, Inhabited

namespace VectorMethod

def name : VectorMethod → String
  | dot => "dot"
  | deltaPhi => "delta_phi"
  | deltaR => "delta_r"

def ofName? (name : String) : Option VectorMethod :=
  [dot, deltaPhi, deltaR].find? fun m => m.name = name

end VectorMethod

/-- What a receiver can be asked for by a call. -/
inductive Method where
  | list (m : ListMethod)
  | vector (m : VectorMethod)
deriving DecidableEq, Inhabited

def Method.name : Method → String
  | list m => m.name
  | vector m => m.name

/-- The bindings that a function has taken with it: those visible where it was made, and below them
the standing ones. -/
structure Env (ν : Type) where
  bindings : List (String × ν)
  standing : List (String × ν)

mutual

/-- Values. The fields of a record are in the order of their names. -/
inductive Value where
  | null
  | boolean (b : Bool)
  | integer (n : Int64)
  | float (x : Float)
  | string (s : String)
  | list (items : List Value)
  | tuple (items : List Value)
  | record (fields : List (String × Value))
  | function (f : Function)

inductive Function where
  | closure (origin : Origin) (name : Option String) (lambda : Lambda) (env : Env Value)
  | builtin (b : Builtin)
  | host (number : Nat)
  | method (origin : Origin) (receiver : Value) (m : Method)

end

instance : Inhabited Value := ⟨.null⟩

/-- What a function is called in texts. -/
def Function.name : Function → String
  | closure _ name _ _ => name.getD "<inline>"
  | builtin b => b.name
  | host _ => "<external>"
  | method _ _ m => m.name

def Double.ofWord (n : Int64) : Float :=
  Float.ofInt n.toInt

namespace Value

/-- What messages call the kind of a value. -/
def kind : Value → String
  | null => "null"
  | boolean _ => "boolean"
  | integer _ => "integer"
  | float _ => "float"
  | string _ => "string"
  | list _ => "list"
  | tuple _ => "tuple"
  | record _ => "record"
  | function _ => "function"

def number? : Value → Option Float
  | integer n => some (Double.ofWord n)
  | float x => some x
  | _ => none

def boolean? : Value → Option Bool
  | boolean b => some b
  | _ => none

/-- The items of a list or a tuple. -/
def items? : Value → Option (List Value)
  | list items => some items
  | tuple items => some items
  | _ => none

def isFunction : Value → Bool
  | function _ => true
  | _ => false

/-- A record with the given fields; of two fields with one name the later one counts. -/
def ofFields (fields : List (String × Value)) : Value :=
  record (Dict.ofPairs fields)

def ofLiteral : Literal → Value
  | .integer n => integer n
  | .float x => float x
  | .string s => string s

/-! ### Equality -/

/-- Whether two functions are the same one: made at the same place, or known by the same name or
number. -/
def sameFunction : Function → Function → Bool
  | .closure a _ _ _, .closure b _ _ _ => a == b
  | .builtin a, .builtin b => a == b
  | .host a, .host b => a == b
  | .method a _ _, .method b _ _ => a == b
  | _, _ => false

mutual

/-- Whether two values are equal. Two integers are compared exactly, and a float with any number as
doubles; a list is never equal to a tuple. -/
def equals : Value → Value → Bool
  | null, null => true
  | boolean a, boolean b => a == b
  | integer a, integer b => a == b
  | integer a, float y => Double.ofWord a == y
  | float x, integer b => x == Double.ofWord b
  | float x, float y => x == y
  | string a, string b => a == b
  | list xs, list ys => equalItems xs ys
  | tuple xs, tuple ys => equalItems xs ys
  | record xs, record ys => equalFields xs ys
  | function f, function g => sameFunction f g
  | _, _ => false

def equalItems : List Value → List Value → Bool
  | [], [] => true
  | x :: xs, y :: ys => equals x y && equalItems xs ys
  | _, _ => false

def equalFields : List (String × Value) → List (String × Value) → Bool
  | [], [] => true
  | (n, x) :: xs, (m, y) :: ys => n == m && equals x y && equalFields xs ys
  | _, _ => false

end

end Value

end RecordStats
