/-! The operators of the language, the member access `x.name` and the subscript `x[i]` among them. -/

namespace RecordStats

/-- Operators; what one does depends on the kinds of its operands. -/
inductive Operator where
  | member | item
  | or | and | not
  | equal | notEqual | lessEqual | less | greaterEqual | greater
  | plus | minus | times | divide | modulo
  | positive | negative
  | power
deriving DecidableEq, Inhabited

namespace Operator

def arity : Operator → Nat
  | not | positive | negative => 1
  | _ => 2

def symbol : Operator → String
  | member => "."
  | item => "[]"
  | or => "or"
  | and => "and"
  | not => "not"
  | equal => "=="
  | notEqual => "!="
  | lessEqual => "<="
  | less => "<"
  | greaterEqual => ">="
  | greater => ">"
  | plus => "+"
  | minus => "-"
  | times => "*"
  | divide => "/"
  | modulo => "%"
  | positive => "unary +"
  | negative => "unary -"
  | power => "**"

def isComparison : Operator → Bool
  | equal | notEqual | lessEqual | less | greaterEqual | greater => true
  | _ => false

end Operator

end RecordStats
