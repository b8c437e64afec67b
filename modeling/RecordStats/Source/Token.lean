import RecordStats.Decimal.Text
import RecordStats.Source.Span
import RecordStats.Text.Quoted

/-! Tokens: the reserved words and marks of the language, and the literals and names between them. -/

namespace RecordStats

/-- Reserved words and marks, each with one spelling. -/
inductive Symbol where
  | and | or | not
  | count | sum | profile | fraction
  | source | region | vary | along | weight | each | within
  | plus | minus | star | slash | percent | power
  | equal | notEqual | less | lessEqual | greater | greaterEqual
  | define | leftArrow | rightArrow
  | dot | comma | semicolon | colon
  | leftParen | rightParen | leftBracket | rightBracket | leftBrace | rightBrace
deriving DecidableEq, Inhabited

namespace Symbol

def text : Symbol → String
  | and => "and"
  | or => "or"
  | not => "not"
  | count => "count"
  | sum => "sum"
  | profile => "profile"
  | fraction => "fraction"
  | source => "source"
  | region => "region"
  | vary => "vary"
  | along => "by"
  | weight => "weight"
  | each => "for"
  | within => "in"
  | plus => "+"
  | minus => "-"
  | star => "*"
  | slash => "/"
  | percent => "%"
  | power => "**"
  | equal => "=="
  | notEqual => "!="
  | less => "<"
  | lessEqual => "<="
  | greater => ">"
  | greaterEqual => ">="
  | define => ":="
  | leftArrow => "<-"
  | rightArrow => "->"
  | dot => "."
  | comma => ","
  | semicolon => ";"
  | colon => ":"
  | leftParen => "("
  | rightParen => ")"
  | leftBracket => "["
  | rightBracket => "]"
  | leftBrace => "\x7b"
  | rightBrace => "\x7d"

def words : List Symbol :=
  [and, or, not, count, sum, profile, fraction, source, region, vary, along, weight, each, within]

def ofWord? (word : String) : Option Symbol :=
  words.find? fun s => s.text = word

def ofPair? : Char → Char → Option Symbol
  | '-', '>' => some rightArrow
  | '*', '*' => some power
  | '=', '=' => some equal
  | '!', '=' => some notEqual
  | '<', '=' => some lessEqual
  | '<', '-' => some leftArrow
  | '>', '=' => some greaterEqual
  | ':', '=' => some define
  | _, _ => none

def ofChar? : Char → Option Symbol
  | '+' => some plus
  | '-' => some minus
  | '*' => some star
  | '/' => some slash
  | '%' => some percent
  | '<' => some less
  | '>' => some greater
  | ':' => some colon
  | ';' => some semicolon
  | ',' => some comma
  | '(' => some leftParen
  | ')' => some rightParen
  | '[' => some leftBracket
  | ']' => some rightBracket
  | '\x7b' => some leftBrace
  | '\x7d' => some rightBrace
  | '.' => some dot
  | _ => none

end Symbol

/-- The smallest pieces of a program's text. -/
inductive Token where
  | float (value : Float)
  | integer (value : Int64)
  | string (value : String)
  | name (value : String)
  | symbol (value : Symbol)
  | finish
deriving Inhabited

namespace Token

def describe : Token → String
  | float x => "number " ++ Decimal.plain x
  | integer n => "number " ++ toString n.toInt
  | string s => "string " ++ Text.quote s
  | name n => "identifier '" ++ n ++ "'"
  | symbol s => "'" ++ s.text ++ "'"
  | finish => "end of input"

def isSymbol (s : Symbol) : Token → Bool
  | symbol t => s = t
  | _ => false

end Token

/-- A token where it stands in its text. -/
structure Lexeme where
  token : Token
  span : Span
  /-- Whether a newline stands between the token and the one before it. -/
  afterNewline : Bool
deriving Inhabited

end RecordStats
