import RecordStats.Decimal.Text
import RecordStats.Text.Quoted
import RecordStats.Value.Basic

/-! The text of a value, as messages show it. -/

namespace RecordStats

def Function.text (f : Function) : String :=
  "<function " ++ f.name ++ ">"

namespace Value

mutual

/-- The text of a value: lists in brackets, tuples in parentheses (one item is followed by a comma),
records in braces with their fields in order. -/
def text : Value → String
  | null => "null"
  | boolean b => if b then "True" else "False"
  | integer n => toString n.toInt
  | float x => Decimal.shown x
  | string s => Text.quote s
  | list items => "[" ++ ", ".intercalate (itemTexts items) ++ "]"
  | tuple items =>
    "(" ++ ", ".intercalate (itemTexts items) ++ (if items.length = 1 then ",)" else ")")
  | record fields => "\x7b" ++ ", ".intercalate (fieldTexts fields) ++ "\x7d"
  | function f => f.text

def itemTexts : List Value → List String
  | [] => []
  | v :: rest => text v :: itemTexts rest

def fieldTexts : List (String × Value) → List String
  | [] => []
  | (name, v) :: rest => (name ++ ": " ++ text v) :: fieldTexts rest

end

end Value

end RecordStats
