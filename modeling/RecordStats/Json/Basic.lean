import RecordStats.Value.Text

/-!
JSON documents, and what they are as values. Integers of 64 bits and doubles are kept apart; the
members of an object are in the order of their names.
-/

namespace RecordStats

inductive Json where
  | null
  | boolean (b : Bool)
  | integer (n : Int64)
  | float (x : Float)
  | string (s : String)
  | array (items : List Json)
  | object (members : List (String × Json))

instance : Inhabited Json := ⟨.null⟩

namespace Json

/-- A double as JSON, which has no number for what is not finite and gets a word instead. -/
def ofDouble (x : Float) : Json :=
  if x.isFinite then float x
  else if x.isNaN then string "nan"
  else if x > 0 then string "inf"
  else string "-inf"

def ofMembers (members : List (String × Json)) : Json :=
  object (Dict.ofPairs members)

end Json

namespace Value

mutual

/-- A value as JSON. Tuples become arrays like lists, functions their texts. -/
def toJson : Value → Json
  | null => .null
  | boolean b => .boolean b
  | integer n => .integer n
  | float x => .ofDouble x
  | string s => .string s
  | list items => .array (itemsToJson items)
  | tuple items => .array (itemsToJson items)
  | record fields => .object (fieldsToJson fields)
  | function f => .string f.text

def itemsToJson : List Value → List Json
  | [] => []
  | v :: rest => toJson v :: itemsToJson rest

def fieldsToJson : List (String × Value) → List (String × Json)
  | [] => []
  | (name, v) :: rest => (name, toJson v) :: fieldsToJson rest

end

mutual

/-- What a JSON document is as a value: arrays are lists, objects records. -/
def ofJson : Json → Value
  | .null => null
  | .boolean b => boolean b
  | .integer n => integer n
  | .float x => float x
  | .string s => string s
  | .array items => list (itemsOfJson items)
  | .object members => record (fieldsOfJson members)

def itemsOfJson : List Json → List Value
  | [] => []
  | j :: rest => ofJson j :: itemsOfJson rest

def fieldsOfJson : List (String × Json) → List (String × Value)
  | [] => []
  | (name, j) :: rest => (name, ofJson j) :: fieldsOfJson rest

end

end Value

end RecordStats
