import RecordStats.Text.Printable

/-! Quoted text: how a string is shown inside a message, between double quotes and on one line. -/

namespace RecordStats.Text

def hex (n : Nat) : String :=
  String.ofList (Nat.toDigits 16 n)

/-- One character inside quotes: short escapes where there is one, the code point where the character
would not be seen. -/
def escape (c : Char) : String :=
  if c = '"' then "\\\""
  else if c = '\\' then "\\\\"
  else if c = '\n' then "\\n"
  else if c = '\t' then "\\t"
  else if c = '\r' then "\\r"
  else if c = '\x00' then "\\0"
  else if isShown c then String.singleton c
  else "\\u\x7b" ++ hex c.toNat ++ "\x7d"

def quote (s : String) : String :=
  "\"" ++ String.join (s.toList.map escape) ++ "\""

end RecordStats.Text
