import RecordStats.Decimal.Read
import RecordStats.Text.Basic

/-! Paths through the tree of statistics: names of children, and indices of bins. -/

namespace RecordStats

inductive Segment where
  /-- A child of a namespace, or one of the flow bins of a binning. -/
  | field (name : String)
  /-- A bin; below the first is the underflow, past the last the overflow. -/
  | index (n : Int64)
deriving DecidableEq, Inhabited

/-- A node's way down from the root, which is also its qualified name. -/
abbrev Path := List Segment

def Segment.text : Segment → String
  | field name => name
  | index n => toString n.toInt

/-- What a part of a path's text means: an index if it reads as a number of 64 bits, else a name. -/
def Segment.ofChars (part : List Char) : Segment :=
  match Decimal.readWord? part with
  | some n => .index n
  | none => .field (String.ofList part)

namespace Path

/-- The path that a text names, its parts set apart by slashes; empty parts mean nothing. -/
def ofText (text : String) : Path :=
  ((Text.splitAt '/' text.toList).filter fun part => !part.isEmpty).map Segment.ofChars

def text (path : Path) : String :=
  "/".intercalate (path.map Segment.text)

end Path

end RecordStats
