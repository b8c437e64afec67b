import RecordStats.Evaluation.Failure
import RecordStats.Tree.Scalar

/-!
Bins: how an axis sorts numbers into a fixed set of slots. Besides its bins an axis has a slot for what
lies below them, one for what lies above, and one for what is not a number.
-/

namespace RecordStats

inductive Bins (α : Type) where
  | regular (count : Nat) (low high : α)
  | edged (edges : List α)
deriving Inhabited

/-- What a number is sorted into. -/
inductive Slot where
  | bin (i : Nat)
  | underflow
  | overflow
  | nanflow
deriving DecidableEq, Inhabited

def Slot.text : Slot → String
  | bin i => "Bin(" ++ toString i ++ ")"
  | underflow => "Underflow"
  | overflow => "Overflow"
  | nanflow => "Nanflow"

def Slot.segment : Slot → Segment
  | bin i => .index (Int64.ofNat i)
  | underflow => .field "underflow"
  | overflow => .field "overflow"
  | nanflow => .field "nanflow"

namespace Bins

variable {α : Type}

def count : Bins α → Nat
  | regular n _ _ => n
  | edged edges => edges.length - 1

variable [Scalar α]

/-- The edges, one more than there are bins. The last edge of equal bins is the upper end itself. -/
def edges : Bins α → List α
  | regular n low high =>
    let width := (high - low) / Scalar.ofNat n
    (List.range (n + 1)).map fun i => if i = n then high else low + Scalar.ofNat i * width
  | edged edges => edges

/-- The first bin between two neighbouring edges that holds a number; bins are counted from `i`. -/
def between (x : α) : Nat → List α → Option Nat
  | i, a :: b :: rest => if a ≤ x ∧ x < b then some i else between x (i + 1) (b :: rest)
  | _, _ => none

/-- The slot of a number. A bin holds its lower edge and not its upper one. -/
def select (bins : Bins α) (x : α) : Slot :=
  match bins with
  | regular n low high =>
    let position := Scalar.ofNat n * (x - low) / (high - low)
    if position < Scalar.ofNat 0 then .underflow
    else if Scalar.ofNat n ≤ position then .overflow
    else if position == position then .bin (Scalar.whole position)
    else .nanflow
  | edged edges =>
    match edges.head?, edges.getLast? with
    | some first, some last =>
      if x < first then .underflow
      else if last ≤ x then .overflow
      else (between x 0 edges).elim .nanflow .bin
    | _, _ => .nanflow

/-! ### Declarations -/

/-- The number that an expression states literally. -/
def literalNumber? (e : Expr) : Option Float :=
  e.literal?.bind Literal.number?

/-- The numbers that the edges of a declaration state. -/
def literalEdges : List Expr → Outcome (List Float)
  | [] => .ok []
  | e :: rest => match literalNumber? e with
    | some x => do return x :: (← literalEdges rest)
    | none => Outcome.failAt .edgeNotNumber e.span

def misplaced? : List (Expr × Float) → Option Expr
  | (_, x) :: (e, y) :: rest => if x < y then misplaced? ((e, y) :: rest) else some e
  | _ => none

/-- The bins that a call declares: `regular(count, low, high)` or `variable(edge, …)`, with literal
arguments only. -/
def ofCall (declaration : Expr) : Outcome (Bins Float) :=
  match declaration with
  | .call callee arguments s =>
    match callee.name? with
    | some "regular" =>
      match arguments with
      | [count, low, high] => do
        let n ← match count.literal? with
          | some (.integer n) => if 1 ≤ n.toInt then .ok n.toInt.toNat else Outcome.failAt .binCount count.span
          | _ => Outcome.failAt .binCount count.span
        let a ← (literalNumber? low).elim (Outcome.failAt .lowNotNumber low.span) .ok
        let b ← (literalNumber? high).elim (Outcome.failAt .highNotNumber high.span) .ok
        if a < b then return regular n a b else Outcome.failAt .highNotAbove high.span
      | _ => Outcome.failAt .regularArguments s
    | some "variable" => do
      let edges ← literalEdges arguments
      if edges.length < 2 then Outcome.failAt .fewEdges s
      else match misplaced? (arguments.zip edges) with
        | some e => Outcome.failAt .edgesNotIncreasing e.span
        | none => return edged edges
    | _ => Outcome.failAt .notBinning s
  | other => Outcome.failAt .notBinning other.span

end Bins

end RecordStats
