import RecordStats.Evaluation.Expression
import RecordStats.Tree.Node

/-!
Fills: the entries that a record makes in the tree. A fill names its storage by the path from the root;
which one it is depends on the shape of the tree and on the record, never on what was collected before.
-/

namespace RecordStats

/-- One entry of a record in a storage. -/
structure Fill where
  path : Path
  weight : Float
  sample : Sample

def Fill.apply (tree : Namespace) (f : Fill) : Namespace :=
  match f.path with
  | .field key :: rest => Node.modifyChild (fun s => s.fill f.weight f.sample) key rest tree
  | _ => tree

def Namespace.fillAll (tree : Namespace) (fills : List Fill) : Namespace :=
  fills.foldl Fill.apply tree

/-- The slot into which an axis sorts a record. -/
def Bins.slot (bins : Bins Float) (call : Caller) (scope : Scope) (axis : Expr) : Outcome Slot := do
  let v ← scope.evaluate call axis
  match v.number? with
  | some x => return bins.select x
  | none => Outcome.failAt (.sampleNotNumber v.text) axis.span

/-- What a storage measures of a record. -/
def Storage.sample (call : Caller) (scope : Scope) : Storage → Outcome Sample
  | count _ => .ok .entry
  | sum e _ | profile e _ => do
    let v ← scope.evaluate call e
    match v.number? with
    | some x => return .number x
    | none => Outcome.failAt (.sampleNotNumber v.text) e.span
  | fraction e _ => do
    match ← scope.evaluate call e with
    | .boolean b => return .passed b
    | v => Outcome.failAt (.predicateNotBoolean v.text) e.span

namespace Node

/-- The child of a binning in a slot; `values` are its bins. -/
def inSlot (values : List Node) (underflow overflow nanflow : Node) (slot : Slot) : Outcome Node :=
  match slot with
  | .bin i => (values[i]?).elim (Outcome.fail (.noBin slot.text)) .ok
  | .underflow => .ok underflow
  | .overflow => .ok overflow
  | .nanflow => .ok nanflow

/-- What a record reaches below a node through some binnings, and its path. -/
def descend (call : Caller) (scope : Scope) (blame : Span) (path : Path) (node : Node) :
    Nat → Outcome (Path × Node)
  | 0 => .ok (path, node)
  | axes + 1 => match node with
    | binning _ bins axis values u o v => do
      let slot ← bins.slot call scope axis
      let next ← inSlot values u o v slot
      descend call scope blame (path ++ [slot.segment]) next axes
    | _ => Outcome.failAt .axisNotBinning blame

mutual

/-- The storage that a record reaches below a node, its path, and what it measures. -/
def target (call : Caller) (scope : Scope) (path : Path) : Node → Outcome (Path × Sample)
  | storage _ content => do return (path, ← content.sample call scope)
  | binning _ bins axis values u o v => do
    let slot ← bins.slot call scope axis
    let path := path ++ [slot.segment]
    match slot with
    | .bin i => targetNth call scope path slot i values
    | .underflow => target call scope path u
    | .overflow => target call scope path o
    | .nanflow => target call scope path v
  | .namespace name _ => Outcome.fail (.fillsNamespace name)

/-- The storage that a record reaches below one of some bins. -/
def targetNth (call : Caller) (scope : Scope) (path : Path) (slot : Slot) : Nat → List Node →
    Outcome (Path × Sample)
  | _, [] => Outcome.fail (.noBin slot.text)
  | 0, node :: _ => target call scope path node
  | i + 1, _ :: rest => targetNth call scope path slot i rest

end

end Node

end RecordStats
