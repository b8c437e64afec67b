import RecordStats.Dict
import RecordStats.Tree.Bins
import RecordStats.Tree.Statistic

/-!
The tree of statistics: namespaces with named children, binnings with a child for each slot, and
storages at the leaves. Every node knows its name, the path from the root that leads to it. The root
itself is a namespace without a name and is given by its children.
-/

namespace RecordStats

inductive Storage where
  | count (totals : Count Float)
  | sum (expression : Expr) (totals : Sum Float)
  | profile (expression : Expr) (totals : Profile Float)
  | fraction (expression : Expr) (totals : Fraction Float)

/-- Nodes of the tree. The children of a namespace are in the order of their names; a binning has one
child for each bin and three for what falls into none. -/
inductive Node where
  | namespace (name : Path) (children : List (String × Node))
  | binning (name : Path) (bins : Bins Float) (axis : Expr) (values : List Node)
      (underflow overflow nanflow : Node)
  | storage (name : Path) (content : Storage)

/-- The children of a namespace by name. -/
abbrev Namespace := Dict Node

inductive AccessError where
  | noSuchName (within : Path) (name : String)
  | improperIndex (within : Path) (segment : Segment)
  | tooManyDimensions (within : Path) (segment : Segment)
  | emptyPath

def AccessError.message : AccessError → String
  | noSuchName within name => "no aggregation named '" ++ name ++ "' in " ++ within.describe
  | improperIndex within segment => "improper index for " ++ within.describe ++ ": " ++ segment.text
  | tooManyDimensions within segment =>
    "too many dimensions in index: " ++ within.describe ++ " is a storage, cannot select " ++ segment.text
  | emptyPath => "an aggregation path needs at least one segment"

inductive Sample where
  | entry
  | number (x : Float)
  | passed (b : Bool)

namespace Storage

def statistic : Storage → Statistic
  | count _ => .count
  | sum _ _ => .sum
  | profile _ _ => .profile
  | fraction _ _ => .fraction

def zero : Storage → Storage
  | count _ => count .zero
  | sum e _ => sum e .zero
  | profile e _ => profile e .zero
  | fraction e _ => fraction e .zero

def fill (s : Storage) (w : Float) (sample : Sample) : Storage :=
  match s, sample with
  | count c, .entry => count (c.fill w)
  | sum e t, .number x => sum e (t.fill w x)
  | profile e p, .number x => profile e (p.fill w x)
  | fraction e f, .passed b => fraction e (f.fill w b)
  | s, _ => s

/-- The statistic's value, or the given one where it has none yet. -/
def value (s : Storage) (indeterminate : Float) : Float :=
  match s with
  | count c => c.sumw
  | sum _ t => t.sumwx
  | profile _ p => p.mean indeterminate
  | fraction _ f => f.ratio indeterminate

def variance (s : Storage) (e : Estimator) (sigmas : Float) : Except Cause Float :=
  match s with
  | count c => c.variance e sigmas
  | sum _ _ => .error .noEstimator
  | profile _ p => p.variance e sigmas
  | fraction _ f => f.variance e sigmas

def errorBar (s : Storage) (e : Estimator) (sigmas : Float) : Except Cause Float :=
  (s.variance e sigmas).map Float.sqrt

/-- What messages show of a storage: its value, and its normal uncertainty if it has one. -/
def text (s : Storage) (name : Path) : String :=
  let head := "<" ++ s.statistic.word ++ " " ++ name.text ++ ": " ++ Decimal.plain (s.value 0)
  match s.errorBar .normal 1 with
  | .ok e => head ++ " +- " ++ Decimal.plain e ++ ">"
  | .error _ => head ++ ">"

end Storage

namespace Node

/-- The path from the root that leads to the node. -/
def name : Node → Path
  | .namespace n _ => n
  | binning n _ _ _ _ _ _ => n
  | storage n _ => n

mutual

/-- A node of the same shape without entries, under another name. All children of a binning are made
like the one for what is not a number. -/
def zerosLike (name : Path) : Node → Node
  | .namespace _ children => .namespace name (childrenLike name children)
  | binning _ bins axis _ _ _ nanflow =>
    let child (s : Slot) := zerosLike (name ++ [s.segment]) nanflow
    binning name bins axis ((List.range bins.count).map fun i => child (.bin i))
      (child .underflow) (child .overflow) (child .nanflow)
  | storage _ content => storage name content.zero

/-- Children of the same shapes without entries, below another name. -/
def childrenLike (name : Path) : List (String × Node) → List (String × Node)
  | [] => []
  | (key, node) :: rest => (key, zerosLike (name ++ [.field key]) node) :: childrenLike name rest

end

/-- A binning whose children are all like a template. -/
def binned (name : Path) (bins : Bins Float) (axis : Expr) (template : Node) : Node :=
  let child (s : Slot) := zerosLike (name ++ [s.segment]) template
  binning name bins axis ((List.range bins.count).map fun i => child (.bin i))
    (child .underflow) (child .overflow) (child .nanflow)

/-- The child that one step of a path selects. Below the first bin is the underflow, past the last the
overflow. -/
def child (node : Node) (segment : Segment) : Except AccessError Node :=
  match node, segment with
  | .namespace name children, .field key =>
    (Dict.get? children key).elim (.error (.noSuchName name key)) .ok
  | .namespace name _, .index _ => .error (.improperIndex name segment)
  | binning _ _ _ values underflow overflow _, .index n =>
    if n.toInt < 0 then .ok underflow else .ok (values[n.toInt.toNat]?.getD overflow)
  | binning name _ _ _ underflow overflow nanflow, .field key =>
    match key with
    | "underflow" => .ok underflow
    | "overflow" => .ok overflow
    | "nanflow" => .ok nanflow
    | _ => .error (.improperIndex name segment)
  | storage name _, segment => .error (.tooManyDimensions name segment)

/-- The node that a path leads to from here. -/
def lookup (node : Node) (path : Path) : Except AccessError Node :=
  path.foldlM child node

mutual

/-- The tree with one storage changed, which a path leads to from here. -/
def modifyAt (f : Storage → Storage) : Path → Node → Node
  | [], storage name content => storage name (f content)
  | .field key :: rest, .namespace name children => .namespace name (modifyChild f key rest children)
  | .index n :: rest, binning name bins axis values u o v =>
    if n.toInt < 0 then binning name bins axis values (modifyAt f rest u) o v
    else if n.toInt < values.length then
      binning name bins axis (modifyNth f n.toInt.toNat rest values) u o v
    else binning name bins axis values u (modifyAt f rest o) v
  | .field key :: rest, binning name bins axis values u o v =>
    match key with
    | "underflow" => binning name bins axis values (modifyAt f rest u) o v
    | "overflow" => binning name bins axis values u (modifyAt f rest o) v
    | "nanflow" => binning name bins axis values u o (modifyAt f rest v)
    | _ => binning name bins axis values u o v
  | _, node => node

/-- The children with a storage changed below one of them. -/
def modifyChild (f : Storage → Storage) (key : String) (path : Path) :
    List (String × Node) → List (String × Node)
  | [] => []
  | (k, node) :: rest =>
    if k = key then (k, modifyAt f path node) :: rest else (k, node) :: modifyChild f key path rest

/-- The bins with a storage changed below one of them. -/
def modifyNth (f : Storage → Storage) : Nat → Path → List Node → List Node
  | _, _, [] => []
  | 0, path, node :: rest => modifyAt f path node :: rest
  | i + 1, path, node :: rest => node :: modifyNth f i path rest

end

mutual

/-- A node and all below it, each before what is below it. The flow bins of a binning come last. -/
def nodes : Node → List Node
  | .namespace name children => .namespace name children :: nodesOfChildren children
  | binning name bins axis values u o v =>
    binning name bins axis values u o v :: (nodesOfValues values ++ (nodes u ++ (nodes o ++ nodes v)))
  | storage name content => [storage name content]

def nodesOfChildren : List (String × Node) → List Node
  | [] => []
  | (_, node) :: rest => nodes node ++ nodesOfChildren rest

def nodesOfValues : List Node → List Node
  | [] => []
  | node :: rest => nodes node ++ nodesOfValues rest

end

end Node

def Namespace.lookup (root : Namespace) (path : Path) : Except AccessError Node :=
  match path with
  | [] => .error .emptyPath
  | path => (Node.namespace [] root).lookup path

end RecordStats
