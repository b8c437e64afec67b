import RecordStats.Tree.Node

/-!
The empty tree that a program declares. No expression is evaluated: the shape of the tree is in the
program's text. Names are declared once in each namespace, and every binning is a literal one.
-/

namespace RecordStats

/-- Adds a child to a namespace; a name that is taken is blamed on where it is declared again. -/
def Namespace.declare (ns : Namespace) (name : Name) (node : Node) : Outcome Namespace :=
  if Dict.has ns name.text then Outcome.failAt (.duplicate name.text) name.span
  else .ok (Dict.insert ns name.text node)

/-- A node within binnings, one for each axis; the first axis is the outermost. -/
def Node.wrap (name : Path) (node : Node) : List (Axis Expr) → Outcome Node
  | [] => .ok node
  | axis :: rest => do
    let inner ← wrap name node rest
    let bins ← Bins.ofCall axis.binning
    return .binned name bins axis.expression inner

/-- The empty storage of a collector; only a count goes without an expression. -/
def Storage.ofCollector (c : Collector Expr) (s : Span) : Outcome Storage :=
  match c.statistic, c.expression with
  | .count, _ => .ok (.count .zero)
  | .sum, some e => .ok (.sum e .zero)
  | .profile, some e => .ok (.profile e .zero)
  | .fraction, some e => .ok (.fraction e .zero)
  | statistic, none => Outcome.failAt (.noExpression statistic.word) s

/-- Copies of a variation's block, one under each label. -/
def Namespace.declareVariations (ns : Namespace) (name : Path) (block : Namespace) :
    List (Variation Expr) → Outcome Namespace
  | [] => .ok ns
  | v :: rest => do
    let label := name ++ [.field v.name.text]
    let ns ← ns.declare v.name (.namespace label (Node.childrenLike label block))
    ns.declareVariations name block rest

mutual

/-- A namespace with what a statement declares in it; `name` is the namespace's own. -/
def Statement.declare (name : Path) (ns : Namespace) : Statement → Outcome Namespace
  | .collect c s => do
    let own := name ++ [.field c.name.text]
    let content ← Storage.ofCollector c s
    let node ← Node.wrap own (.storage own content) c.axes
    ns.declare c.name node
  | .region n _ axes block _ => do
    let own := name ++ [.field n.text]
    let inner ← declareBlock own [] block
    let node ← Node.wrap own (.namespace own inner) axes
    ns.declare n node
  | .vary variations block _ => do
    let inner ← declareBlock name [] block
    ns.declareVariations name inner variations
  | .loop _ block _ => declareBlock name ns block
  | .source _ _ block _ => declareBlock name ns block
  | .define _ _ _ | .function _ _ _ _ | .result _ _ => .ok ns

/-- A namespace with what the statements of a block declare in it. -/
def declareBlock (name : Path) (ns : Namespace) : List Statement → Outcome Namespace
  | [] => .ok ns
  | s :: rest => do
    let ns ← s.declare name ns
    declareBlock name ns rest

end

def Program.tree (p : Program) : Outcome Namespace :=
  declareBlock [] [] p.block

end RecordStats
