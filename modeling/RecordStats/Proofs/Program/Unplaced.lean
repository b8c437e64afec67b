import RecordStats.Tree.Node

/-! Programs without their places, and the trees that they declare. Two programs that come to the same are written
    with the same words, only at other places of a text. -/

namespace RecordStats

def Name.unplaced (n : Name) : Name := ⟨n.text, default⟩

namespace Expr

mutual

/-- The expression with the span of no text everywhere. -/
def unplaced : Expr → Expr
  | literal value _ => literal value default
  | name text _ => name text default
  | operator op operands _ => operator op (unplacedAll operands) default
  | call callee arguments _ => call (unplaced callee) (unplacedAll arguments) default
  | lambda parameters body _ => lambda (parameters.map Name.unplaced) (unplacedBody body) default

def unplacedAll : List Expr → List Expr
  | [] => []
  | e :: rest => unplaced e :: unplacedAll rest

/-- A function's body with the span of no text everywhere. A statement that has no place there is left as it is. -/
def unplacedBody : List Statement → List Statement
  | [] => []
  | .define target e _ :: rest => .define target.unplaced (unplaced e) default :: unplacedBody rest
  | .function target parameters body _ :: rest =>
    .function target.unplaced (parameters.map Name.unplaced) (unplacedBody body) default :: unplacedBody rest
  | .result e _ :: rest => .result (unplaced e) default :: unplacedBody rest
  | s :: rest => s :: unplacedBody rest

end

theorem unplacedAll_eq_map (es : List Expr) : unplacedAll es = es.map unplaced := by
  induction es with
  | nil => rfl
  | cons e rest ih => rw [unplacedAll, ih, List.map_cons]

theorem unplaced_withSpan (s : Span) (e : Expr) : (e.withSpan s).unplaced = e.unplaced := by
  cases e <;> rfl

end Expr

def Lambda.unplaced (l : Lambda) : Lambda := ⟨l.parameters.map Name.unplaced, Expr.unplacedBody l.body⟩

def Binding.unplaced (b : Binding Expr) : Binding Expr := ⟨b.target.unplaced, b.expression.unplaced, default⟩

def Axis.unplaced (a : Axis Expr) : Axis Expr := ⟨a.binning.unplaced, a.expression.unplaced, default⟩

def Variation.unplaced (v : Variation Expr) : Variation Expr :=
  ⟨v.name.unplaced, v.assignments.map Binding.unplaced, default⟩

def Collector.unplaced (c : Collector Expr) : Collector Expr where
  statistic := c.statistic
  name := c.name.unplaced
  expression := c.expression.map Expr.unplaced
  axes := c.axes.map Axis.unplaced
  weight := c.weight.map Expr.unplaced

def Pattern.unplaced (p : Pattern) : Pattern := ⟨p.text, p.regex, default⟩

namespace Statement

mutual

/-- The statement with the span of no text everywhere. -/
def unplaced : Statement → Statement
  | define target e _ => define target.unplaced e.unplaced default
  | function target parameters body _ =>
    function target.unplaced (parameters.map Name.unplaced) (Expr.unplacedBody body) default
  | result e _ => result e.unplaced default
  | collect c _ => collect c.unplaced default
  | loop ranges block _ => loop (ranges.map Binding.unplaced) (unplacedBlock block) default
  | vary variations block _ => vary (variations.map Variation.unplaced) (unplacedBlock block) default
  | region name predicate axes block _ =>
    region name.unplaced (predicate.map Expr.unplaced) (axes.map Axis.unplaced) (unplacedBlock block) default
  | source inclusive patterns block _ => source inclusive (patterns.map Pattern.unplaced) (unplacedBlock block) default

def unplacedBlock : List Statement → List Statement
  | [] => []
  | s :: rest => unplaced s :: unplacedBlock rest

end

theorem unplacedBlock_eq_map (block : List Statement) : unplacedBlock block = block.map unplaced := by
  induction block with
  | nil => rfl
  | cons s rest ih => rw [unplacedBlock, ih, List.map_cons]

theorem exists_cons_of_unplacedBlock {s : Statement} {rest block : List Statement}
    (h : unplacedBlock (s :: rest) = unplacedBlock block) :
    ∃ t others, block = t :: others ∧ s.unplaced = t.unplaced ∧ unplacedBlock rest = unplacedBlock others := by
  cases block with
  | nil => cases h
  | cons t others => exact ⟨t, others, rfl, List.cons.inj h⟩

end Statement

/-! ### Trees -/

def Storage.unplaced : Storage → Storage
  | count totals => count totals
  | sum e totals => sum e.unplaced totals
  | profile e totals => profile e.unplaced totals
  | fraction e totals => fraction e.unplaced totals

namespace Node

mutual

/-- The node with its names, bins and totals, and with the span of no text in all its expressions. -/
def unplaced : Node → Node
  | .namespace name children => .namespace name (unplacedChildren children)
  | binning name bins axis values u o v =>
    binning name bins axis.unplaced (unplacedValues values) (unplaced u) (unplaced o) (unplaced v)
  | storage name content => storage name content.unplaced

def unplacedChildren : List (String × Node) → List (String × Node)
  | [] => []
  | (key, node) :: rest => (key, unplaced node) :: unplacedChildren rest

def unplacedValues : List Node → List Node
  | [] => []
  | node :: rest => unplaced node :: unplacedValues rest

end

mutual

theorem nodes_unplaced : ∀ node : Node, nodes node.unplaced = (nodes node).map unplaced
  | .namespace name children => by
    rw [unplaced, nodes, nodes, nodesOfChildren_unplaced children, List.map_cons, unplaced]
  | binning name bins axis values u o v => by
    rw [unplaced, nodes, nodes, nodesOfValues_unplaced values, nodes_unplaced u, nodes_unplaced o, nodes_unplaced v]
    simp only [List.map_cons, List.map_append, unplaced]
  | storage name content => by
    rw [unplaced, nodes, nodes, List.map_singleton, unplaced]

theorem nodesOfChildren_unplaced : ∀ children : List (String × Node),
    nodesOfChildren (unplacedChildren children) = (nodesOfChildren children).map unplaced
  | [] => rfl
  | (key, node) :: rest => by
    rw [unplacedChildren, nodesOfChildren, nodesOfChildren, nodes_unplaced node, nodesOfChildren_unplaced rest,
      List.map_append]

theorem nodesOfValues_unplaced : ∀ values : List Node,
    nodesOfValues (unplacedValues values) = (nodesOfValues values).map unplaced
  | [] => rfl
  | node :: rest => by
    rw [unplacedValues, nodesOfValues, nodesOfValues, nodes_unplaced node, nodesOfValues_unplaced rest, List.map_append]

end

end Node

end RecordStats
