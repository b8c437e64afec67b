import RecordStats.Record.Fill

/-!
What the statements of a program do with a record: the fills it makes, in order, and how it ends.
Definitions change the scope, collectors fill the tree, and blocks are run in scopes of their own; only
source blocks share the scope around them. A failure ends the record and keeps the fills made before it.
-/

namespace RecordStats

/-- Fills in order, and how it went on after them. -/
structure Trace (α : Type) where
  fills : List Fill
  outcome : Outcome α

namespace Trace

variable {α β : Type}

/-- No fills, only an outcome. -/
def ofOutcome (o : Outcome α) : Trace α := ⟨[], o⟩

def fill (f : Fill) : Trace Unit := ⟨[f], .ok ()⟩

/-- One trace after another; the second is not begun when the first fails. -/
def bind (t : Trace α) (next : α → Trace β) : Trace β :=
  match t.outcome with
  | .ok a => ⟨t.fills ++ (next a).fills, (next a).outcome⟩
  | .error stop => ⟨t.fills, .error stop⟩

instance : Monad Trace where
  pure a := ⟨[], .ok a⟩
  bind := bind

instance : MonadLift (Except Stop) Trace := ⟨ofOutcome⟩

end Trace

/-- Whether a source block takes a record with the given tag. A record without a tag is taken. -/
def acceptsTag (inclusive : Bool) (patterns : List Pattern) (tag : Option String) : Bool :=
  match tag with
  | none => true
  | some t => (patterns.any fun p => p.accepts t) == inclusive

/-- The child that a statement works on. -/
def Namespace.entry (ns : Namespace) (name : Name) : Outcome Node :=
  match Dict.get? ns name.text with
  | some node => .ok node
  | none => Outcome.failAt (.uninitialized name.text) name.span

/-- The children of a node that has to be a namespace. -/
def Node.children (cause : Cause) (s : Span) : Node → Outcome Namespace
  | .namespace _ children => .ok children
  | _ => Outcome.failAt cause s

/-- The weight of an entry; it is one unless something else is said. -/
def weightOf (call : Caller) (scope : Scope) : Option Expr → Outcome Float
  | none => .ok 1
  | some e => do
    let v ← scope.evaluate call e
    match v.number? with
    | some w => return w
    | none => Outcome.failAt (.weightNotNumber v.text) e.span

/-- Whether a region takes a record; one without a predicate takes all. -/
def takes (call : Caller) (scope : Scope) : Option Expr → Outcome Bool
  | none => .ok true
  | some e => do
    match ← scope.evaluate call e with
    | .boolean b => return b
    | v => Outcome.failAt (.predicateNotBoolean v.text) e.span

/-- The fill of a collector. Its weight is evaluated before the tree is looked at. -/
def Collector.fillOf (call : Caller) (path : Path) (ns : Namespace) (scope : Scope) (c : Collector Expr) :
    Outcome Fill := do
  let w ← weightOf call scope c.weight
  let node ← ns.entry c.name
  let (path, sample) ← node.target call scope (path ++ [.field c.name.text])
  return ⟨path, w, sample⟩

/-- The sequences that the variables of a loop run over. The one for variable `i` is made where the
variable is bound. -/
def sequences (call : Caller) (scope : Scope) : Nat → List (Binding Expr) →
    Outcome (List (String × List Value))
  | _, [] => .ok []
  | i, b :: rest => do
    let v ← b.expression.evaluate call scope ((scope.made + i) :: scope.base)
    match v.items? with
    | some items => do return (b.target.text, items) :: (← sequences call scope (i + 1) rest)
    | none => Outcome.failAt (.notIterable b.target.text) b.span

/-- The first so many rows of some columns: in each row every name has its next item. -/
def rows : Nat → List (String × List Value) → List (List (String × Value))
  | 0, _ => []
  | n + 1, columns =>
    (columns.filterMap fun c => c.2.head?.map fun v => (c.1, v)) :: rows n (columns.map fun c => (c.1, c.2.tail))

/-- Rows bind nothing but items of the columns. -/
theorem forall_mem_rows {P : Value → Prop} : ∀ (n : Nat) {columns : List (String × List Value)},
    (∀ c ∈ columns, ∀ v ∈ c.2, P v) → ∀ row ∈ rows n columns, ∀ b ∈ row, P b.2
  | 0, _, _ => nofun
  | n + 1, columns, h => by
    rw [rows]
    refine List.forall_mem_cons.mpr ⟨fun b hb => ?_, forall_mem_rows n fun c hc => ?_⟩
    · obtain ⟨c, hc, hhead⟩ := List.mem_filterMap.mp hb
      obtain ⟨v, hv, rfl⟩ := Option.map_eq_some_iff.mp hhead
      exact h c hc v (List.mem_of_mem_head? hv)
    · obtain ⟨d, hd, rfl⟩ := List.mem_map.mp hc
      exact fun v hv => h d hd v (List.mem_of_mem_tail hv)

/-- What the variables of a loop are bound to, one row for each turn. -/
def turns (call : Caller) (scope : Scope) (ranges : List (Binding Expr)) (s : Span) :
    Outcome (List (List (String × Value))) := do
  let columns ← sequences call scope 0 ranges
  let length := (columns.head?.map fun c => c.2.length).getD 0
  if columns.all fun c => c.2.length == length then return rows length columns
  else Outcome.failAt .unequalLengths s

/-- The scope of a variation's block. The assignments are evaluated in the scope around it, and made
where they are bound. -/
def variationScope (call : Caller) (scope : Scope) : Scope → List (Binding Expr) → Outcome Scope
  | inner, [] => .ok inner
  | inner, b :: rest => do
    let v ← b.expression.evaluate call scope inner.place
    variationScope call scope (inner.define b.target.text v) rest

/-- Runs a block once for each row of bindings, each time in a fresh scope. -/
def runTurns (block : Scope → Trace Scope) (scope : Scope) : List (List (String × Value)) → Trace Unit
  | [] => pure ()
  | row :: rest => do
    let _ ← block (scope.child.defineAll row)
    runTurns block scope rest

/-- Runs a block once for each variation, in the namespace of its label. -/
def runVariations (call : Caller) (block : Path → Namespace → Scope → Trace Scope) (path : Path)
    (ns : Namespace) (scope : Scope) : List (Variation Expr) → Trace Unit
  | [] => pure ()
  | v :: rest => do
    let inner ← variationScope call scope scope.child v.assignments
    let node ← ns.entry v.name
    let children ← node.children .variationNotNamespace v.span
    let _ ← block (path ++ [.field v.name.text]) children inner
    runVariations call block path ns scope rest

mutual

/-- What a statement does with a record: its fills, and the scope after it. The statement stands in
the namespace `ns` at `path`. -/
def Statement.run (call : Caller) (tag : Option String) (path : Path) (ns : Namespace) (scope : Scope) :
    Statement → Trace Scope
  | .define target e s => .ofOutcome (scope.bind call (.define target e s))
  | .function target parameters body s => .ofOutcome (scope.bind call (.function target parameters body s))
  | .collect c _ => do
    Trace.fill (← c.fillOf call path ns scope)
    return scope
  | .loop ranges block s => do
    runTurns (fun inner => runBlock call tag path ns inner block) scope (← turns call scope ranges s)
    return scope
  | .vary variations block _ => do
    runVariations call (fun path ns inner => runBlock call tag path ns inner block) path ns scope variations
    return scope
  | .region name predicate axes block _ => do
    if ← takes call scope predicate then
      let node ← ns.entry name
      let (path, node) ← node.descend call scope name.span (path ++ [.field name.text]) axes.length
      let children ← node.children .regionNotNamespace name.span
      let _ ← runBlock call tag path children scope.child block
      return scope
    else return scope
  | .source inclusive patterns block _ =>
    if acceptsTag inclusive patterns tag then runBlock call tag path ns scope block else return scope
  | .result _ s => .ofOutcome (Outcome.failAt .bareExpression s)

/-- What the statements of a block do with a record, one after another. -/
def runBlock (call : Caller) (tag : Option String) (path : Path) (ns : Namespace) (scope : Scope) :
    List Statement → Trace Scope
  | [] => pure scope
  | s :: rest => do
    let scope ← s.run call tag path ns scope
    runBlock call tag path ns scope rest

end

end RecordStats
