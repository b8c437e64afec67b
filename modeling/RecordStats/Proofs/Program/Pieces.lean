import RecordStats.Program.Basic

/-! What a program is made of: its places, identifiers, literals and operators. A program that is made of given pieces
    has no others, in whatever block or function's body it looks; the identifiers that it uses are listed too. -/

namespace RecordStats

/-- What the parts of a program may be. -/
structure Pieces where
  span : Span → Prop
  name : String → Prop
  literal : Literal → Prop
  operator : Operator → List Expr → Prop

/-- The identifier and its place are such pieces. -/
structure Name.MadeOf (P : Pieces) (n : Name) : Prop where
  text : P.name n.text
  place : P.span n.span

namespace Expr

mutual

/-- All parts of the expression are such pieces. -/
def MadeOf (P : Pieces) : Expr → Prop
  | literal value s => P.literal value ∧ P.span s
  | name text s => P.name text ∧ P.span s
  | operator op operands s => P.operator op operands ∧ AllMadeOf P operands ∧ P.span s
  | call callee arguments s => MadeOf P callee ∧ AllMadeOf P arguments ∧ P.span s
  | lambda parameters body s => (∀ p ∈ parameters, p.MadeOf P) ∧ BodyMadeOf P body ∧ P.span s

def AllMadeOf (P : Pieces) : List Expr → Prop
  | [] => True
  | e :: rest => MadeOf P e ∧ AllMadeOf P rest

/-- All parts of a function's body are such pieces. A statement that has no place there is only a place. -/
def BodyMadeOf (P : Pieces) : List Statement → Prop
  | [] => True
  | .define target e s :: rest => target.MadeOf P ∧ MadeOf P e ∧ P.span s ∧ BodyMadeOf P rest
  | .function target parameters body s :: rest =>
    target.MadeOf P ∧ (∀ p ∈ parameters, p.MadeOf P) ∧ BodyMadeOf P body ∧ P.span s ∧ BodyMadeOf P rest
  | .result e s :: rest => MadeOf P e ∧ P.span s ∧ BodyMadeOf P rest
  | s :: rest => P.span s.span ∧ BodyMadeOf P rest

end

mutual

/-- The identifiers in the expression. -/
def identifiers : Expr → List String
  | literal _ _ => []
  | name text _ => [text]
  | operator _ operands _ => identifiersOf operands
  | call callee arguments _ => identifiers callee ++ identifiersOf arguments
  | lambda parameters body _ => parameters.map Name.text ++ bodyIdentifiers body

def identifiersOf : List Expr → List String
  | [] => []
  | e :: rest => identifiers e ++ identifiersOf rest

/-- The identifiers in a function's body. -/
def bodyIdentifiers : List Statement → List String
  | [] => []
  | .define target e _ :: rest => target.text :: (identifiers e ++ bodyIdentifiers rest)
  | .function target parameters body _ :: rest =>
    target.text :: (parameters.map Name.text ++ bodyIdentifiers body ++ bodyIdentifiers rest)
  | .result e _ :: rest => identifiers e ++ bodyIdentifiers rest
  | _ :: rest => bodyIdentifiers rest

end

theorem allMadeOf_iff {P : Pieces} {es : List Expr} : AllMadeOf P es ↔ ∀ e ∈ es, e.MadeOf P := by
  induction es with
  | nil => simp [AllMadeOf]
  | cons e rest ih => rw [AllMadeOf, ih, List.forall_mem_cons]

theorem MadeOf.span {P : Pieces} {e : Expr} (h : e.MadeOf P) : P.span e.span := by
  cases e with
  | literal _ _ => exact h.2
  | name _ _ => exact h.2
  | operator _ _ _ => exact h.2.2
  | call _ _ _ => exact h.2.2
  | lambda _ _ _ => exact h.2.2

end Expr

structure Binding.MadeOf (P : Pieces) (b : Binding Expr) : Prop where
  target : b.target.MadeOf P
  expression : b.expression.MadeOf P
  place : P.span b.span

structure Axis.MadeOf (P : Pieces) (a : Axis Expr) : Prop where
  binning : a.binning.MadeOf P
  expression : a.expression.MadeOf P
  place : P.span a.span

structure Variation.MadeOf (P : Pieces) (v : Variation Expr) : Prop where
  name : P.span v.name.span
  assignments : ∀ b ∈ v.assignments, b.MadeOf P
  place : P.span v.span

structure Collector.MadeOf (P : Pieces) (c : Collector Expr) : Prop where
  name : P.span c.name.span
  expression : ∀ e ∈ c.expression, e.MadeOf P
  axes : ∀ a ∈ c.axes, a.MadeOf P
  weight : ∀ e ∈ c.weight, e.MadeOf P

namespace Statement

mutual

/-- All parts of the statement are such pieces. Of a quoted name only its place counts. -/
def MadeOf (P : Pieces) : Statement → Prop
  | define target e s => target.MadeOf P ∧ e.MadeOf P ∧ P.span s
  | function target parameters body s =>
    target.MadeOf P ∧ (∀ p ∈ parameters, p.MadeOf P) ∧ Expr.BodyMadeOf P body ∧ P.span s
  | result e s => e.MadeOf P ∧ P.span s
  | collect c s => c.MadeOf P ∧ P.span s
  | loop ranges block s => (∀ b ∈ ranges, b.MadeOf P) ∧ BlockMadeOf P block ∧ P.span s
  | vary variations block s => (∀ v ∈ variations, v.MadeOf P) ∧ BlockMadeOf P block ∧ P.span s
  | region name predicate axes block s =>
    P.span name.span ∧ (∀ e ∈ predicate, e.MadeOf P) ∧ (∀ a ∈ axes, a.MadeOf P) ∧ BlockMadeOf P block ∧ P.span s
  | source _ patterns block s => (∀ p ∈ patterns, P.span p.span) ∧ BlockMadeOf P block ∧ P.span s

/-- All parts of the block's statements are such pieces. -/
def BlockMadeOf (P : Pieces) : List Statement → Prop
  | [] => True
  | s :: rest => MadeOf P s ∧ BlockMadeOf P rest

end

theorem blockMadeOf_iff {P : Pieces} {block : List Statement} : BlockMadeOf P block ↔ ∀ s ∈ block, s.MadeOf P := by
  induction block with
  | nil => simp [BlockMadeOf]
  | cons s rest ih => rw [BlockMadeOf, ih, List.forall_mem_cons]

theorem MadeOf.span {P : Pieces} {d : Statement} (h : d.MadeOf P) : P.span d.span := by
  cases d with
  | define _ _ _ => exact h.2.2
  | function _ _ _ _ => exact h.2.2.2
  | result _ _ => exact h.2
  | collect _ _ => exact h.2
  | loop _ _ _ => exact h.2.2
  | vary _ _ _ => exact h.2.2
  | region _ _ _ _ _ => exact h.2.2.2.2
  | source _ _ _ _ => exact h.2.2

/-- The identifiers in some assignments. -/
def bindingIdentifiers (bs : List (Binding Expr)) : List String :=
  bs.flatMap fun b => b.target.text :: b.expression.identifiers

def axisIdentifiers (as : List (Axis Expr)) : List String :=
  as.flatMap fun a => a.binning.identifiers ++ a.expression.identifiers

def optionIdentifiers (e : Option Expr) : List String :=
  e.toList.flatMap Expr.identifiers

mutual

/-- The identifiers in the statement. -/
def identifiers : Statement → List String
  | define target e _ => target.text :: e.identifiers
  | function target parameters body _ => target.text :: (parameters.map Name.text ++ Expr.bodyIdentifiers body)
  | result e _ => e.identifiers
  | collect c _ => optionIdentifiers c.expression ++ axisIdentifiers c.axes ++ optionIdentifiers c.weight
  | loop ranges block _ => bindingIdentifiers ranges ++ blockIdentifiers block
  | vary variations block _ =>
    (variations.flatMap fun v => bindingIdentifiers v.assignments) ++ blockIdentifiers block
  | region _ predicate axes block _ =>
    optionIdentifiers predicate ++ axisIdentifiers axes ++ blockIdentifiers block
  | source _ _ block _ => blockIdentifiers block

/-- The identifiers in the block's statements. -/
def blockIdentifiers : List Statement → List String
  | [] => []
  | s :: rest => identifiers s ++ blockIdentifiers rest

end

end Statement

/-- All parts of the program are such pieces. -/
structure Program.MadeOf (P : Pieces) (p : Program) : Prop where
  block : Statement.BlockMadeOf P p.block
  place : P.span p.span

/-- The identifiers in a program: what it binds, looks up, or names as a member or a parameter. -/
def Program.identifiers (p : Program) : List String := Statement.blockIdentifiers p.block

/-! ### Identifiers as pieces -/

namespace Pieces

/-- Any pieces with such identifiers. -/
def named (N : String → Prop) : Pieces := ⟨fun _ => True, N, fun _ => True, fun _ _ => True⟩

/-- Any pieces at such places. -/
def placed (S : Span → Prop) : Pieces := ⟨S, fun _ => True, fun _ => True, fun _ _ => True⟩

variable {N : String → Prop}

theorem names_named {ns : List Name} (h : ∀ x ∈ ns.map Name.text, N x) : ∀ n ∈ ns, n.MadeOf (named N) :=
  fun _ hn => ⟨h _ (List.mem_map_of_mem hn), trivial⟩

mutual

theorem expr_named : ∀ {e : Expr}, (∀ x ∈ e.identifiers, N x) → e.MadeOf (named N)
  | .literal _ _, _ => ⟨trivial, trivial⟩
  | .name text _, h => ⟨h text List.mem_cons_self, trivial⟩
  | .operator _ operands _, h => ⟨trivial, exprs_named h, trivial⟩
  | .call callee arguments _, h => by
    obtain ⟨hcallee, harguments⟩ := List.forall_mem_append.mp h
    exact ⟨expr_named hcallee, exprs_named harguments, trivial⟩
  | .lambda parameters body _, h => by
    obtain ⟨hparameters, hbody⟩ := List.forall_mem_append.mp h
    exact ⟨names_named hparameters, body_named hbody, trivial⟩

theorem exprs_named : ∀ {es : List Expr}, (∀ x ∈ Expr.identifiersOf es, N x) → Expr.AllMadeOf (named N) es
  | [], _ => trivial
  | e :: rest, h => by
    obtain ⟨hfirst, hrest⟩ := List.forall_mem_append.mp h
    exact ⟨expr_named hfirst, exprs_named hrest⟩

theorem body_named : ∀ {body : List Statement}, (∀ x ∈ Expr.bodyIdentifiers body, N x) →
    Expr.BodyMadeOf (named N) body
  | [], _ => trivial
  | .define target e _ :: rest, h => by
    obtain ⟨htarget, h⟩ := List.forall_mem_cons.mp h
    obtain ⟨he, hrest⟩ := List.forall_mem_append.mp h
    exact ⟨⟨htarget, trivial⟩, expr_named he, trivial, body_named hrest⟩
  | .function target parameters body _ :: rest, h => by
    obtain ⟨htarget, h⟩ := List.forall_mem_cons.mp h
    obtain ⟨h, hrest⟩ := List.forall_mem_append.mp h
    obtain ⟨hparameters, hbody⟩ := List.forall_mem_append.mp h
    exact ⟨⟨htarget, trivial⟩, names_named hparameters, body_named hbody, trivial, body_named hrest⟩
  | .result e _ :: rest, h => by
    obtain ⟨he, hrest⟩ := List.forall_mem_append.mp h
    exact ⟨expr_named he, trivial, body_named hrest⟩
  | .collect _ _ :: rest, h => ⟨trivial, body_named h⟩
  | .loop _ _ _ :: rest, h => ⟨trivial, body_named h⟩
  | .vary _ _ _ :: rest, h => ⟨trivial, body_named h⟩
  | .region _ _ _ _ _ :: rest, h => ⟨trivial, body_named h⟩
  | .source _ _ _ _ :: rest, h => ⟨trivial, body_named h⟩

end

theorem option_named {e : Option Expr} (h : ∀ x ∈ Statement.optionIdentifiers e, N x) :
    ∀ f ∈ e, f.MadeOf (named N) := by
  rintro f rfl
  exact expr_named fun x hx => h x (List.mem_flatMap.mpr ⟨f, List.mem_cons_self, hx⟩)

theorem bindings_named {bs : List (Binding Expr)} (h : ∀ x ∈ Statement.bindingIdentifiers bs, N x) :
    ∀ b ∈ bs, b.MadeOf (named N) := by
  intro b hb
  obtain ⟨htarget, he⟩ := List.forall_mem_cons.mp fun x hx => h x (List.mem_flatMap.mpr ⟨b, hb, hx⟩)
  exact ⟨⟨htarget, trivial⟩, expr_named he, trivial⟩

theorem axes_named {as : List (Axis Expr)} (h : ∀ x ∈ Statement.axisIdentifiers as, N x) :
    ∀ a ∈ as, a.MadeOf (named N) := by
  intro a ha
  obtain ⟨hbinning, he⟩ := List.forall_mem_append.mp fun x hx => h x (List.mem_flatMap.mpr ⟨a, ha, hx⟩)
  exact ⟨expr_named hbinning, expr_named he, trivial⟩

mutual

theorem statement_named : ∀ {s : Statement}, (∀ x ∈ s.identifiers, N x) → s.MadeOf (named N)
  | .define target e _, h => by
    obtain ⟨htarget, he⟩ := List.forall_mem_cons.mp h
    exact ⟨⟨htarget, trivial⟩, expr_named he, trivial⟩
  | .function target parameters body _, h => by
    obtain ⟨htarget, h⟩ := List.forall_mem_cons.mp h
    obtain ⟨hparameters, hbody⟩ := List.forall_mem_append.mp h
    exact ⟨⟨htarget, trivial⟩, names_named hparameters, body_named hbody, trivial⟩
  | .result e _, h => ⟨expr_named h, trivial⟩
  | .collect c _, h => by
    obtain ⟨h, hweight⟩ := List.forall_mem_append.mp h
    obtain ⟨hexpression, haxes⟩ := List.forall_mem_append.mp h
    exact ⟨⟨trivial, option_named hexpression, axes_named haxes, option_named hweight⟩, trivial⟩
  | .loop ranges block _, h => by
    obtain ⟨hranges, hblock⟩ := List.forall_mem_append.mp h
    exact ⟨bindings_named hranges, block_named hblock, trivial⟩
  | .vary variations block _, h => by
    obtain ⟨hvariations, hblock⟩ := List.forall_mem_append.mp h
    refine ⟨fun v hv => ⟨trivial, bindings_named fun x hx => ?_, trivial⟩, block_named hblock, trivial⟩
    exact hvariations x (List.mem_flatMap.mpr ⟨v, hv, hx⟩)
  | .region _ predicate axes block _, h => by
    obtain ⟨h, hblock⟩ := List.forall_mem_append.mp h
    obtain ⟨hpredicate, haxes⟩ := List.forall_mem_append.mp h
    exact ⟨trivial, option_named hpredicate, axes_named haxes, block_named hblock, trivial⟩
  | .source _ _ block _, h => ⟨fun _ _ => trivial, block_named h, trivial⟩

theorem block_named : ∀ {block : List Statement}, (∀ x ∈ Statement.blockIdentifiers block, N x) →
    Statement.BlockMadeOf (named N) block
  | [], _ => trivial
  | s :: rest, h => by
    obtain ⟨hfirst, hrest⟩ := List.forall_mem_append.mp h
    exact ⟨statement_named hfirst, block_named hrest⟩

end

end Pieces

end RecordStats
