import Mathlib.Logic.Relation
import RecordStats.Proofs.Program.WellFormed

/-! The parts of a program one by one, at any depth: its expressions, the statements of its blocks, and the definitions
    in its functions' bodies. In a well-formed program every part has the shape that evaluation takes for granted. -/

namespace RecordStats

/-- A part of a program. The result of a function's body is an expression there, and no statement. -/
inductive Fragment where
  | expression (e : Expr)
  | statement (s : Statement)

/-- The statement is one of those that come before the result of a function's body. -/
def Statement.Defines : Statement → Prop
  | define _ _ _ | function _ _ _ _ => True
  | _ => False

/-- A function as it is written: parameters with different names, and some definitions before one result. -/
structure FunctionShape (parameters : List Name) (body : List Statement) : Prop where
  distinct : (parameters.map Name.text).Nodup
  body : ∃ definitions e s, body = definitions ++ [.result e s] ∧ ∀ d ∈ definitions, d.Defines

namespace Fragment

/-- A statement of a function's body as a part. -/
def ofBody : Statement → Fragment
  | .result e _ => expression e
  | s => statement s

def ofAxes (axes : List (Axis Expr)) : List Fragment :=
  axes.flatMap fun a => [expression a.binning, expression a.expression]

def ofBindings (bindings : List (Binding Expr)) : List Fragment :=
  bindings.map fun b => expression b.expression

/-- The parts that a part is put together from. -/
def parts : Fragment → List Fragment
  | expression (.operator _ operands _) => operands.map expression
  | expression (.call callee arguments _) => (callee :: arguments).map expression
  | expression (.lambda _ body _) | statement (.function _ _ body _) => body.map ofBody
  | expression _ => []
  | statement (.define _ e _) | statement (.result e _) => [expression e]
  | statement (.collect c _) => (c.expression.toList ++ c.weight.toList).map expression ++ ofAxes c.axes
  | statement (.loop ranges block _) => ofBindings ranges ++ block.map statement
  | statement (.vary variations block _) =>
    (variations.flatMap fun v => ofBindings v.assignments) ++ block.map statement
  | statement (.region _ predicate axes block _) =>
    predicate.toList.map expression ++ ofAxes axes ++ block.map statement
  | statement (.source _ _ block _) => block.map statement

/-- The second part is one of the first, or a part of one of these, and so on. -/
def Within : Fragment → Fragment → Prop :=
  Relation.ReflTransGen fun whole part => part ∈ whole.parts

/-- An operator has its operands, and a member access names its member. A function is written as one, a collector has
    an expression unless it counts, and no block is given without variables, variations or patterns. -/
def Shaped : Fragment → Prop
  | expression (.operator op operands _) =>
    operands.length = op.arity ∧ (op = .member → ∃ text s, operands[1]? = some (.name text s))
  | expression (.lambda parameters body _) | statement (.function _ parameters body _) =>
    FunctionShape parameters body
  | expression _ | statement (.define _ _ _) | statement (.region _ _ _ _ _) => True
  | statement (.result _ _) => False
  | statement (.collect c _) => c.expression = none ↔ c.statistic = .count
  | statement (.loop ranges _ _) => ranges ≠ []
  | statement (.vary variations _ _) => variations ≠ []
  | statement (.source _ patterns _ _) => patterns ≠ []

/-- The part is one that a text can hold. -/
def WellFormed (most : Nat) : Fragment → Prop
  | expression e => e.WellFormed most
  | statement s => s.WellFormed most

variable {most : Nat}

theorem wellFormed_expressions {es : List Expr} :
    (∀ q ∈ es.map expression, q.WellFormed most) ↔ ∀ e ∈ es, e.WellFormed most := List.forall_mem_map

theorem wellFormed_block {block : List Statement} (h : Statement.WellFormedBlock most block) :
    ∀ q ∈ block.map statement, q.WellFormed most :=
  List.forall_mem_map.mpr (Statement.wellFormedBlock_iff.mp h)

theorem wellFormed_axes {axes : List (Axis Expr)} (h : ∀ a ∈ axes, a.WellFormed most) :
    ∀ q ∈ ofAxes axes, q.WellFormed most := by
  intro q hq
  obtain ⟨a, ha, hq⟩ := List.mem_flatMap.mp hq
  have both : ∀ r ∈ [expression a.binning, expression a.expression], r.WellFormed most :=
    List.forall_mem_cons.mpr ⟨(h a ha).binning, List.forall_mem_singleton.mpr (h a ha).expression⟩
  exact both q hq

theorem wellFormed_bindings {bindings : List (Binding Expr)} (h : ∀ b ∈ bindings, b.expression.WellFormed most) :
    ∀ q ∈ ofBindings bindings, q.WellFormed most := List.forall_mem_map.mpr h

/-- A body consists of definitions and one result. -/
theorem wellFormed_body : ∀ {body : List Statement}, Expr.WellFormedBody most body →
    (∃ definitions e s, body = definitions ++ [.result e s] ∧ ∀ d ∈ definitions, d.Defines) ∧
      ∀ q ∈ body.map ofBody, q.WellFormed most
  | .result e s :: rest, ⟨he, hlast⟩ => by
    subst hlast
    exact ⟨⟨[], e, s, rfl, List.forall_mem_nil _⟩, List.forall_mem_singleton.mpr he⟩
  | .define target e s :: rest, ⟨he, hrest⟩ => by
    obtain ⟨⟨definitions, result, span, hbody, hall⟩, hparts⟩ := wellFormed_body hrest
    refine ⟨⟨.define target e s :: definitions, result, span, congrArg _ hbody, ?_⟩, ?_⟩
    · exact List.forall_mem_cons.mpr ⟨trivial, hall⟩
    · exact List.forall_mem_cons.mpr ⟨he, hparts⟩
  | .function target parameters body s :: rest, ⟨hparameters, hbody, hrest⟩ => by
    obtain ⟨⟨definitions, result, span, hwhole, hall⟩, hparts⟩ := wellFormed_body hrest
    refine ⟨⟨.function target parameters body s :: definitions, result, span, congrArg _ hwhole, ?_⟩, ?_⟩
    · exact List.forall_mem_cons.mpr ⟨trivial, hall⟩
    · exact List.forall_mem_cons.mpr ⟨⟨hparameters, hbody⟩, hparts⟩

/-- The parts of a well-formed part are well-formed. -/
theorem WellFormed.parts : ∀ {q : Fragment}, q.WellFormed most → ∀ r ∈ q.parts, r.WellFormed most
  | expression (.literal _ _), _ | expression (.name _ _), _ => List.forall_mem_nil _
  | expression (.operator _ _ _), ⟨_, _, hoperands⟩ =>
    wellFormed_expressions.mpr (Expr.wellFormedAll_iff.mp hoperands)
  | expression (.call _ _ _), ⟨hcallee, _, harguments⟩ =>
    List.forall_mem_cons.mpr ⟨hcallee, wellFormed_expressions.mpr (Expr.wellFormedAll_iff.mp harguments)⟩
  | expression (.lambda _ _ _), ⟨_, hbody⟩ | statement (.function _ _ _ _), ⟨_, hbody⟩ => (wellFormed_body hbody).2
  | statement (.define _ _ _), he => List.forall_mem_singleton.mpr he
  | statement (.collect c _), hc => by
    have expressions : ∀ e ∈ c.expression.toList ++ c.weight.toList, e.WellFormed most :=
      List.forall_mem_append.mpr ⟨fun e he => hc.expression e (Option.mem_toList.mp he),
        fun e he => hc.weight e (Option.mem_toList.mp he)⟩
    exact List.forall_mem_append.mpr ⟨wellFormed_expressions.mpr expressions, wellFormed_axes hc.axes⟩
  | statement (.loop _ _ _), ⟨_, hranges, hblock⟩ =>
    List.forall_mem_append.mpr ⟨wellFormed_bindings hranges, wellFormed_block hblock⟩
  | statement (.vary variations _ _), ⟨_, hassignments, hblock⟩ => by
    refine List.forall_mem_append.mpr ⟨fun q hq => ?_, wellFormed_block hblock⟩
    obtain ⟨v, hv, hq⟩ := List.mem_flatMap.mp hq
    exact wellFormed_bindings (hassignments v hv) q hq
  | statement (.region _ predicate _ _ _), ⟨hpredicate, haxes, hblock⟩ => by
    have predicates : ∀ e ∈ predicate.toList, e.WellFormed most := fun e he => hpredicate e (Option.mem_toList.mp he)
    refine List.forall_mem_append.mpr ⟨List.forall_mem_append.mpr ⟨?_, wellFormed_axes haxes⟩, wellFormed_block hblock⟩
    exact wellFormed_expressions.mpr predicates
  | statement (.source _ _ _ _), ⟨_, hblock⟩ => wellFormed_block hblock

theorem WellFormed.within {q r : Fragment} (h : q.WellFormed most) (hr : q.Within r) : r.WellFormed most := by
  induction hr with
  | refl => exact h
  | tail _ step ih => exact ih.parts _ step

theorem WellFormed.shaped : ∀ {q : Fragment}, q.WellFormed most → q.Shaped
  | expression (.literal _ _), _ | expression (.name _ _), _ | expression (.call _ _ _), _ => trivial
  | expression (.operator _ _ _), ⟨hlen, hmember, _⟩ => by
    refine ⟨hlen, fun hop => ?_⟩
    obtain ⟨receiver, text, s, rfl⟩ := hmember hop
    exact ⟨text, s, rfl⟩
  | expression (.lambda _ _ _), ⟨hparameters, hbody⟩ | statement (.function _ _ _ _), ⟨hparameters, hbody⟩ =>
    ⟨hparameters, (wellFormed_body hbody).1⟩
  | statement (.define _ _ _), _ | statement (.region _ _ _ _ _), _ => trivial
  | statement (.collect _ _), hc => hc.measured
  | statement (.loop _ _ _), ⟨hranges, _⟩ => hranges
  | statement (.vary _ _ _), ⟨hvariations, _⟩ => hvariations
  | statement (.source _ _ _ _), ⟨hpatterns, _⟩ => hpatterns

end Fragment
end RecordStats
