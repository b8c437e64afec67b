import RecordStats.Proofs.Likeness.Block
import RecordStats.Proofs.Program.WellFormed

/-! What is like a well-formed program is well-formed. -/

namespace RecordStats
namespace Likeness

variable {L : Likeness} {V : String → Prop} {most : Nat}

theorem ExprsLike.length_eq {es fs : List Expr} (h : L.ExprsLike V es fs) : es.length = fs.length := by
  induction es generalizing fs with
  | nil =>
    cases h
    rfl
  | cons e es ih =>
    cases h with
    | cons _ rest => rw [List.length_cons, List.length_cons, ih rest]

/-- The operands of a member access are a receiver and a name. -/
theorem ExprsLike.receiver_name {es fs : List Expr} (h : L.ExprsLike V es fs)
    (hes : ∃ receiver text s, es = [receiver, .name text s]) : ∃ receiver text s, fs = [receiver, .name text s] := by
  obtain ⟨receiver, text, s, rfl⟩ := hes
  cases h with
  | cons first rest =>
    cases rest with
    | cons second rest =>
      cases second with
      | name _ _ =>
        cases rest
        exact ⟨_, _, _, rfl⟩

mutual

theorem ExprLike.wellFormed : ∀ {e f : Expr}, L.ExprLike V e f → e.WellFormed most → f.WellFormed most
  | .literal _ _, _, h, _ => by
    cases h
    trivial
  | .name _ _, _, h, _ => by
    cases h
    trivial
  | .operator op es _, _, h, ⟨arity, receiver, wf⟩ => by
    cases h with
    | operator _ operands _ =>
      refine ⟨?_, fun hop => operands.receiver_name (receiver hop), ExprsLike.wellFormed operands wf⟩
      rw [← operands.length_eq, arity]
  | .call e es _, _, h, ⟨wf, few, wfs⟩ => by
    cases h with
    | call callee arguments _ =>
      exact ⟨ExprLike.wellFormed callee wf, arguments.length_eq ▸ few, ExprsLike.wellFormed arguments wfs⟩
  | .lambda _ body _, _, h, ⟨distinct, wf⟩ => by
    cases h with
    | lambda parameters inner _ =>
      exact ⟨NameLike.texts_eq parameters ▸ distinct, BodyLike.wellFormed inner wf⟩

theorem ExprsLike.wellFormed : ∀ {es fs : List Expr}, L.ExprsLike V es fs → Expr.WellFormedAll most es →
    Expr.WellFormedAll most fs
  | [], _, h, _ => by
    cases h
    trivial
  | e :: es, _, h, ⟨wf, wfs⟩ => by
    cases h with
    | cons first rest => exact ⟨ExprLike.wellFormed first wf, ExprsLike.wellFormed rest wfs⟩

theorem BodyLike.wellFormed : ∀ {body body' : List Statement}, L.BodyLike V body body' →
    Expr.WellFormedBody most body → Expr.WellFormedBody most body'
  | .define _ _ _ :: _, _, h, ⟨wf, wfs⟩ => by
    cases h with
    | define _ value _ more => exact ⟨ExprLike.wellFormed value wf, BodyLike.wellFormed more wfs⟩
    | other first => cases first
  | .function _ _ _ _ :: _, _, h, ⟨distinct, wf, wfs⟩ => by
    cases h with
    | function _ parameters inner _ more =>
      exact ⟨NameLike.texts_eq parameters ▸ distinct, BodyLike.wellFormed inner wf, BodyLike.wellFormed more wfs⟩
    | other first => cases first
  | .result _ _ :: _, _, h, ⟨wf, hrest⟩ => by
    subst hrest
    cases h with
    | result value _ more =>
      cases more
      exact ⟨ExprLike.wellFormed value wf, rfl⟩
    | other first => cases first

end

theorem OptionLike.wellFormed {e f : Option Expr} (h : Option.Rel (L.ExprLike V) e f)
    (wf : ∀ x ∈ e, x.WellFormed most) : ∀ x ∈ f, x.WellFormed most := by
  cases h with
  | none => exact nofun
  | some h =>
    intro x hx
    obtain rfl := Option.mem_some_iff.mp hx
    exact h.wellFormed (wf _ rfl)

theorem AxisLike.all_wellFormed {as bs : List (Axis Expr)} (h : List.Forall₂ (L.AxisLike V) as bs)
    (wf : ∀ a ∈ as, a.WellFormed most) : ∀ b ∈ bs, b.WellFormed most := by
  induction h with
  | nil => exact nofun
  | cons first _ ih =>
    obtain ⟨here, later⟩ := List.forall_mem_cons.mp wf
    exact List.forall_mem_cons.mpr
      ⟨⟨first.binning.wellFormed here.binning, first.expression.wellFormed here.expression⟩, ih later⟩

theorem BindingLike.all_wellFormed {as bs : List (Binding Expr)} (h : List.Forall₂ (L.BindingLike V) as bs)
    (wf : ∀ a ∈ as, a.expression.WellFormed most) : ∀ b ∈ bs, b.expression.WellFormed most := by
  induction h with
  | nil => exact nofun
  | cons first _ ih =>
    obtain ⟨here, later⟩ := List.forall_mem_cons.mp wf
    exact List.forall_mem_cons.mpr ⟨first.expression.wellFormed here, ih later⟩

theorem VariationLike.all_wellFormed {vs ws : List (Variation Expr)} (h : List.Forall₂ (L.VariationLike V) vs ws)
    (wf : ∀ v ∈ vs, ∀ b ∈ v.assignments, b.expression.WellFormed most) :
    ∀ w ∈ ws, ∀ b ∈ w.assignments, b.expression.WellFormed most := by
  induction h with
  | nil => exact nofun
  | cons first _ ih =>
    obtain ⟨here, later⟩ := List.forall_mem_cons.mp wf
    exact List.forall_mem_cons.mpr ⟨BindingLike.all_wellFormed first.assignments here, ih later⟩

theorem CollectorLike.wellFormed {c d : Collector Expr} (h : L.CollectorLike V c d) (wf : c.WellFormed most) :
    d.WellFormed most := by
  obtain ⟨measured, expression, axes, weight⟩ := wf
  refine ⟨?_, OptionLike.wellFormed h.expression expression, AxisLike.all_wellFormed h.axes axes,
    OptionLike.wellFormed h.weight weight⟩
  rw [← h.statistic, ← measured]
  have same := h.expression
  generalize c.expression = x at same
  generalize d.expression = y at same
  cases same <;> simp

/-- The definitions of an assignment, and a block after them. -/
theorem Defines.wellFormed {bs : List (Binding Expr)} {starts block : List Statement}
    (h : List.Forall₂ (L.Defines V) bs starts) (wf : ∀ b ∈ bs, b.expression.WellFormed most)
    (wfs : Statement.WellFormedBlock most block) : Statement.WellFormedBlock most (starts ++ block) := by
  induction h with
  | nil => exact wfs
  | cons first _ ih =>
    obtain ⟨here, later⟩ := List.forall_mem_cons.mp wf
    cases first with
    | define _ value => exact ⟨value.wellFormed here, ih later⟩

/-- A variation as a region. -/
theorem region_wellFormed {v : Variation Expr} {n : Name} {starts block : List Statement} {t : Span}
    (assignments : List.Forall₂ (L.Defines V) v.assignments starts)
    (wf : ∀ b ∈ v.assignments, b.expression.WellFormed most) (wfs : Statement.WellFormedBlock most block) :
    (Statement.region n none [] (starts ++ block) t).WellFormed most :=
  ⟨nofun, nofun, Defines.wellFormed assignments wf wfs⟩

theorem BlockLike.wellFormed {block block' : List Statement} (h : L.BlockLike V block block') :
    Statement.WellFormedBlock most block → Statement.WellFormedBlock most block' := by
  induction h with
  | nil => exact id
  | define _ value _ _ ih => exact fun ⟨wf, wfs⟩ => ⟨value.wellFormed wf, ih wfs⟩
  | function _ parameters inner _ _ ih =>
    exact fun ⟨⟨distinct, wf⟩, wfs⟩ => ⟨⟨NameLike.texts_eq parameters ▸ distinct, inner.wellFormed wf⟩, ih wfs⟩
  | result => exact fun ⟨wf, _⟩ => wf.elim
  | collect collector _ _ ih => exact fun ⟨wf, wfs⟩ => ⟨collector.wellFormed wf, ih wfs⟩
  | loop bindings _ _ _ ihinner ih =>
    intro ⟨⟨any, wf, inner⟩, wfs⟩
    refine ⟨⟨?_, BindingLike.all_wellFormed bindings wf, ihinner inner⟩, ih wfs⟩
    rintro rfl
    cases bindings
    exact any rfl
  | vary variations _ _ _ ihinner ih =>
    intro ⟨⟨any, wf, inner⟩, wfs⟩
    refine ⟨⟨?_, VariationLike.all_wellFormed variations wf, ihinner inner⟩, ih wfs⟩
    rintro rfl
    cases variations
    exact any rfl
  | region _ predicate axes _ _ _ ihinner ih =>
    exact fun ⟨⟨wfp, wfa, inner⟩, wfs⟩ =>
      ⟨⟨OptionLike.wellFormed predicate wfp, AxisLike.all_wellFormed axes wfa, ihinner inner⟩, ih wfs⟩
  | source _ patterns _ _ _ ihinner ih =>
    intro ⟨⟨any, inner⟩, wfs⟩
    refine ⟨⟨?_, ihinner inner⟩, ih wfs⟩
    rintro rfl
    cases patterns
    exact any rfl
  | lastRegion _ _ _ assignments _ _ ihinner ih =>
    exact fun ⟨⟨_, wf, inner⟩, wfs⟩ =>
      ⟨region_wellFormed assignments (List.forall_mem_singleton.mp wf) (ihinner inner), ih wfs⟩
  | nextRegion _ _ _ assignments _ _ ihinner ih =>
    intro ⟨⟨_, wf, inner⟩, wfs⟩
    obtain ⟨here, later⟩ := List.forall_mem_cons.mp wf
    exact ⟨region_wellFormed assignments here (ihinner inner), ih ⟨⟨List.cons_ne_nil _ _, later, inner⟩, wfs⟩⟩

end Likeness
end RecordStats
