import RecordStats.Proofs.Likeness.Tree
import RecordStats.Proofs.Record.Effect

/-! Alike blocks of statements, and what their statements evaluate on a record. Statements are alike one by one; and
    where internal errors do not count, a block that is varied is also like the regions that it stands for, one for
    each variation, with the assignments of the variation as the first statements of the region. -/

namespace RecordStats
namespace Likeness

variable (L : Likeness)

structure BindingLike (V : String → Prop) (a b : Binding Expr) : Prop where
  target : L.NameLike a.target b.target
  expression : L.ExprLike V a.expression b.expression
  place : L.span a.span b.span

structure AxisLike (V : String → Prop) (a b : Axis Expr) : Prop where
  binning : L.ExprLike V a.binning b.binning
  expression : L.ExprLike V a.expression b.expression
  place : L.span a.span b.span

structure VariationLike (V : String → Prop) (v w : Variation Expr) : Prop where
  name : L.NameLike v.name w.name
  assignments : List.Forall₂ (L.BindingLike V) v.assignments w.assignments
  place : L.span v.span w.span

structure CollectorLike (V : String → Prop) (c d : Collector Expr) : Prop where
  statistic : c.statistic = d.statistic
  name : L.NameLike c.name d.name
  expression : Option.Rel (L.ExprLike V) c.expression d.expression
  axes : List.Forall₂ (L.AxisLike V) c.axes d.axes
  weight : Option.Rel (L.ExprLike V) c.weight d.weight

structure PatternLike (p q : Pattern) : Prop where
  text : p.text = q.text
  regex : p.regex = q.regex
  place : L.span p.span q.span

/-- The statement defines what the assignment binds. -/
inductive Defines (V : String → Prop) : Binding Expr → Statement → Prop where
  | define {b : Binding Expr} {a : Name} {e : Expr} {s : Span} (target : L.NameLike b.target a)
      (value : L.ExprLike V b.expression e) : Defines V b (.define a e s)

/-- The statements are alike one by one, but for varied blocks that are written as regions. -/
inductive BlockLike (V : String → Prop) : List Statement → List Statement → Prop where
  | nil : BlockLike V [] []
  | define {a b : Name} {e f : Expr} {s t : Span} {more more' : List Statement} (target : L.NameLike a b)
      (value : L.ExprLike V e f) (place : L.span s t) (rest : BlockLike V more more') :
      BlockLike V (.define a e s :: more) (.define b f t :: more')
  | function {a b : Name} {ps qs : List Name} {body body' : List Statement} {s t : Span} {more more' : List Statement}
      (target : L.NameLike a b) (parameters : List.Forall₂ L.NameLike ps qs) (inner : L.BodyLike V body body')
      (place : L.span s t) (rest : BlockLike V more more') :
      BlockLike V (.function a ps body s :: more) (.function b qs body' t :: more')
  | result {e f : Expr} {s t : Span} {more more' : List Statement} (value : L.ExprLike V e f) (place : L.span s t)
      (rest : BlockLike V more more') : BlockLike V (.result e s :: more) (.result f t :: more')
  | collect {c d : Collector Expr} {s t : Span} {more more' : List Statement} (collector : L.CollectorLike V c d)
      (place : L.span s t) (rest : BlockLike V more more') : BlockLike V (.collect c s :: more) (.collect d t :: more')
  | loop {ranges ranges' : List (Binding Expr)} {block block' : List Statement} {s t : Span}
      {more more' : List Statement} (bindings : List.Forall₂ (L.BindingLike V) ranges ranges')
      (inner : BlockLike V block block') (place : L.span s t) (rest : BlockLike V more more') :
      BlockLike V (.loop ranges block s :: more) (.loop ranges' block' t :: more')
  | vary {vs ws : List (Variation Expr)} {block block' : List Statement} {s t : Span} {more more' : List Statement}
      (variations : List.Forall₂ (L.VariationLike V) vs ws) (inner : BlockLike V block block') (place : L.span s t)
      (rest : BlockLike V more more') : BlockLike V (.vary vs block s :: more) (.vary ws block' t :: more')
  | region {m n : Name} {p q : Option Expr} {as bs : List (Axis Expr)} {block block' : List Statement} {s t : Span}
      {more more' : List Statement} (name : L.NameLike m n) (predicate : Option.Rel (L.ExprLike V) p q)
      (axes : List.Forall₂ (L.AxisLike V) as bs) (inner : BlockLike V block block') (place : L.span s t)
      (rest : BlockLike V more more') : BlockLike V (.region m p as block s :: more) (.region n q bs block' t :: more')
  | source (inclusive : Bool) {ps qs : List Pattern} {block block' : List Statement} {s t : Span}
      {more more' : List Statement} (patterns : List.Forall₂ L.PatternLike ps qs) (inner : BlockLike V block block')
      (place : L.span s t) (rest : BlockLike V more more') :
      BlockLike V (.source inclusive ps block s :: more) (.source inclusive qs block' t :: more')
  /-- The last variation as a region. -/
  | lastRegion {v : Variation Expr} {n : Name} {starts block block' : List Statement} {s t : Span}
      {more more' : List Statement} (allowed : L.lenient) (few : v.assignments.length ≤ 1) (name : L.NameLike v.name n)
      (assignments : List.Forall₂ (L.Defines V) v.assignments starts) (inner : BlockLike V block block')
      (rest : BlockLike V more more') :
      BlockLike V (.vary [v] block s :: more) (.region n none [] (starts ++ block') t :: more')
  /-- The first of some variations as a region, before the others. -/
  | nextRegion {v w : Variation Expr} {vs : List (Variation Expr)} {n : Name} {starts block block' : List Statement}
      {s t : Span} {more more' : List Statement} (allowed : L.lenient) (few : v.assignments.length ≤ 1)
      (name : L.NameLike v.name n) (assignments : List.Forall₂ (L.Defines V) v.assignments starts)
      (inner : BlockLike V block block') (others : BlockLike V (.vary (w :: vs) block s :: more) more') :
      BlockLike V (.vary (v :: w :: vs) block s :: more) (.region n none [] (starts ++ block') t :: more')

variable {L} {V : String → Prop} {call call' : Caller} {scope scope' : Scope}

/-! ### What statements evaluate -/

theorem weightOf_like (hcall : L.CallerLike call call') (hscope : L.SightLike V scope scope') {e e' : Option Expr}
    (h : Option.Rel (L.ExprLike V) e e') :
    L.EndsLike True Eq (weightOf call scope e) (weightOf call' scope' e') := by
  cases h with
  | none => exact .ok rfl
  | some h =>
    refine (scope_evaluate_like hcall hscope h).bind fun v w hv => ?_
    rw [hv.number?_eq, hv.text_eq]
    split
    · exact .ok rfl
    · exact .failAt h.span

theorem takes_like (hcall : L.CallerLike call call') (hscope : L.SightLike V scope scope') {e e' : Option Expr}
    (h : Option.Rel (L.ExprLike V) e e') : L.EndsLike True Eq (takes call scope e) (takes call' scope' e') := by
  cases h with
  | none => exact .ok rfl
  | some h =>
    refine (scope_evaluate_like hcall hscope h).bind fun v w hv => ?_
    have text := hv.text_eq
    cases hv with
    | boolean b => exact .ok rfl
    | _ =>
      simp only [text]
      exact .failAt h.span

theorem fillOf_like (hcall : L.CallerLike call call') (hscope : L.SightLike V scope scope') (path : Path)
    {ns ns' : Namespace} (hns : L.NamespaceLike V ns ns') {c d : Collector Expr} (h : L.CollectorLike V c d) :
    L.EndsLike True Eq (c.fillOf call path ns scope) (d.fillOf call' path ns' scope') := by
  refine (weightOf_like hcall hscope h.weight).bind ?_
  rintro w _ rfl
  refine (entry_like hns h.name).bind fun node node' hnode => ?_
  rw [h.name.text]
  refine (hnode.target hcall hscope _).bind ?_
  rintro reached _ rfl
  exact .ok rfl

/-- Columns of the same names, with alike items. -/
abbrev ColumnsLike (L : Likeness) : List (String × List Value) → List (String × List Value) → Prop :=
  PairsLike L.ValuesLike

theorem sequences_like (hcall : L.CallerLike call call') (hscope : L.SightLike V scope scope') (i : Nat)
    {bs cs : List (Binding Expr)} (h : List.Forall₂ (L.BindingLike V) bs cs) :
    L.EndsLike True L.ColumnsLike (sequences call scope i bs) (sequences call' scope' i cs) := by
  induction h generalizing i with
  | nil => exact .ok .nil
  | @cons b c _ _ first _ ih =>
    rw [sequences, sequences, hscope.made, hscope.base, first.target.text]
    refine (first.expression.evaluate hcall hscope _).bind fun v w hv => ?_
    have items := hv.items?
    generalize v.items? = x at items
    generalize w.items? = y at items
    cases items with
    | none => exact .failAt first.place
    | some items => exact (ih (i + 1)).bind fun _ _ more => .ok (.cons ⟨rfl, items⟩ more)

theorem rows_like (n : Nat) {columns columns' : List (String × List Value)} (h : L.ColumnsLike columns columns') :
    List.Forall₂ L.FieldsLike (rows n columns) (rows n columns') := by
  induction n generalizing columns columns' with
  | zero => exact .nil
  | succ n ih =>
    refine .cons ?_ (ih ?_)
    · refine List.rel_filterMap ?_ h
      rintro ⟨k, vs⟩ ⟨_, ws⟩ ⟨rfl, hvs⟩
      cases hvs with
      | nil => exact .none
      | cons first _ => exact .some ⟨rfl, first⟩
    · refine List.rel_map ?_ h
      rintro ⟨k, vs⟩ ⟨_, ws⟩ ⟨rfl, hvs⟩
      cases hvs with
      | nil => exact ⟨rfl, .nil⟩
      | cons _ rest => exact ⟨rfl, rest⟩

/-- The columns are of the same lengths. -/
theorem ColumnsLike.lengths_eq {columns columns' : List (String × List Value)} (h : L.ColumnsLike columns columns') :
    columns.map (fun c => c.2.length) = columns'.map fun c => c.2.length := by
  induction h with
  | nil => rfl
  | cons first _ ih => rw [List.map_cons, List.map_cons, ih, first.2.length_eq]

theorem turns_like (hcall : L.CallerLike call call') (hscope : L.SightLike V scope scope')
    {ranges ranges' : List (Binding Expr)} (h : List.Forall₂ (L.BindingLike V) ranges ranges') {s t : Span}
    (place : L.span s t) :
    L.EndsLike True (List.Forall₂ L.FieldsLike) (turns call scope ranges s) (turns call' scope' ranges' t) := by
  refine (sequences_like hcall hscope 0 h).bind fun columns columns' hcolumns => ?_
  have lengths := ColumnsLike.lengths_eq hcolumns
  have length : (columns.head?.map fun c => c.2.length) = columns'.head?.map fun c => c.2.length := by
    rw [← List.head?_map, ← List.head?_map, lengths]
  have all : ∀ n, (columns.all fun c => c.2.length == n) = columns'.all fun c => c.2.length == n := by
    intro n
    have mapped := congrArg (List.all · fun m => m == n) lengths
    rwa [List.all_map, List.all_map] at mapped
  simp only [length, all]
  split
  · exact .ok (rows_like _ hcolumns)
  · exact .failAt place

/-- The assignments of a variation are evaluated around it, and bound one by one. -/
theorem variationScope_like (hcall : L.CallerLike call call') (hscope : L.SightLike V scope scope')
    {bs cs : List (Binding Expr)} (h : List.Forall₂ (L.BindingLike V) bs cs) {inner inner' : Scope}
    (hinner : L.ScopeLike V inner inner') :
    L.EndsLike True (L.ScopeLike V) (variationScope call scope inner bs) (variationScope call' scope' inner' cs) := by
  induction h generalizing inner inner' with
  | nil => exact .ok hinner
  | @cons b c _ _ first _ ih =>
    rw [variationScope, variationScope, hinner.place_eq, first.target.text]
    exact (first.expression.evaluate hcall hscope _).bind fun v w hv => ih (hinner.define _ hv)

end Likeness
end RecordStats
