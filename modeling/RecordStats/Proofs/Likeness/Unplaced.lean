import RecordStats.Proofs.Likeness.Reflexive
import RecordStats.Proofs.Program.Unplaced
import RecordStats.Proofs.Program.WellFormed

/-! Likeness up to places. Where any place may stand for any other, well-formed programs are alike when they are the
    same without their places. -/

namespace RecordStats
namespace Likeness

variable {L : Likeness} {V : String → Prop} {most : Nat}

/-! ### Expressions -/

theorem NameLike.of_unplaced (anywhere : ∀ s t, L.span s t) {a b : Name} (h : a.unplaced = b.unplaced) :
    L.NameLike a b :=
  ⟨(Name.mk.inj h).1, anywhere _ _⟩

theorem forall₂_of_map_eq {α β : Type} {R : α → α → Prop} {f : α → β} :
    ∀ {as bs : List α}, (∀ a ∈ as, ∀ b, f a = f b → R a b) → as.map f = bs.map f → List.Forall₂ R as bs
  | [], [], _, _ => .nil
  | a :: as, b :: bs, hR, h => by
    obtain ⟨first, rest⟩ := List.cons.inj h
    obtain ⟨here, later⟩ := List.forall_mem_cons.mp hR
    exact .cons (here b first) (forall₂_of_map_eq later rest)

theorem NameLike.all_of_unplaced (anywhere : ∀ s t, L.span s t) {as bs : List Name}
    (h : as.map Name.unplaced = bs.map Name.unplaced) : List.Forall₂ L.NameLike as bs :=
  forall₂_of_map_eq (fun _ _ _ h => .of_unplaced anywhere h) h

mutual

theorem ExprLike.of_unplaced (anywhere : ∀ s t, L.span s t) (visible : ∀ x, V x) : ∀ {e f : Expr},
    e.WellFormed most → e.unplaced = f.unplaced → L.ExprLike V e f
  | .literal value _, f, _, h => by
    cases f <;> cases h
    exact .literal value (anywhere _ _)
  | .name text _, f, _, h => by
    cases f <;> cases h
    exact .name (visible text) (anywhere _ _)
  | .operator op es _, f, ⟨_, _, wf⟩, h => by
    cases f <;> simp only [Expr.unplaced, reduceCtorEq, Expr.operator.injEq] at h
    obtain ⟨rfl, h, -⟩ := h
    exact .operator op (ExprsLike.of_unplaced anywhere visible wf h) (anywhere _ _)
  | .call e es _, f, ⟨wf, _, wfs⟩, h => by
    cases f <;> simp only [Expr.unplaced, reduceCtorEq, Expr.call.injEq] at h
    obtain ⟨hcallee, h, -⟩ := h
    exact .call (ExprLike.of_unplaced anywhere visible wf hcallee) (ExprsLike.of_unplaced anywhere visible wfs h)
      (anywhere _ _)
  | .lambda ps body _, f, ⟨_, wf⟩, h => by
    cases f <;> simp only [Expr.unplaced, reduceCtorEq, Expr.lambda.injEq] at h
    obtain ⟨hps, h, -⟩ := h
    exact .lambda (NameLike.all_of_unplaced anywhere hps) (BodyLike.of_unplaced anywhere visible wf h) (anywhere _ _)

theorem ExprsLike.of_unplaced (anywhere : ∀ s t, L.span s t) (visible : ∀ x, V x) : ∀ {es fs : List Expr},
    Expr.WellFormedAll most es → Expr.unplacedAll es = Expr.unplacedAll fs → L.ExprsLike V es fs
  | [], fs, _, h => by
    cases fs with
    | nil => exact .nil
    | cons => cases h
  | e :: es, fs, ⟨wf, wfs⟩, h => by
    cases fs with
    | nil => cases h
    | cons f fs =>
      obtain ⟨first, rest⟩ := List.cons.inj h
      exact .cons (ExprLike.of_unplaced anywhere visible wf first) (ExprsLike.of_unplaced anywhere visible wfs rest)

theorem BodyLike.of_unplaced (anywhere : ∀ s t, L.span s t) (visible : ∀ x, V x) : ∀ {body body' : List Statement},
    Expr.WellFormedBody most body → Expr.unplacedBody body = Expr.unplacedBody body' → L.BodyLike V body body'
  | .define a e _ :: rest, body', ⟨wf, wfs⟩, h => by
    cases body' with
    | nil => cases h
    | cons s' rest' =>
      cases s' <;> simp only [Expr.unplacedBody, List.cons.injEq, reduceCtorEq, false_and, Statement.define.injEq] at h
      obtain ⟨⟨ha, he, -⟩, hrest⟩ := h
      exact .define (.of_unplaced anywhere ha) (ExprLike.of_unplaced anywhere visible wf he) (anywhere _ _)
        (BodyLike.of_unplaced anywhere visible wfs hrest)
  | .function a ps body _ :: rest, body', ⟨_, wf, wfs⟩, h => by
    cases body' with
    | nil => cases h
    | cons s' rest' =>
      cases s' <;> simp only [Expr.unplacedBody, List.cons.injEq, reduceCtorEq, false_and, Statement.function.injEq] at h
      obtain ⟨⟨ha, hps, hbody, -⟩, hrest⟩ := h
      exact .function (.of_unplaced anywhere ha) (NameLike.all_of_unplaced anywhere hps)
        (BodyLike.of_unplaced anywhere visible wf hbody) (anywhere _ _) (BodyLike.of_unplaced anywhere visible wfs hrest)
  | .result e _ :: _, body', ⟨wf, hrest⟩, h => by
    subst hrest
    cases body' with
    | nil => cases h
    | cons s' rest' =>
      cases s' <;> simp only [Expr.unplacedBody, List.cons.injEq, reduceCtorEq, false_and, Statement.result.injEq] at h
      obtain ⟨⟨he, -⟩, hrest⟩ := h
      cases rest' with
      | nil => exact .result (ExprLike.of_unplaced anywhere visible wf he) (anywhere _ _) .nil
      | cons s' rest' => cases s' <;> cases hrest

end

/-! ### Blocks -/

theorem OptionLike.of_unplaced (anywhere : ∀ s t, L.span s t) (visible : ∀ x, V x) {e f : Option Expr}
    (wf : ∀ x ∈ e, x.WellFormed most) (h : e.map Expr.unplaced = f.map Expr.unplaced) : Option.Rel (L.ExprLike V) e f := by
  cases e with
  | none =>
    cases f with
    | none => exact .none
    | some => cases h
  | some e =>
    cases f with
    | none => cases h
    | some f => exact .some (.of_unplaced anywhere visible (wf e rfl) (Option.some.inj h))

theorem BindingLike.of_unplaced (anywhere : ∀ s t, L.span s t) (visible : ∀ x, V x) {a b : Binding Expr}
    (wf : a.expression.WellFormed most) (h : a.unplaced = b.unplaced) : L.BindingLike V a b := by
  obtain ⟨target, expression, -⟩ := Binding.mk.inj h
  exact ⟨.of_unplaced anywhere target, .of_unplaced anywhere visible wf expression, anywhere _ _⟩

theorem AxisLike.all_of_unplaced (anywhere : ∀ s t, L.span s t) (visible : ∀ x, V x) {as bs : List (Axis Expr)}
    (wf : ∀ a ∈ as, a.WellFormed most) (h : as.map Axis.unplaced = bs.map Axis.unplaced) :
    List.Forall₂ (L.AxisLike V) as bs := by
  refine forall₂_of_map_eq (fun a ha b h => ?_) h
  obtain ⟨binning, expression, -⟩ := Axis.mk.inj h
  exact ⟨.of_unplaced anywhere visible (wf a ha).binning binning,
    .of_unplaced anywhere visible (wf a ha).expression expression, anywhere _ _⟩

theorem VariationLike.all_of_unplaced (anywhere : ∀ s t, L.span s t) (visible : ∀ x, V x) {vs ws : List (Variation Expr)}
    (wf : ∀ v ∈ vs, ∀ b ∈ v.assignments, b.expression.WellFormed most)
    (h : vs.map Variation.unplaced = ws.map Variation.unplaced) : List.Forall₂ (L.VariationLike V) vs ws := by
  refine forall₂_of_map_eq (fun v hv w h => ?_) h
  obtain ⟨name, assignments, -⟩ := Variation.mk.inj h
  refine ⟨.of_unplaced anywhere name, forall₂_of_map_eq (fun b hb c h => ?_) assignments, anywhere _ _⟩
  exact .of_unplaced anywhere visible (wf v hv b hb) h

theorem CollectorLike.of_unplaced (anywhere : ∀ s t, L.span s t) (visible : ∀ x, V x) {c d : Collector Expr}
    (wf : c.WellFormed most) (h : c.unplaced = d.unplaced) : L.CollectorLike V c d := by
  obtain ⟨statistic, name, expression, axes, weight⟩ := Collector.mk.inj h
  exact ⟨statistic, .of_unplaced anywhere name, OptionLike.of_unplaced anywhere visible wf.expression expression,
    AxisLike.all_of_unplaced anywhere visible wf.axes axes, OptionLike.of_unplaced anywhere visible wf.weight weight⟩

theorem PatternLike.all_of_unplaced (anywhere : ∀ s t, L.span s t) {ps qs : List Pattern}
    (h : ps.map Pattern.unplaced = qs.map Pattern.unplaced) : List.Forall₂ L.PatternLike ps qs := by
  refine forall₂_of_map_eq (fun p _ q h => ?_) h
  obtain ⟨text, steps, -⟩ := Pattern.mk.inj h
  exact ⟨text, steps, anywhere _ _⟩

/-! A statement with a block of its own is like one that is the same but for places, as soon as the blocks are alike. -/

section

variable (anywhere : ∀ s t, L.span s t) (visible : ∀ x, V x) {block written rest rest' : List Statement}
  (inside : ∀ {block'}, Statement.unplacedBlock written = Statement.unplacedBlock block' → L.BlockLike V block block')
  (more : L.BlockLike V rest rest')

include anywhere visible inside more

theorem BlockLike.loop_of_unplaced {ranges : List (Binding Expr)} {s s' : Span} {t : Statement}
    (wf : ∀ b ∈ ranges, b.expression.WellFormed most) (h : (Statement.loop ranges written s').unplaced = t.unplaced) :
    L.BlockLike V (.loop ranges block s :: rest) (t :: rest') := by
  cases t <;> simp only [Statement.unplaced, reduceCtorEq, Statement.loop.injEq] at h
  obtain ⟨hranges, hblock, -⟩ := h
  exact .loop (forall₂_of_map_eq (fun b hb c h => .of_unplaced anywhere visible (wf b hb) h) hranges) (inside hblock)
    (anywhere _ _) more

theorem BlockLike.vary_of_unplaced {variations : List (Variation Expr)} {s s' : Span} {t : Statement}
    (wf : ∀ v ∈ variations, ∀ b ∈ v.assignments, b.expression.WellFormed most)
    (h : (Statement.vary variations written s').unplaced = t.unplaced) :
    L.BlockLike V (.vary variations block s :: rest) (t :: rest') := by
  cases t <;> simp only [Statement.unplaced, reduceCtorEq, Statement.vary.injEq] at h
  obtain ⟨hvariations, hblock, -⟩ := h
  exact .vary (VariationLike.all_of_unplaced anywhere visible wf hvariations) (inside hblock) (anywhere _ _) more

theorem BlockLike.region_of_unplaced {name : Name} {predicate : Option Expr} {axes : List (Axis Expr)} {s s' : Span}
    {t : Statement} (wfp : ∀ e ∈ predicate, e.WellFormed most)
    (wfa : ∀ a ∈ axes, a.WellFormed most)
    (h : (Statement.region name predicate axes written s').unplaced = t.unplaced) :
    L.BlockLike V (.region name predicate axes block s :: rest) (t :: rest') := by
  cases t <;> simp only [Statement.unplaced, reduceCtorEq, Statement.region.injEq] at h
  obtain ⟨hname, hpredicate, haxes, hblock, -⟩ := h
  exact .region (.of_unplaced anywhere hname) (OptionLike.of_unplaced anywhere visible wfp hpredicate)
    (AxisLike.all_of_unplaced anywhere visible wfa haxes) (inside hblock) (anywhere _ _) more

omit visible in
theorem BlockLike.source_of_unplaced {inclusive : Bool} {patterns : List Pattern} {s s' : Span} {t : Statement}
    (h : (Statement.source inclusive patterns written s').unplaced = t.unplaced) :
    L.BlockLike V (.source inclusive patterns block s :: rest) (t :: rest') := by
  cases t <;> simp only [Statement.unplaced, reduceCtorEq, Statement.source.injEq] at h
  obtain ⟨rfl, hpatterns, hblock, -⟩ := h
  exact .source inclusive (PatternLike.all_of_unplaced anywhere hpatterns) (inside hblock) (anywhere _ _) more

end

mutual

/-- A statement and alike ones after it. -/
theorem BlockLike.cons_of_unplaced (anywhere : ∀ s t, L.span s t) (visible : ∀ x, V x) : ∀ {s t : Statement},
    s.WellFormed most → s.unplaced = t.unplaced → ∀ {rest rest' : List Statement}, L.BlockLike V rest rest' →
      L.BlockLike V (s :: rest) (t :: rest')
  | .define a e _, t, wf, h, _, _, more => by
    cases t <;> simp only [Statement.unplaced, reduceCtorEq, Statement.define.injEq] at h
    obtain ⟨ha, he, -⟩ := h
    exact .define (.of_unplaced anywhere ha) (.of_unplaced anywhere visible wf he) (anywhere _ _) more
  | .function a ps body _, t, ⟨_, wf⟩, h, _, _, more => by
    cases t <;> simp only [Statement.unplaced, reduceCtorEq, Statement.function.injEq] at h
    obtain ⟨ha, hps, hbody, -⟩ := h
    exact .function (.of_unplaced anywhere ha) (NameLike.all_of_unplaced anywhere hps)
      (.of_unplaced anywhere visible wf hbody) (anywhere _ _) more
  | .result _ _, _, wf, _, _, _, _ => wf.elim
  | .collect c _, t, wf, h, _, _, more => by
    cases t <;> simp only [Statement.unplaced, reduceCtorEq, Statement.collect.injEq] at h
    exact .collect (.of_unplaced anywhere visible wf h.1) (anywhere _ _) more
  | .loop _ block _, _, ⟨_, wf, wfs⟩, h, _, _, more =>
    .loop_of_unplaced anywhere visible (BlockLike.of_unplaced anywhere visible wfs) more wf h
  | .vary _ block _, _, ⟨_, wf, wfs⟩, h, _, _, more =>
    .vary_of_unplaced anywhere visible (BlockLike.of_unplaced anywhere visible wfs) more wf h
  | .region _ _ _ block _, _, ⟨wfp, wfa, wfs⟩, h, _, _, more =>
    .region_of_unplaced anywhere visible (BlockLike.of_unplaced anywhere visible wfs) more wfp wfa h
  | .source _ _ block _, _, ⟨_, wfs⟩, h, _, _, more =>
    .source_of_unplaced anywhere (BlockLike.of_unplaced anywhere visible wfs) more h

theorem BlockLike.of_unplaced (anywhere : ∀ s t, L.span s t) (visible : ∀ x, V x) : ∀ {block block' : List Statement},
    Statement.WellFormedBlock most block → Statement.unplacedBlock block = Statement.unplacedBlock block' →
      L.BlockLike V block block'
  | [], block', _, h => by
    cases block' with
    | nil => exact .nil
    | cons => cases h
  | s :: rest, block', ⟨wf, wfs⟩, h => by
    obtain ⟨t, rest', rfl, first, more⟩ := Statement.exists_cons_of_unplacedBlock h
    exact BlockLike.cons_of_unplaced anywhere visible wf first (BlockLike.of_unplaced anywhere visible wfs more)

end

/-! ### What is alike is the same without its places -/

theorem NameLike.unplaced_eq {a b : Name} (h : L.NameLike a b) : a.unplaced = b.unplaced := by
  rw [Name.unplaced, Name.unplaced, h.text]

theorem NameLike.all_unplaced_eq {as bs : List Name} (h : List.Forall₂ L.NameLike as bs) :
    as.map Name.unplaced = bs.map Name.unplaced := by
  induction h with
  | nil => rfl
  | cons first _ ih => rw [List.map_cons, List.map_cons, first.unplaced_eq, ih]

mutual

theorem ExprLike.unplaced_eq : ∀ {e f : Expr}, L.ExprLike V e f → e.unplaced = f.unplaced
  | .literal _ _, _, h => by
    cases h
    rfl
  | .name _ _, _, h => by
    cases h
    rfl
  | .operator _ es _, _, h => by
    cases h with
    | operator _ operands _ => rw [Expr.unplaced, Expr.unplaced, ExprsLike.unplaced_eq operands]
  | .call e es _, _, h => by
    cases h with
    | call callee arguments _ =>
      rw [Expr.unplaced, Expr.unplaced, ExprLike.unplaced_eq callee, ExprsLike.unplaced_eq arguments]
  | .lambda _ body _, _, h => by
    cases h with
    | lambda parameters inner _ =>
      rw [Expr.unplaced, Expr.unplaced, NameLike.all_unplaced_eq parameters,
        BodyLike.unplaced_eq inner]

theorem ExprsLike.unplaced_eq : ∀ {es fs : List Expr}, L.ExprsLike V es fs → Expr.unplacedAll es = Expr.unplacedAll fs
  | [], _, h => by
    cases h
    rfl
  | e :: es, _, h => by
    cases h with
    | cons first rest =>
      rw [Expr.unplacedAll, Expr.unplacedAll, ExprLike.unplaced_eq first, ExprsLike.unplaced_eq rest]

theorem BodyLike.unplaced_eq : ∀ {body body' : List Statement}, L.BodyLike V body body' →
    Expr.unplacedBody body = Expr.unplacedBody body'
  | [], _, h => by
    cases h
    rfl
  | s :: rest, _, h => by
    cases h with
    | define target value _ more =>
      rw [Expr.unplacedBody, Expr.unplacedBody, target.unplaced_eq, ExprLike.unplaced_eq value,
        BodyLike.unplaced_eq more]
    | function target parameters inner _ more =>
      rw [Expr.unplacedBody, Expr.unplacedBody, target.unplaced_eq,
        NameLike.all_unplaced_eq parameters, BodyLike.unplaced_eq inner,
        BodyLike.unplaced_eq more]
    | result value _ more =>
      rw [Expr.unplacedBody, Expr.unplacedBody, ExprLike.unplaced_eq value, BodyLike.unplaced_eq more]
    | other first _ more =>
      have kept : ∀ more : List Statement, Expr.unplacedBody (s :: more) = s :: Expr.unplacedBody more := by
        intro more
        cases s <;> first | rfl | cases first
      rw [kept, kept, BodyLike.unplaced_eq more]

end

theorem StorageLike.unplaced_eq {content content' : Storage} (h : L.StorageLike V content content') :
    content.unplaced = content'.unplaced := by
  cases h with
  | count => rfl
  | sum totals measured | profile totals measured | fraction totals measured =>
    rw [Storage.unplaced, Storage.unplaced, measured.unplaced_eq]

mutual

theorem NodeLike.unplaced_eq : ∀ {node node' : Node}, L.NodeLike V node node' → node.unplaced = node'.unplaced
  | .namespace _ cs, _, h => by
    cases h with
    | «namespace» _ keys children =>
      have pairs : L.NamespaceLike V cs _ := PairsLike.iff_keys.mpr ⟨keys, children⟩
      rw [Node.unplaced, Node.unplaced, unplacedChildren_eq pairs]
  | .binning _ _ _ vs u o v, _, h => by
    cases h with
    | binning _ _ axis values underflow overflow nanflow =>
      rw [Node.unplaced, Node.unplaced, axis.unplaced_eq, unplacedValues_eq values, NodeLike.unplaced_eq underflow,
        NodeLike.unplaced_eq overflow, NodeLike.unplaced_eq nanflow]
  | .storage _ _, _, h => by
    cases h with
    | storage _ content => rw [Node.unplaced, Node.unplaced, content.unplaced_eq]

theorem unplacedChildren_eq : ∀ {cs ds : List (String × Node)}, L.NamespaceLike V cs ds →
    Node.unplacedChildren cs = Node.unplacedChildren ds
  | [], _, h => by
    cases h
    rfl
  | (_, node) :: rest, (_, _) :: _, h => by
    cases h with
    | cons first more =>
      obtain ⟨rfl, first⟩ := first
      rw [Node.unplacedChildren, Node.unplacedChildren, NodeLike.unplaced_eq first, unplacedChildren_eq more]

theorem unplacedValues_eq : ∀ {vs ws : List Node}, List.Forall₂ (L.NodeLike V) vs ws →
    Node.unplacedValues vs = Node.unplacedValues ws
  | [], _, h => by
    cases h
    rfl
  | node :: rest, _ :: _, .cons first more => by
    rw [Node.unplacedValues, Node.unplacedValues, NodeLike.unplaced_eq first, unplacedValues_eq more]

end

end Likeness
end RecordStats
