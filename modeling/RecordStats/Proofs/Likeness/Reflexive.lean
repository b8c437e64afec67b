import RecordStats.Proofs.Evaluation.Made
import RecordStats.Proofs.Likeness.Block
import RecordStats.Proofs.Program.Pieces

/-! What is like itself. A program is when its places may stand for themselves and the names that it uses are visible;
    a value is when the texts of its functions are. -/

namespace RecordStats
namespace Likeness

variable {L : Likeness} {V : String → Prop} {P : Pieces}

/-! ### Programs -/

theorem NameLike.of_madeOf (hspan : ∀ s, P.span s → L.span s s) {n : Name} (h : n.MadeOf P) : L.NameLike n n :=
  ⟨rfl, hspan _ h.place⟩

theorem NameLike.all_of_madeOf (hspan : ∀ s, P.span s → L.span s s) {ns : List Name} (h : ∀ n ∈ ns, n.MadeOf P) :
    List.Forall₂ L.NameLike ns ns :=
  List.forall₂_same.mpr fun n hn => .of_madeOf hspan (h n hn)

mutual

theorem ExprLike.of_madeOf (hspan : ∀ s, P.span s → L.span s s) (hname : ∀ x, P.name x → V x) :
    ∀ {e : Expr}, e.MadeOf P → L.ExprLike V e e
  | .literal value _, ⟨_, hs⟩ => .literal value (hspan _ hs)
  | .name _ _, ⟨hx, hs⟩ => .name (hname _ hx) (hspan _ hs)
  | .operator op _ _, ⟨_, hes, hs⟩ => .operator op (ExprsLike.of_madeOf hspan hname hes) (hspan _ hs)
  | .call _ _ _, ⟨hf, hes, hs⟩ =>
    .call (ExprLike.of_madeOf hspan hname hf) (ExprsLike.of_madeOf hspan hname hes) (hspan _ hs)
  | .lambda _ _ _, ⟨hps, hbody, hs⟩ =>
    .lambda (NameLike.all_of_madeOf hspan hps) (BodyLike.of_madeOf hspan hname hbody) (hspan _ hs)

theorem ExprsLike.of_madeOf (hspan : ∀ s, P.span s → L.span s s) (hname : ∀ x, P.name x → V x) :
    ∀ {es : List Expr}, Expr.AllMadeOf P es → L.ExprsLike V es es
  | [], _ => .nil
  | _ :: _, ⟨hfirst, hrest⟩ => .cons (ExprLike.of_madeOf hspan hname hfirst) (ExprsLike.of_madeOf hspan hname hrest)

theorem BodyLike.of_madeOf (hspan : ∀ s, P.span s → L.span s s) (hname : ∀ x, P.name x → V x) :
    ∀ {body : List Statement}, Expr.BodyMadeOf P body → L.BodyLike V body body
  | [], _ => .nil
  | .define _ _ _ :: _, ⟨ht, he, hs, hrest⟩ =>
    .define (.of_madeOf hspan ht) (ExprLike.of_madeOf hspan hname he) (hspan _ hs) (BodyLike.of_madeOf hspan hname hrest)
  | .function _ _ _ _ :: _, ⟨ht, hps, hbody, hs, hrest⟩ =>
    .function (.of_madeOf hspan ht) (NameLike.all_of_madeOf hspan hps) (BodyLike.of_madeOf hspan hname hbody)
      (hspan _ hs) (BodyLike.of_madeOf hspan hname hrest)
  | .result _ _ :: _, ⟨he, hs, hrest⟩ =>
    .result (ExprLike.of_madeOf hspan hname he) (hspan _ hs) (BodyLike.of_madeOf hspan hname hrest)
  | .collect _ _ :: _, ⟨hs, hrest⟩ => .other rfl (hspan _ hs) (BodyLike.of_madeOf hspan hname hrest)
  | .loop _ _ _ :: _, ⟨hs, hrest⟩ => .other rfl (hspan _ hs) (BodyLike.of_madeOf hspan hname hrest)
  | .vary _ _ _ :: _, ⟨hs, hrest⟩ => .other rfl (hspan _ hs) (BodyLike.of_madeOf hspan hname hrest)
  | .region _ _ _ _ _ :: _, ⟨hs, hrest⟩ => .other rfl (hspan _ hs) (BodyLike.of_madeOf hspan hname hrest)
  | .source _ _ _ _ :: _, ⟨hs, hrest⟩ => .other rfl (hspan _ hs) (BodyLike.of_madeOf hspan hname hrest)

end

theorem OptionLike.of_madeOf (hspan : ∀ s, P.span s → L.span s s) (hname : ∀ x, P.name x → V x) {e : Option Expr}
    (h : ∀ f ∈ e, f.MadeOf P) : Option.Rel (L.ExprLike V) e e := by
  cases e with
  | none => exact .none
  | some f => exact .some (.of_madeOf hspan hname (h f rfl))

theorem BindingLike.all_of_madeOf (hspan : ∀ s, P.span s → L.span s s) (hname : ∀ x, P.name x → V x)
    {bs : List (Binding Expr)} (h : ∀ b ∈ bs, b.MadeOf P) : List.Forall₂ (L.BindingLike V) bs bs :=
  List.forall₂_same.mpr fun b hb =>
    ⟨.of_madeOf hspan (h b hb).target, .of_madeOf hspan hname (h b hb).expression, hspan _ (h b hb).place⟩

theorem AxisLike.all_of_madeOf (hspan : ∀ s, P.span s → L.span s s) (hname : ∀ x, P.name x → V x)
    {as : List (Axis Expr)} (h : ∀ a ∈ as, a.MadeOf P) : List.Forall₂ (L.AxisLike V) as as :=
  List.forall₂_same.mpr fun a ha =>
    ⟨.of_madeOf hspan hname (h a ha).binning, .of_madeOf hspan hname (h a ha).expression, hspan _ (h a ha).place⟩

theorem VariationLike.all_of_madeOf (hspan : ∀ s, P.span s → L.span s s) (hname : ∀ x, P.name x → V x)
    {vs : List (Variation Expr)} (h : ∀ v ∈ vs, v.MadeOf P) : List.Forall₂ (L.VariationLike V) vs vs :=
  List.forall₂_same.mpr fun v hv =>
    ⟨⟨rfl, hspan _ (h v hv).name⟩, BindingLike.all_of_madeOf hspan hname (h v hv).assignments, hspan _ (h v hv).place⟩

/-- A block is like itself. -/
theorem BlockLike.of_madeOf (hspan : ∀ s, P.span s → L.span s s) (hname : ∀ x, P.name x → V x) :
    ∀ {block : List Statement}, Statement.BlockMadeOf P block → L.BlockLike V block block
  | [], _ => .nil
  | .define _ _ _ :: _, ⟨⟨ht, he, hs⟩, hrest⟩ =>
    .define (.of_madeOf hspan ht) (.of_madeOf hspan hname he) (hspan _ hs) (BlockLike.of_madeOf hspan hname hrest)
  | .function _ _ _ _ :: _, ⟨⟨ht, hps, hbody, hs⟩, hrest⟩ =>
    .function (.of_madeOf hspan ht) (NameLike.all_of_madeOf hspan hps) (.of_madeOf hspan hname hbody) (hspan _ hs)
      (BlockLike.of_madeOf hspan hname hrest)
  | .result _ _ :: _, ⟨⟨he, hs⟩, hrest⟩ =>
    .result (.of_madeOf hspan hname he) (hspan _ hs) (BlockLike.of_madeOf hspan hname hrest)
  | .collect _ _ :: _, ⟨⟨hc, hs⟩, hrest⟩ => by
    refine .collect ⟨rfl, ⟨rfl, hspan _ hc.name⟩, ?_, ?_, ?_⟩ (hspan _ hs) (BlockLike.of_madeOf hspan hname hrest)
    · exact OptionLike.of_madeOf hspan hname hc.expression
    · exact AxisLike.all_of_madeOf hspan hname hc.axes
    · exact OptionLike.of_madeOf hspan hname hc.weight
  | .loop _ _ _ :: _, ⟨⟨hranges, hblock, hs⟩, hrest⟩ =>
    .loop (BindingLike.all_of_madeOf hspan hname hranges) (BlockLike.of_madeOf hspan hname hblock) (hspan _ hs)
      (BlockLike.of_madeOf hspan hname hrest)
  | .vary _ _ _ :: _, ⟨⟨hvariations, hblock, hs⟩, hrest⟩ =>
    .vary (VariationLike.all_of_madeOf hspan hname hvariations) (BlockLike.of_madeOf hspan hname hblock) (hspan _ hs)
      (BlockLike.of_madeOf hspan hname hrest)
  | .region _ _ _ _ _ :: _, ⟨⟨hn, hpredicate, haxes, hblock, hs⟩, hrest⟩ =>
    .region ⟨rfl, hspan _ hn⟩ (OptionLike.of_madeOf hspan hname hpredicate) (AxisLike.all_of_madeOf hspan hname haxes)
      (BlockLike.of_madeOf hspan hname hblock) (hspan _ hs) (BlockLike.of_madeOf hspan hname hrest)
  | .source inclusive _ _ _ :: _, ⟨⟨hpatterns, hblock, hs⟩, hrest⟩ =>
    .source inclusive (List.forall₂_same.mpr fun p hp => ⟨rfl, rfl, hspan _ (hpatterns p hp)⟩)
      (BlockLike.of_madeOf hspan hname hblock) (hspan _ hs) (BlockLike.of_madeOf hspan hname hrest)

/-! ### Values -/

/-- A value is like itself when the texts of its functions are. -/
theorem ValueLike.of_made {Q : Lambda → Prop} {hosts : Prop}
    (text : ∀ l, Q l → List.Forall₂ L.NameLike l.parameters l.parameters ∧ L.BodyLike (fun _ => True) l.body l.body)
    (allowed : hosts → L.hosts) {v : Value} (h : v.Made Q hosts) : L.ValueLike v v := by
  induction h with
  | null => exact .null
  | boolean b => exact .boolean b
  | integer n => exact .integer n
  | float x => exact .float x
  | string s => exact .string s
  | list _ ih => exact .list (List.forall₂_same.mpr ih)
  | tuple _ ih => exact .tuple (List.forall₂_same.mpr ih)
  | record _ ih => exact .ofFields (List.forall₂_same.mpr fun f hf => ⟨rfl, ih f hf⟩)
  | @closure origin name lambda env hlambda seen ih =>
    obtain ⟨parameters, body⟩ := text lambda hlambda
    refine .closure origin name (fun _ => True) (fun _ _ => trivial) parameters body (fun x _ => ?_) fun _ => rfl
    cases hx : env.get? x with
    | none => exact .none
    | some v => exact .some (ih x v hx)
  | builtin b => exact .builtin b
  | host number hallowed => exact .host number (allowed hallowed)
  | method _ ih => exact .method _ _ ih

/-! ### Places of what is alike -/

section Places

variable {S : Span → Prop}

theorem NameLike.madeOf (hspan : ∀ s t, L.span s t → S s) {m n : Name} (h : L.NameLike m n) :
    m.MadeOf (.placed S) :=
  ⟨trivial, hspan _ _ h.place⟩

theorem NameLike.all_madeOf (hspan : ∀ s t, L.span s t → S s) {ms ns : List Name} (h : List.Forall₂ L.NameLike ms ns) :
    ∀ m ∈ ms, m.MadeOf (.placed S) := by
  induction h with
  | nil => exact nofun
  | cons first _ ih => exact List.forall_mem_cons.mpr ⟨first.madeOf hspan, ih⟩

mutual

theorem ExprLike.madeOf (hspan : ∀ s t, L.span s t → S s) : ∀ {e f : Expr}, L.ExprLike V e f → e.MadeOf (.placed S)
  | _, _, .literal _ place => ⟨trivial, hspan _ _ place⟩
  | _, _, .name _ place => ⟨trivial, hspan _ _ place⟩
  | _, _, .operator _ operands place => ⟨trivial, ExprsLike.madeOf hspan operands, hspan _ _ place⟩
  | _, _, .call callee arguments place =>
    ⟨ExprLike.madeOf hspan callee, ExprsLike.madeOf hspan arguments, hspan _ _ place⟩
  | _, _, .lambda parameters body place =>
    ⟨NameLike.all_madeOf hspan parameters, BodyLike.madeOf hspan body, hspan _ _ place⟩

theorem ExprsLike.madeOf (hspan : ∀ s t, L.span s t → S s) : ∀ {es fs : List Expr}, L.ExprsLike V es fs →
    Expr.AllMadeOf (.placed S) es
  | _, _, .nil => trivial
  | _, _, .cons first rest => ⟨ExprLike.madeOf hspan first, ExprsLike.madeOf hspan rest⟩

/-- The places of a function's body are those that may stand for others. -/
theorem BodyLike.madeOf (hspan : ∀ s t, L.span s t → S s) : ∀ {body body' : List Statement}, L.BodyLike V body body' →
    Expr.BodyMadeOf (.placed S) body
  | _, _, .nil => trivial
  | _, _, .define target value place rest =>
    ⟨target.madeOf hspan, ExprLike.madeOf hspan value, hspan _ _ place, BodyLike.madeOf hspan rest⟩
  | _, _, .function target parameters inner place rest =>
    ⟨target.madeOf hspan, NameLike.all_madeOf hspan parameters, BodyLike.madeOf hspan inner, hspan _ _ place,
      BodyLike.madeOf hspan rest⟩
  | _, _, .result value place rest => ⟨ExprLike.madeOf hspan value, hspan _ _ place, BodyLike.madeOf hspan rest⟩
  | .collect _ _ :: _, _, .other _ place rest => ⟨hspan _ _ place, BodyLike.madeOf hspan rest⟩
  | .loop _ _ _ :: _, _, .other _ place rest => ⟨hspan _ _ place, BodyLike.madeOf hspan rest⟩
  | .vary _ _ _ :: _, _, .other _ place rest => ⟨hspan _ _ place, BodyLike.madeOf hspan rest⟩
  | .region _ _ _ _ _ :: _, _, .other _ place rest => ⟨hspan _ _ place, BodyLike.madeOf hspan rest⟩
  | .source _ _ _ _ :: _, _, .other _ place rest => ⟨hspan _ _ place, BodyLike.madeOf hspan rest⟩

end

end Places

end Likeness
end RecordStats
