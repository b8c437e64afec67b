import RecordStats.Grammar.Expression
import RecordStats.Proofs.Grammar.Ensures
import RecordStats.Proofs.Program.WellFormed

/-! Reading an expression gives a well-formed one. Each level of the grammar does when the levels below it and
    the expressions in brackets do, so the fact follows the grammar from the operands up to the functions. -/

namespace RecordStats

/-! ### Putting expressions together -/

namespace Expr

variable {most : Nat}

theorem wellFormed_withSpan {e : Expr} (s : Span) : (e.withSpan s).WellFormed most ↔ e.WellFormed most := by
  cases e <;> simp only [withSpan, WellFormed]

/-- An operator on as many operands as it takes; member accesses are made otherwise. -/
theorem wellFormed_apply {op : Operator} {operands : List Expr} (mark : Span) (hop : op ≠ .member)
    (hlen : operands.length = op.arity) (h : ∀ e ∈ operands, e.WellFormed most) :
    (Expr.apply op operands mark).WellFormed most := by
  rw [Expr.apply, WellFormed]
  exact ⟨hlen, fun heq => absurd heq hop, wellFormedAll_iff.mpr h⟩

theorem wellFormed_apply_two {op : Operator} {a b : Expr} (mark : Span) (hop : op ≠ .member) (hlen : op.arity = 2)
    (ha : a.WellFormed most) (hb : b.WellFormed most) : (Expr.apply op [a, b] mark).WellFormed most := by
  refine wellFormed_apply mark hop hlen.symm fun e he => ?_
  rcases List.mem_cons.mp he with rfl | he
  · exact ha
  · obtain rfl := List.mem_singleton.mp he
    exact hb

theorem wellFormed_apply_one {op : Operator} {a : Expr} (mark : Span) (hop : op ≠ .member) (hlen : op.arity = 1)
    (ha : a.WellFormed most) : (Expr.apply op [a] mark).WellFormed most := by
  refine wellFormed_apply mark hop hlen.symm fun e he => ?_
  obtain rfl := List.mem_singleton.mp he
  exact ha

theorem wellFormed_member {a : Expr} (text : String) (s mark : Span) (ha : a.WellFormed most) :
    (Expr.apply .member [a, .name text s] mark).WellFormed most := by
  rw [Expr.apply, WellFormed]
  refine ⟨rfl, fun _ => ⟨a, text, s, rfl⟩, wellFormedAll_iff.mpr fun e he => ?_⟩
  rcases List.mem_cons.mp he with rfl | he
  · exact ha
  · obtain rfl := List.mem_singleton.mp he
    rw [WellFormed]
    trivial

/-- The statement is one of a function's body before its result. -/
def Binds (most : Nat) : Statement → Prop
  | .define _ e _ => e.WellFormed most
  | .function _ parameters body _ => (parameters.map Name.text).Nodup ∧ WellFormedBody most body
  | _ => False

/-- Definitions and then a result are a body. -/
theorem wellFormedBody_append {definitions : List Statement} {e : Expr} {s : Span}
    (h : ∀ d ∈ definitions, Binds most d) (he : e.WellFormed most) :
    WellFormedBody most (definitions ++ [.result e s]) := by
  induction definitions with
  | nil =>
    rw [List.nil_append, WellFormedBody]
    exact ⟨he, rfl⟩
  | cons d rest ih =>
    obtain ⟨hd, hrest⟩ := List.forall_mem_cons.mp h
    cases d with
    | define target expression s =>
      rw [List.cons_append, WellFormedBody]
      exact ⟨hd, ih hrest⟩
    | function target parameters body s =>
      rw [List.cons_append, WellFormedBody]
      exact ⟨hd.1, hd.2, ih hrest⟩
    | result _ _ => cases hd
    | collect _ _ => cases hd
    | loop _ _ _ => cases hd
    | vary _ _ _ => cases hd
    | region _ _ _ _ _ => cases hd
    | source _ _ _ _ => cases hd

end Expr

namespace Parser

open RecordStats.Expr

/-- A parser of well-formed expressions. -/
abbrev Reads (most : Nat) (p : Parser Expr) : Prop := Ensures most p (Expr.WellFormed most)

namespace Ensures

variable {most : Nat} {inner level : Parser Expr}

/-! ### Operators between operands -/

theorem leftGrouped {operators : List (Symbol × Operator)}
    (hops : ∀ o ∈ operators, o.2 ≠ .member ∧ o.2.arity = 2) (h : Reads most level) :
    Reads most (Parser.leftGrouped operators level) := by
  refine h.bind fun first hfirst => repeating (fun left hleft => ?_) hfirst
  refine current.bind fun token _ => ?_
  split
  · exact pure fun b hb => by cases hb
  · next o op hfind =>
    obtain ⟨hop, hlen⟩ := hops _ (List.mem_of_find?_eq_some hfind)
    refine advance.bind fun mark _ => h.bind fun right hright => pure fun b hb => ?_
    cases hb
    exact wellFormed_apply_two mark hop hlen hleft hright

theorem comparisons_binary : ∀ o ∈ comparisons, o.2 ≠ .member ∧ o.2.arity = 2 := by decide

theorem chained (h : Reads most level) : Reads most (Parser.chained level) := by
  refine h.bind fun first hfirst => ?_
  refine bind (repeating (I := fun chain => chain.1.WellFormed most ∧ ∀ e ∈ chain.2, e.WellFormed most)
    (fun chain hchain => ?_) ⟨hfirst, fun e he => by cases he⟩) fun chain hchain => pure ?_
  · refine current.bind fun token _ => ?_
    split
    · exact pure fun b hb => by cases hb
    · next o op hfind =>
      obtain ⟨hop, hlen⟩ := comparisons_binary _ (List.mem_of_find?_eq_some hfind)
      refine advance.bind fun mark _ => h.bind fun right hright => ?_
      have hcomparison := wellFormed_apply_two mark hop hlen hchain.1 hright
      split
      · refine pure fun b hb => ?_
        cases hb
        exact ⟨hright, fun e he => by cases he; exact hcomparison⟩
      · next before hbefore =>
        have hbefore := hchain.2 before hbefore
        refine pure fun b hb => ?_
        cases hb
        refine ⟨hright, fun e he => ?_⟩
        cases he
        exact wellFormed_apply_two _ (by decide) rfl hbefore hcomparison
  · cases hlast : chain.2 with
    | none => exact hchain.1
    | some e => exact hchain.2 e hlast

/-! ### Functions -/

theorem distinctParameters_go (seen : List String) (parameters : List Name) :
    Ensures most (distinctParameters.go seen parameters) fun _ =>
      (parameters.map Name.text).Nodup ∧ ∀ p ∈ parameters, p.text ∉ seen := by
  induction parameters generalizing seen with
  | nil => exact pure ⟨List.nodup_nil, fun p hp => by cases hp⟩
  | cons p rest ih =>
    refine ite (fun _ => fault _ _) fun hp => (ih (p.text :: seen)).mono fun _ h => ?_
    obtain ⟨hnodup, hrest⟩ := h
    refine ⟨?_, fun q hq => ?_⟩
    · rw [List.map_cons, List.nodup_cons]
      refine ⟨fun hmem => ?_, hnodup⟩
      obtain ⟨q, hq, heq⟩ := List.mem_map.mp hmem
      exact hrest q hq (heq ▸ List.mem_cons_self)
    · rcases List.mem_cons.mp hq with rfl | hq
      · exact hp
      · exact fun hmem => hrest q hq (List.mem_cons_of_mem _ hmem)

theorem distinctParameters (parameters : List Name) :
    Ensures most (Parser.distinctParameters parameters) fun _ => (parameters.map Name.text).Nodup :=
  (distinctParameters_go [] parameters).mono fun _ h => h.1

/-- A parser of functions' bodies. -/
abbrev ReadsBody (most : Nat) (p : Parser (List Statement × Span)) : Prop :=
  Ensures most p fun r => WellFormedBody most r.1

variable {read : Parser (List Statement × Span)}

theorem definition (h : Reads most inner) (hbody : ReadsBody most read) (target : Expr) :
    Ensures most (Parser.definition inner read target) (Binds most) := by
  refine (expect _ _).bind fun mark _ => ?_
  split
  · exact h.bind fun e he => pure he
  · split
    · refine bind (mapM (R := fun _ => True) (fun argument => ?_) _) fun parameters _ => ?_
      · split
        · exact pure trivial
        · exact fault _ _
      · exact (distinctParameters _).bind fun _ hnodup => hbody.bind fun r hr => pure ⟨hnodup, hr⟩
    · exact fault _ _
  · exact fault _ _

/-- What has been read of a body, in reverse: definitions, and a result at most last. -/
def BodySoFar (most : Nat) (sofar : List Statement × Bool) : Prop :=
  ∀ s rest, sofar.1 = s :: rest →
    (∀ d ∈ rest, Binds most d) ∧ (Binds most s ∨ ∃ e span, s = .result e span ∧ e.WellFormed most)

theorem BodySoFar.binds {sofar : List Statement × Bool} (h : BodySoFar most sofar)
    (hnone : ¬sofar.1.head?.any Statement.isResult = true) : ∀ d ∈ sofar.1, Binds most d := by
  obtain ⟨reversed, separated⟩ := sofar
  cases reversed with
  | nil => exact fun d hd => by cases hd
  | cons s rest =>
    obtain ⟨hrest, hs⟩ := h s rest rfl
    rcases hs with hs | ⟨e, span, rfl, -⟩
    · exact List.forall_mem_cons.mpr ⟨hs, hrest⟩
    · exact absurd rfl hnone

theorem BodySoFar.wellFormed {sofar : List Statement × Bool} (h : BodySoFar most sofar)
    (hsome : sofar.1.head?.any Statement.isResult = true) : WellFormedBody most sofar.1.reverse := by
  obtain ⟨reversed, separated⟩ := sofar
  cases reversed with
  | nil => cases hsome
  | cons s rest =>
    obtain ⟨hrest, hs⟩ := h s rest rfl
    rcases hs with hs | ⟨e, span, rfl, he⟩
    · cases s <;> first | exact False.elim hs | cases hsome
    · rw [List.reverse_cons]
      exact wellFormedBody_append (fun d hd => hrest d (List.mem_reverse.mp hd)) he

theorem bodyStep (h : Reads most inner) (hbody : ReadsBody most read) {sofar : List Statement × Bool}
    (hsofar : BodySoFar most sofar) :
    Ensures most (Parser.bodyStep inner read sofar) fun r => ∀ b ∈ r, BodySoFar most b := by
  refine semicolons.bind fun _ _ => (sees _).bind fun _ _ => ite (fun _ => ?_) fun _ => ?_
  · exact pure fun b hb => by cases hb
  refine ite (fun _ => ?_) fun hnone => ?_
  · exact bind (P := fun _ => False) (unexpected _) fun _ hfalse => hfalse.elim
  have hbinds := hsofar.binds hnone
  refine (requireSeparator _).bind fun _ _ => h.bind fun e he => (sees _).bind fun _ _ => ?_
  refine ite (fun _ => ?_) fun _ => ?_
  · refine (definition h hbody e).bind fun s hs => pure fun b hb => ?_
    cases hb
    rintro t rest heq
    obtain ⟨rfl, rfl⟩ := List.cons.inj heq
    exact ⟨hbinds, .inl hs⟩
  · refine pure fun b hb => ?_
    cases hb
    rintro t rest heq
    obtain ⟨rfl, rfl⟩ := List.cons.inj heq
    exact ⟨hbinds, .inr ⟨e, _, rfl, he⟩⟩

theorem wellFormedBody_result {e : Expr} (s : Span) (he : e.WellFormed most) :
    WellFormedBody most [.result e s] := by
  rw [WellFormedBody]
  exact ⟨he, rfl⟩

theorem bodyWithin (h : Reads most inner) (allowed : Nat) : ReadsBody most (Parser.bodyWithin inner allowed) := by
  induction allowed with
  | zero => exact throw _
  | succ allowed ih =>
    refine (sees _).bind fun _ _ => ite (fun _ => ?_) fun _ => ?_
    · refine advance.bind fun opening _ => ?_
      refine bind (repeating (fun sofar hsofar => bodyStep h ih hsofar) fun s rest heq => by cases heq) ?_
      rintro ⟨reversed, separated⟩ hsofar
      refine advance.bind fun closing _ => ite (fun hsome => ?_) fun _ => ?_
      · exact pure (hsofar.wellFormed hsome)
      · exact bind (P := fun _ => False) (fault _ _) fun _ hfalse => hfalse.elim
    · exact h.bind fun e he => pure (wellFormedBody_result _ he)

theorem functionBody (h : Reads most inner) : ReadsBody most (Parser.functionBody inner) :=
  get.bind fun _ _ => bodyWithin h _

theorem parameters : Ensures most Parser.parameters fun _ => True := by
  refine (sees _).bind fun _ _ => ite (fun _ => ?_) fun _ => ?_
  · refine advance.bind fun _ _ => bind (repeating (I := fun _ => True) (fun sofar _ => ?_) trivial) fun _ _ =>
      advance.bind fun _ _ => pure trivial
    refine (sees _).bind fun _ _ => ite (fun _ => pure fun _ _ => trivial) fun _ => ?_
    refine identifier.bind fun _ _ => (sees _).bind fun _ _ => ite (fun _ => ?_) fun _ => ?_
    · exact pure fun _ _ => trivial
    · exact (expect _ _).bind fun _ _ => pure fun _ _ => trivial
  · exact identifier.bind fun _ _ => pure trivial

theorem function (h : Reads most inner) : Reads most (Parser.function inner) := by
  refine currentSpan.bind fun start _ => parameters.bind fun parameters _ => (expect _ _).bind fun _ _ => ?_
  refine (distinctParameters parameters).bind fun _ hnodup => (functionBody h).bind fun r hr => pure ?_
  rw [WellFormed]
  exact ⟨hnodup, hr⟩

/-! ### Operands -/

theorem atom (h : Reads most inner) : Reads most (Parser.atom inner) := by
  refine currentSpan.bind fun span _ => current.bind fun token _ => ?_
  split
  · exact advance.bind fun _ _ => pure (by rw [WellFormed]; trivial)
  · exact advance.bind fun _ _ => pure (by rw [WellFormed]; trivial)
  · exact advance.bind fun _ _ => pure (by rw [WellFormed]; trivial)
  · exact advance.bind fun _ _ => pure (by rw [WellFormed]; trivial)
  · refine advance.bind fun _ _ => h.bind fun e he => (expect _ _).bind fun _ _ => pure ?_
    exact (wellFormed_withSpan _).mpr he
  · exact unexpected _

/-- A call has no more arguments than there are lexemes. -/
theorem arguments (h : Reads most inner) :
    Ensures most (Parser.arguments inner) fun es => es.length ≤ most ∧ ∀ e ∈ es, e.WellFormed most := by
  refine bind (repeatingCounted (I := fun k (sofar : List Expr) => sofar.length = k ∧ ∀ e ∈ sofar, e.WellFormed most)
    (fun k sofar hsofar => ?_) ⟨rfl, fun e he => by cases he⟩) fun reversed hreversed => pure ?_
  · refine (sees _).bind fun _ _ => ite (fun _ => pure fun b hb => by cases hb) fun _ => ?_
    refine h.bind fun e he => (sees _).bind fun _ _ => ?_
    have hmore : ∀ b ∈ some (e :: sofar), b.length = k + 1 ∧ ∀ e ∈ b, e.WellFormed most := by
      intro b hb
      cases hb
      exact ⟨congrArg (· + 1) hsofar.1, List.forall_mem_cons.mpr ⟨he, hsofar.2⟩⟩
    refine ite (fun _ => pure hmore) fun _ => (expect _ _).bind fun _ _ => pure hmore
  · obtain ⟨k, hk, hlen, hall⟩ := hreversed
    refine ⟨?_, fun e he => hall e (List.mem_reverse.mp he)⟩
    rw [List.length_reverse]
    omega

theorem postfixStep (h : Reads most inner) {e : Expr} (he : e.WellFormed most) :
    Ensures most (Parser.postfixStep inner e) fun r => ∀ b ∈ r, b.WellFormed most := by
  refine current.bind fun token _ => ?_
  split
  · refine advance.bind fun mark _ => identifier.bind fun name _ => pure fun b hb => ?_
    cases hb
    exact wellFormed_member _ _ _ he
  · refine advance.bind fun mark _ => h.bind fun index hindex => (expect _ _).bind fun _ _ => pure fun b hb => ?_
    cases hb
    exact (wellFormed_withSpan _).mpr (wellFormed_apply_two _ (by decide) rfl he hindex)
  · refine advance.bind fun _ _ => (arguments h).bind fun es hes => (expect _ _).bind fun _ _ => pure fun b hb => ?_
    cases hb
    rw [callUpTo, WellFormed]
    exact ⟨he, hes.1, wellFormedAll_iff.mpr hes.2⟩
  · exact pure fun b hb => by cases hb

theorem operand (h : Reads most inner) : Reads most (Parser.operand inner) :=
  (atom h).bind fun _ he => repeating (fun _ he => postfixStep h he) he

/-! ### Signs and levels -/

theorem wellFormed_applySign {op : Operator} {e : Expr} (mark : Span) (hop : op ≠ .member) (hlen : op.arity = 1)
    (he : e.WellFormed most) : (applySign op e mark).WellFormed most := by
  unfold applySign
  split
  · rw [WellFormed]
    trivial
  · exact wellFormed_apply_one mark hop hlen he

theorem openPower {base : Parser Expr} (hbase : Reads most base) (h : Reads most inner) :
    Reads most (Parser.Open.power base inner) := by
  refine hbase.bind fun base hbase => (sees _).bind fun _ _ => ite (fun _ => ?_) fun _ => pure hbase
  exact advance.bind fun mark _ => h.bind fun e he => pure (wellFormed_apply_two mark (by decide) rfl hbase he)

theorem factorWithin (h : Reads most inner) (allowed : Nat) : Reads most (Parser.factorWithin inner allowed) := by
  induction allowed with
  | zero => exact throw _
  | succ allowed ih =>
    refine current.bind fun token _ => ?_
    split
    · exact advance.bind fun mark _ => ih.bind fun e he => pure (wellFormed_applySign mark (by decide) rfl he)
    · exact advance.bind fun mark _ => ih.bind fun e he => pure (wellFormed_applySign mark (by decide) rfl he)
    · exact openPower (operand h) ih

theorem factor (h : Reads most inner) : Reads most (Parser.factor inner) :=
  get.bind fun _ _ => factorWithin h _

theorem product (h : Reads most inner) : Reads most (Parser.product inner) :=
  leftGrouped (by decide) (factor h)

theorem sum (h : Reads most inner) : Reads most (Parser.sum inner) :=
  leftGrouped (by decide) (product h)

theorem comparison (h : Reads most inner) : Reads most (Parser.comparison inner) :=
  chained (sum h)

theorem negationWithin (h : Reads most inner) (allowed : Nat) : Reads most (Parser.negationWithin inner allowed) := by
  induction allowed with
  | zero => exact throw _
  | succ allowed ih =>
    refine (sees _).bind fun _ _ => ite (fun _ => ?_) fun _ => comparison h
    exact advance.bind fun mark _ => ih.bind fun e he => pure (wellFormed_apply_one mark (by decide) rfl he)

theorem negation (h : Reads most inner) : Reads most (Parser.negation inner) :=
  get.bind fun _ _ => negationWithin h _

theorem conjunction (h : Reads most inner) : Reads most (Parser.conjunction inner) :=
  leftGrouped (by decide) (negation h)

theorem disjunction (h : Reads most inner) : Reads most (Parser.disjunction inner) :=
  leftGrouped (by decide) (conjunction h)

theorem expressionWithin (allowed : Nat) : Reads most (Parser.expressionWithin allowed) := by
  induction allowed with
  | zero => exact throw _
  | succ allowed ih => exact get.bind fun _ _ => ite (fun _ => function ih) fun _ => disjunction ih

/-- What is read as an expression is well-formed. -/
theorem expression : Reads most Parser.expression :=
  get.bind fun _ _ => expressionWithin _

end Ensures

end Parser

end RecordStats
