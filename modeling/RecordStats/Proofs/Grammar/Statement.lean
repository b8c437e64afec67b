import RecordStats.Grammar.Statement
import RecordStats.Proofs.Grammar.Expression

/-! Reading a text gives a well-formed program, and no call in it has more arguments than the text has
    characters and the mark of its end. -/

namespace RecordStats

namespace Parser.Ensures

open Statement

variable {most : Nat} {inner : Parser Statement}

/-! ### Axes and collectors -/

theorem axis : Ensures most Parser.axis (Axis.WellFormed most) :=
  (operand expression).bind fun _ hbinning => (expect _ _).bind fun _ _ => expression.bind fun _ he =>
    pure ⟨hbinning, he⟩

theorem axes : Ensures most Parser.axes fun as => ∀ a ∈ as, a.WellFormed most := by
  refine (sees _).bind fun _ _ => ite (fun _ => ?_) fun _ => pure fun a ha => by cases ha
  refine advance.bind fun _ _ => axis.bind fun first hfirst => ?_
  refine bind (repeating (I := fun as => ∀ a ∈ as, a.WellFormed most) (fun sofar hsofar => ?_) ?_) fun as has => ?_
  · refine get.bind fun _ _ => ite (fun _ => ?_) fun _ => pure fun b hb => by cases hb
    refine axis.bind fun a ha => pure fun b hb => ?_
    cases hb
    exact List.forall_mem_cons.mpr ⟨ha, hsofar⟩
  · exact List.forall_mem_cons.mpr ⟨hfirst, fun a ha => by cases ha⟩
  · exact pure fun a ha => has a (List.mem_reverse.mp ha)

theorem wellFormed_of_binds : ∀ {s : Statement}, Expr.Binds most s → s.WellFormed most
  | .define _ _ _, h => h
  | .function _ _ _ _, h => h

theorem define : Ensures most Parser.define (WellFormed most) := by
  refine (operand expression).bind fun target _ => (sees _).bind fun _ _ => ite (fun _ => ?_) fun _ => ?_
  · exact (definition expression (functionBody expression) target).mono fun _ h => wellFormed_of_binds h
  · exact bind (P := fun _ => False) (unexpected _) fun _ hfalse => hfalse.elim

theorem collect (statistic : Statistic) : Ensures most (Parser.collect statistic) (WellFormed most) := by
  refine advance.bind fun start _ => label.bind fun name _ => ?_
  extract_lets finish
  have hfinish : ∀ measured, (measured = none ↔ statistic = .count) → (∀ e ∈ measured, e.WellFormed most) →
      Ensures most (finish measured) (WellFormed most) := by
    intro measured hnone hmeasured
    refine axes.bind fun as has => (sees _).bind fun _ _ => ?_
    refine ite (fun _ => ?_) fun _ => pure ⟨hnone, hmeasured, has, fun e he => by cases he⟩
    refine advance.bind fun _ _ => expression.bind fun w hw => pure ⟨hnone, hmeasured, has, fun e he => ?_⟩
    cases he
    exact hw
  split
  · exact hfinish none (by simp) fun e he => by cases he
  · next hcount =>
    refine expression.bind fun e he => hfinish (some e) ?_ fun e' he' => by cases he'; exact he
    constructor
    · intro h
      cases h
    · intro h
      exact absurd h hcount

/-! ### Blocks -/

theorem blockStep (h : Ensures most inner (WellFormed most)) (closed : Bool) {sofar : List Statement × Bool}
    (hsofar : ∀ s ∈ sofar.1, s.WellFormed most) :
    Ensures most (Parser.blockStep inner closed sofar) fun r => ∀ b ∈ r, ∀ s ∈ b.1, s.WellFormed most := by
  refine semicolons.bind fun _ _ => current.bind fun token _ => ?_
  split
  · exact pure fun b hb => by cases hb
  · refine ite (fun _ => pure fun b hb => by cases hb) fun _ => (requireSeparator _).bind fun _ _ => ?_
    refine h.bind fun s hs => pure fun b hb => ?_
    cases hb
    exact List.forall_mem_cons.mpr ⟨hs, hsofar⟩

theorem block (h : Ensures most inner (WellFormed most)) (closed : Bool) :
    Ensures most (Parser.block inner closed) (WellFormedBlock most) := by
  refine bind (repeating (I := fun sofar => ∀ s ∈ sofar.1, s.WellFormed most)
    (fun sofar hsofar => blockStep h closed hsofar) fun s hs => by cases hs) ?_
  rintro ⟨reversed, separated⟩ hreversed
  exact pure (wellFormedBlock_iff.mpr fun s hs => hreversed s (List.mem_reverse.mp hs))

theorem braced (h : Ensures most inner (WellFormed most)) :
    Ensures most (Parser.braced inner) fun r => WellFormedBlock most r.1 :=
  (expect _ _).bind fun _ _ => (block h true).bind fun _ hblock => (expect _ _).bind fun _ _ => pure hblock

theorem separatedByCommas {α : Type} {one : Parser α} {P : α → Prop} (h : Ensures most one P) :
    Ensures most (Parser.separatedByCommas one) fun as => as ≠ [] ∧ ∀ a ∈ as, P a := by
  refine h.bind fun first hfirst => bind (repeating (I := fun as => as ≠ [] ∧ ∀ a ∈ as, P a)
    (fun sofar hsofar => ?_) ⟨List.cons_ne_nil _ _, List.forall_mem_cons.mpr ⟨hfirst, fun a ha => by cases ha⟩⟩)
    fun as has => pure ?_
  · refine (sees _).bind fun _ _ => ite (fun _ => ?_) fun _ => pure fun b hb => by cases hb
    refine advance.bind fun _ _ => h.bind fun a ha => pure fun b hb => ?_
    cases hb
    exact ⟨List.cons_ne_nil _ _, List.forall_mem_cons.mpr ⟨ha, hsofar.2⟩⟩
  · obtain ⟨hne, hall⟩ := has
    exact ⟨fun hnil => hne (List.reverse_eq_nil_iff.mp hnil), fun a ha => hall a (List.mem_reverse.mp ha)⟩

/-! ### Statements with a block -/

theorem pattern : Ensures most Parser.pattern fun _ => True := by
  refine label.bind fun name _ => ?_
  split
  · exact pure trivial
  · exact fault _ _

theorem source (h : Ensures most inner (WellFormed most)) (inclusive : Bool) (start : Span) :
    Ensures most (Parser.source inner inclusive start) (WellFormed most) :=
  (separatedByCommas pattern).bind fun _ hpatterns => (braced h).bind fun _ hblock => pure ⟨hpatterns.1, hblock⟩

theorem region (h : Ensures most inner (WellFormed most)) : Ensures most (Parser.region inner) (WellFormed most) := by
  refine advance.bind fun start _ => label.bind fun name _ => (sees _).bind fun _ _ => (sees _).bind fun _ _ => ?_
  extract_lets finish
  have hfinish : ∀ predicate, (∀ e ∈ predicate, e.WellFormed most) →
      Ensures most (finish predicate) (WellFormed most) := fun predicate hpredicate =>
    axes.bind fun _ has => (braced h).bind fun _ hblock => pure ⟨hpredicate, has, hblock⟩
  refine ite (fun _ => hfinish none fun e he => by cases he) fun _ => ?_
  refine expression.bind fun e he => hfinish (some e) fun e' he' => ?_
  cases he'
  exact he

theorem assignmentStep {sofar : List (Binding Expr) × Bool}
    (hsofar : ∀ b ∈ sofar.1, b.expression.WellFormed most) :
    Ensures most (Parser.assignmentStep sofar) fun r => ∀ c ∈ r, ∀ b ∈ c.1, b.expression.WellFormed most := by
  refine current.bind fun token _ => ?_
  split
  · refine advance.bind fun _ _ => pure fun b hb => ?_
    cases hb
    exact hsofar
  · refine (requireSeparator _).bind fun _ _ => identifier.bind fun target _ => (expect _ _).bind fun _ _ => ?_
    refine expression.bind fun e he => pure fun b hb => ?_
    cases hb
    exact List.forall_mem_cons.mpr ⟨he, hsofar⟩
  · exact pure fun b hb => by cases hb

theorem variation :
    Ensures most Parser.variation fun v => ∀ b ∈ v.assignments, b.expression.WellFormed most := by
  refine label.bind fun name _ => (sees _).bind fun _ _ => ?_
  extract_lets finish
  have hfinish : ∀ labelled, Ensures most (finish labelled) fun v =>
      ∀ b ∈ v.assignments, b.expression.WellFormed most := by
    intro labelled
    refine bind (repeating (I := fun sofar => ∀ b ∈ sofar.1, b.expression.WellFormed most)
      (fun _ => assignmentStep) fun b hb => by cases hb) fun r hr => pure fun b hb => ?_
    exact hr b (List.mem_reverse.mp hb)
  exact ite (fun _ => advance.bind fun _ _ => hfinish _) fun _ => hfinish _

theorem vary (h : Ensures most inner (WellFormed most)) : Ensures most (Parser.vary inner) (WellFormed most) := by
  refine advance.bind fun start _ => bind (repeating
    (I := fun vs : List (Variation Expr) => ∀ v ∈ vs, ∀ b ∈ v.assignments, b.expression.WellFormed most)
    (fun sofar hsofar => ?_) fun v hv => by cases hv) fun vs hvs => ?_
  · refine current.bind fun token _ => ?_
    split
    · refine variation.bind fun v hv => pure fun b hb => ?_
      cases hb
      exact List.forall_mem_cons.mpr ⟨hv, hsofar⟩
    · exact pure fun b hb => by cases hb
  · refine ite (fun _ => ?_) fun hne => (braced h).bind fun _ hblock => pure ⟨fun hnil => ?_, fun v hv => ?_, hblock⟩
    · exact bind (P := fun _ => False) (unexpected _) fun _ hfalse => hfalse.elim
    · exact hne (List.isEmpty_iff.mpr (List.reverse_eq_nil_iff.mp hnil))
    · exact hvs v (List.mem_reverse.mp hv)

theorem loopVariable : Ensures most Parser.loopVariable fun b => b.expression.WellFormed most :=
  identifier.bind fun _ _ => (expect _ _).bind fun _ _ => expression.bind fun _ he => pure he

theorem loop (h : Ensures most inner (WellFormed most)) : Ensures most (Parser.loop inner) (WellFormed most) :=
  advance.bind fun _ _ => (separatedByCommas loopVariable).bind fun _ hranges => (braced h).bind fun _ hblock =>
    pure ⟨hranges.1, hranges.2, hblock⟩

theorem statementWithin (allowed : Nat) : Ensures most (Parser.statementWithin allowed) (WellFormed most) := by
  induction allowed with
  | zero => exact throw _
  | succ allowed ih =>
    refine current.bind fun token _ => ?_
    split
    · exact collect _
    · exact collect _
    · exact collect _
    · exact collect _
    · exact advance.bind fun start _ => source ih _ start
    · refine get.bind fun _ _ => ite (fun _ => ?_) fun _ => define
      exact advance.bind fun start _ => advance.bind fun _ _ => source ih _ start
    · exact region ih
    · exact vary ih
    · exact loop ih
    · exact define

theorem statement : Ensures most Parser.statement (WellFormed most) :=
  get.bind fun _ _ => statementWithin _

/-- What is read as a program is well-formed. -/
theorem program : Ensures most Parser.program (Program.WellFormed most) :=
  currentSpan.bind fun _ _ => (block statement false).bind fun _ hblock => expectFinish.bind fun _ _ => pure hblock

/-- What is read as an expression to the end is well-formed. -/
theorem wholeExpression : Ensures most Parser.wholeExpression (Expr.WellFormed most) :=
  expression.bind fun _ he => expectFinish.bind fun _ _ => pure he

end Parser.Ensures

/-! ### Texts -/

namespace Lexeme

/-- A text has at most one lexeme for each of its characters, besides the mark of its end. -/
theorem length_scan (p : Place) (text : List Char) : (scan p text).1.length ≤ text.length + 1 := by
  induction hn : text.length using Nat.strongRecOn generalizing p text with
  | ind n ih =>
    rw [scan]
    split
    · simp
    · next c rest hrest =>
      have shorter := congrArg List.length hrest
      rw [List.length_drop, List.length_cons] at shorter
      split
      · simp
      · next token width _ =>
        have hmore := ih (rest.drop (width - 1)).length (by rw [List.length_drop]; omega)
          ((p.after (text.take (gap false text))).after (c :: rest.take (width - 1))) _ rfl
        rw [List.length_drop] at hmore
        rw [List.length_cons]
        omega

theorem length_ofText {text : String} {lexemes : List Lexeme} (h : ofText text = .ok lexemes) :
    lexemes.length ≤ text.length + 1 := by
  unfold ofText at h
  have few := length_scan .start text.toList
  split at h
  · next scanned hscan =>
    cases h
    rw [scanText] at hscan
    rw [hscan] at few
    exact few
  · cases h

end Lexeme

/-- What is ensured of a parser's results holds of what it reads from a text. -/
theorem Parser.Ensures.onText {α : Type} {p : Parser α} {P : α → Prop} {text : String} {a : α}
    (ensures : Ensures (text.length + 1) p P) (h : p.onText text = .ok a) : P a := by
  unfold Parser.onText at h
  split at h
  · cases h
  · next lexemes hlexemes =>
    cases hrun : p.run lexemes with
    | error e =>
      rw [hrun] at h
      cases h
    | ok r =>
      rw [hrun] at h
      cases h
      exact (ensures (Lexeme.length_ofText hlexemes) hrun).2

/-- A program that a text holds is well-formed. -/
theorem Program.wellFormed_of_ofText {text : String} {p : Program} (h : Program.ofText text = .ok p) :
    p.WellFormed (text.length + 1) :=
  Parser.Ensures.program.onText h

/-- An expression that a text holds is well-formed. -/
theorem Expr.wellFormed_of_ofText {text : String} {e : Expr} (h : Expr.ofText text = .ok e) :
    e.WellFormed (text.length + 1) :=
  Parser.Ensures.wholeExpression.onText h

end RecordStats
