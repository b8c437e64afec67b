import Mathlib.Data.List.Find
import RecordStats.Proofs.Grammar.Alongside
import RecordStats.Proofs.Grammar.ReadFunction
import RecordStats.Proofs.Grammar.SpannedExpression

/-! Expressions where others stand behind the lexemes. An expression that ends before the tail is read the same, unless
    the tail begins with a parenthesis or a sign and the expression ends like an operand, or the tail begins with a
    comparison; everything in brackets ends before the tail. Sums are read the same before a comparison. -/

namespace RecordStats

/-! ### Bodies that differ in their places -/

namespace Expr

theorem unplacedBody_singleton (d : Statement) : ∃ c, unplacedBody [d] = [c] ∧ c.isResult = d.isResult := by
  cases d <;> exact ⟨_, rfl, rfl⟩

theorem unplacedBody_reverse (body : List Statement) : unplacedBody body.reverse = (unplacedBody body).reverse := by
  induction body with
  | nil => rfl
  | cons d body ih =>
    obtain ⟨c, hc, -⟩ := unplacedBody_singleton d
    rw [List.reverse_cons, unplacedBody_append, ih, unplacedBody_cons d body, hc, List.reverse_append]
    rfl

theorem head_isResult (body : List Statement) :
    body.head?.any Statement.isResult = (unplacedBody body).head?.any Statement.isResult := by
  cases body with
  | nil => rfl
  | cons d body =>
    obtain ⟨c, hc, hresult⟩ := unplacedBody_singleton d
    rw [unplacedBody_cons, hc]
    exact hresult.symm

end Expr

namespace Parser

variable {tail : Tail} {free last : Prop} {s s' t t' : List Lexeme} {inner inner' level level' : Parser Expr}

/-- The parser gives nothing where nothing is left. -/
def StopsAtEnd {α : Type} (p : Parser α) : Prop :=
  ∀ s, InOrder s → front s = .finish → Yields (fun _ => True) p s fun _ _ => False

theorem StopsAtEnd.of_spans {p : Parser Expr} (h : SpansOperand p) : StopsAtEnd p := fun s hs hfront =>
  (h s hs).mono fun _ _ ⟨ht, _, ends⟩ => ends.front_ne hs ht.ordered hfront

/-- Parsers of expressions side by side. -/
abbrev AlongsideExpr (tail : Tail) (free last : Prop) (p q : Parser Expr) : Prop :=
  ∀ s s', Joined tail free s s' → Alongside tail free last p q s s' fun e f => e.unplaced = f.unplaced

theorem AlongsideExpr.inside {p q : Parser Expr} (h : AlongsideExpr tail free last p q) :
    AlongsideExpr tail free False p q := fun s s' hs => (h s s' hs).weaken False.elim

/-- The parsers of what stands in brackets and functions. -/
structure Inner (tail : Tail) (free last : Prop) (inner inner' : Parser Expr) : Prop where
  spans : SpansExpr inner
  stops : StopsAtEnd inner
  along : AlongsideExpr tail free last inner inner'

namespace Alongside

/-! ### Operators between operands -/

/-- Operators that no tail begins with but for a sum are found in both or in none. -/
theorem find_after {operators : List (Symbol × Operator)}
    (hops : ∀ o ∈ operators, o.1.follows = false ∨ (Token.symbol o.1).goesOn = true) (hs : Joined tail free s s')
    (ht : Joined tail free t t') (ends : EndsOperand s t) (hfree : front t = .finish → free) :
    operators.find? (fun o => (front t').isSymbol o.1) = operators.find? fun o => (front t).isSymbol o.1 :=
  List.find?_congr fun o ho => hs.sees_after ht ends hfree (hops o ho)

/-- So are comparisons, where something is left or the tail does not begin with one. -/
theorem find_comparison (hs : Joined tail free s s') (hlast : front s = .finish → tail.Begins) :
    comparisons.find? (fun o => (front s').isSymbol o.1) = comparisons.find? fun o => (front s).isSymbol o.1 := by
  have hops : ∀ o ∈ comparisons, o.1.begins = false := by decide
  exact List.find?_congr fun o ho => hs.sees_unless hlast (hops o ho)

/-- Nothing is left for an operator where nothing is left. -/
theorem find_finish {operators : List (Symbol × Operator)} (hfront : front s = .finish) :
    operators.find? (fun o => (front s).isSymbol o.1) = none := by
  rw [hfront, List.find?_eq_none]
  exact fun _ _ => Bool.false_ne_true

/-- One more operator with its operand. Its result is the same where the operands are. -/
theorem groupStep (hlast : last → free) {operators : List (Symbol × Operator)}
    (hops : ∀ o ∈ operators, o.1.follows = false ∨ (Token.symbol o.1).goesOn = true)
    (h : AlongsideExpr tail free last level level') (ends : EndsOperand s t) (hs : Joined tail free s s')
    (ht : Joined tail free t t') {a b : Expr} (hab : a.unplaced = b.unplaced) :
    Alongside tail free last (Parser.groupStep operators level a) (Parser.groupStep operators level' b) t t'
      (Option.Rel fun e f => e.unplaced = f.unplaced) := by
  refine .unless_finish ht (fun hends => .current ?_) fun hfront => .current ?_
  · rw [find_after hops hs ht ends fun hfront => hlast (hends hfront)]
    split
    · exact .pure ht .none
    · next x op hfind =>
      have hfront : front t ≠ .finish := by rw [TakesPhrase.find_front hfind]; nofun
      refine .advance hfront ((h _ _ (ht.behind hfront)).bind (fun _ => rfl) fun r r' v v' _ hr hv => ?_)
      exact .pure hv (.some (Expr.unplaced_apply (s := default) (by simp [hab, hr])))
  · rw [find_finish hfront]
    exact .pure rfl

/-- It ends like its operand. -/
theorem groupStep_ends {operators : List (Symbol × Operator)}
    (plain : ∀ o ∈ operators, (Token.symbol o.1).isPlain = true) (spans : SpansOperand level) (ht : Phrase s t)
    (a : Expr) :
    Yields (fun _ => True) (Parser.groupStep operators level a) t fun r u =>
      ∀ c ∈ r, Phrase s u ∧ EndsOperand s u := by
  refine .current ?_
  split
  · exact .pure nofun
  · next x op hfind =>
    have plain := plain _ (List.mem_of_find?_eq_some hfind)
    refine .advance ((TakesPhrase.right spans ht (TakesPhrase.find_front hfind) plain).bind ?_)
    rintro r w ⟨hw, -, -, -, ends⟩
    exact .pure fun _ hc => by cases hc; exact ⟨hw, ends⟩

theorem leftGrouped (hlast : last → free) {operators : List (Symbol × Operator)}
    (hops : ∀ o ∈ operators, o.1.follows = false ∨ (Token.symbol o.1).goesOn = true)
    (plain : ∀ o ∈ operators, (Token.symbol o.1).isPlain = true) (spans : SpansOperand level)
    (h : AlongsideExpr tail free last level level') :
    AlongsideExpr tail free last (Parser.leftGrouped operators level) (Parser.leftGrouped operators level') := by
  intro s s' hs
  rw [leftGrouped_eq, leftGrouped_eq]
  refine (h s s' hs).bind (fun _ => rfl) fun e e' t t' hrun he ht => ?_
  obtain ⟨hphrase, -, ends⟩ := (spans s hs.ordered).of_eq hrun
  exact repeating (I := fun e f : Expr => e.unplaced = f.unplaced) (L := fun _ t => Phrase s t ∧ EndsOperand s t)
    (fun _ => rfl) (fun a b u u' hu hab hjoined => groupStep hlast hops h hu.2 hs hjoined hab)
    (fun a u c v hu _ hstep => (groupStep_ends plain spans hu.1 a).of_eq hstep c rfl) ⟨hphrase, ends⟩ he ht

/-- The last operand and the comparisons so far, but for their spans. -/
def SameChain (a b : Expr × Option Expr) : Prop :=
  a.1.unplaced = b.1.unplaced ∧ a.2.map Expr.unplaced = b.2.map Expr.unplaced

/-- One more comparison. -/
theorem chainStep (hlast : last → tail.Begins) (h : AlongsideExpr tail free last level level')
    (ht : Joined tail free t t') {a b : Expr × Option Expr} (hab : SameChain a b) :
    Alongside tail free last (Parser.chainStep level a) (Parser.chainStep level' b) t t' (Option.Rel SameChain) := by
  refine .unless_finish ht (fun hends => .current ?_) fun hfront => .current ?_
  · rw [find_comparison ht fun hfront => hlast (hends hfront)]
    split
    · exact .pure ht .none
    · next x op hfind =>
      have hfront : front t ≠ .finish := by rw [TakesPhrase.find_front hfind]; nofun
      refine .advance hfront ((h _ _ (ht.behind hfront)).bind (fun _ => rfl) fun r r' v v' _ hr hv => ?_)
      obtain ⟨a, before⟩ := a
      obtain ⟨b, before'⟩ := b
      have comparison (m m' : Span) : (Expr.apply op [a, r] m).unplaced = (Expr.apply op [b, r'] m').unplaced :=
        Expr.unplaced_apply (s := default) (by simp [hab.1, hr])
      cases before with
      | none =>
        obtain rfl := Option.map_eq_none_iff.mp hab.2.symm
        exact .pure hv (.some ⟨hr, congrArg some (comparison _ _)⟩)
      | some e =>
        obtain ⟨e', rfl, hbefore⟩ := Option.map_eq_some_iff.mp hab.2.symm
        refine .pure hv (.some ⟨hr, congrArg some ?_⟩)
        exact Expr.unplaced_apply (s := default) (by simp [hbefore, comparison (frontSpan t) (frontSpan t')])
  · rw [find_finish hfront]
    exact .pure rfl

/-- The comparisons of a chain, or its only operand. -/
theorem SameChain.getD {a b : Expr × Option Expr} (h : SameChain a b) :
    (a.2.getD a.1).unplaced = (b.2.getD b.1).unplaced := by
  rw [← Option.getD_map Expr.unplaced, ← Option.getD_map Expr.unplaced, h.1, h.2]

theorem chained (hlast : last → tail.Begins) (h : AlongsideExpr tail free last level level') :
    AlongsideExpr tail free last (Parser.chained level) (Parser.chained level') := by
  intro s s' hs
  refine (h s s' hs).bind (fun _ => rfl) fun e e' t t' _ he ht => ?_
  refine bind (R := SameChain) ?_ (fun _ => ⟨rfl, rfl⟩) fun a b u u' _ hab hu => .pure hu hab.getD
  exact repeatingSteps (fun _ => ⟨rfl, rfl⟩) (fun a b u u' hab hu => chainStep hlast h hu hab) ⟨he, rfl⟩ ht

/-! ### Functions -/

theorem distinctParameters_go (hs : Joined tail free s s') (seen : List String) {ps qs : List Name}
    (h : ps.map Name.unplaced = qs.map Name.unplaced) :
    Alongside tail free last (distinctParameters.go seen ps) (distinctParameters.go seen qs) s s' fun _ _ => True := by
  induction ps generalizing seen qs with
  | nil =>
    obtain rfl := List.map_eq_nil_iff.mp h.symm
    exact .pure hs trivial
  | cons p ps ih =>
    obtain ⟨q, qs, rfl, hq, hqs⟩ := List.map_eq_cons_iff.mp h.symm
    have text : q.unplaced.text = p.unplaced.text := congrArg Name.text hq
    have text : q.text = p.text := text
    rw [distinctParameters.go, distinctParameters.go, text]
    exact .ite (fun _ => .stops .anyFault) fun _ => ih _ hqs.symm

theorem distinctParameters (hs : Joined tail free s s') {ps qs : List Name}
    (h : ps.map Name.unplaced = qs.map Name.unplaced) :
    Alongside tail free last (Parser.distinctParameters ps) (Parser.distinctParameters qs) s s' fun _ _ => True :=
  distinctParameters_go hs [] h

theorem mapM_name (hs : Joined tail free s s') {es fs : List Expr} (h : es.map Expr.unplaced = fs.map Expr.unplaced) :
    Alongside tail free last
      (es.mapM fun argument : Expr => (match argument.name? with
        | some text => Pure.pure (Name.mk text argument.span)
        | none => Parser.fault .invalidTarget argument.span : Parser Name))
      (fs.mapM fun argument : Expr => (match argument.name? with
        | some text => Pure.pure (Name.mk text argument.span)
        | none => Parser.fault .invalidTarget argument.span : Parser Name)) s s'
      fun ps qs => ps.map Name.unplaced = qs.map Name.unplaced := by
  induction es generalizing s s' fs with
  | nil =>
    obtain rfl := List.map_eq_nil_iff.mp h.symm
    rw [List.mapM_nil]
    exact .pure hs rfl
  | cons e es ih =>
    obtain ⟨f, fs, rfl, hf, hfs⟩ := List.map_eq_cons_iff.mp h.symm
    rw [List.mapM_cons, List.mapM_cons]
    refine bind (R := fun p q : Name => p.unplaced = q.unplaced) ?_ (fun _ => rfl) fun p q t t' _ hpq ht => ?_
    · rw [Expr.name?_of_unplaced hf]
      split
      · exact .pure hs rfl
      · exact .stops .anyFault
    · refine (ih ht hfs.symm).bind (fun _ => rfl) fun ps qs u u' _ hps hu => .pure hu ?_
      rw [List.map_cons, List.map_cons, hpq, hps]

/-- Statements that come to the same, in a block and in a body. -/
def StatementLike (c d : Statement) : Prop :=
  c.unplaced = d.unplaced ∧ Expr.unplacedBody [c] = Expr.unplacedBody [d]

/-- Bodies that come to the same. -/
def BodyLike (a b : List Statement × Span) : Prop := Expr.unplacedBody a.1 = Expr.unplacedBody b.1

theorem definition {read read' : Parser (List Statement × Span)} (h : AlongsideExpr tail free last inner inner')
    (hbody : ∀ s s', Joined tail free s s' → Alongside tail free last read read' s s' BodyLike)
    (hs : Joined tail free s s') {target target' : Expr} (htarget : target.unplaced = target'.unplaced) :
    Alongside tail free last (Parser.definition inner read target) (Parser.definition inner' read' target') s s'
      StatementLike := by
  refine (expect hs _ _).bind (fun _ => trivial) fun _ _ t t' _ _ ht => ?_
  cases target with
  | name text span =>
    cases target' with
    | name text' span' =>
      have text : text = text' := by simpa [Expr.unplaced] using htarget
      subst text
      refine (h t t' ht).bind (fun _ => rfl) fun e e' u u' _ he hu => .pure hu ⟨?_, ?_⟩
      · rw [Statement.unplaced, Statement.unplaced, he]
        rfl
      · rw [Expr.unplacedBody, Expr.unplacedBody, he]
        rfl
    | _ => cases htarget
  | call callee arguments span =>
    cases target' with
    | call callee' arguments' span' =>
      obtain ⟨hcallee, harguments⟩ : callee.unplaced = callee'.unplaced ∧
          arguments.map Expr.unplaced = arguments'.map Expr.unplaced := by
        simpa [Expr.unplaced, Expr.unplacedAll_eq_map] using htarget
      simp only [Expr.name?_of_unplaced hcallee]
      split
      · next name hname =>
        refine (mapM_name ht harguments).bind (fun _ => rfl) fun ps qs u u' _ hps hu => ?_
        refine (distinctParameters hu hps).bind (fun _ => trivial) fun _ _ v v' _ _ hv => ?_
        refine (hbody v v' hv).bind (fun _ => rfl) fun r r' w w' _ hr hw => .pure hw ⟨?_, ?_⟩
        · rw [Statement.unplaced, Statement.unplaced, hps, hr]
          rfl
        · rw [Expr.unplacedBody, Expr.unplacedBody, hps, hr]
          rfl
      · exact .stops .anyFault
    | _ => cases htarget
  | _ => exact .stops .anyFault

/-- The parsers of a function's body side by side. -/
abbrev AlongsideBody (tail : Tail) (free last : Prop) (p q : Parser (List Statement × Span)) : Prop :=
  ∀ s s', Joined tail free s s' → Alongside tail free last p q s s' BodyLike

/-- The statements of a body so far come to the same, and the second ones are set apart if the first are. -/
def SofarLike (a b : List Statement × Bool) : Prop :=
  Expr.unplacedBody a.1 = Expr.unplacedBody b.1 ∧ (a.2 = true → b.2 = true)

theorem SofarLike.cons {c d : Statement} {a b : List Statement} (h : Expr.unplacedBody [c] = Expr.unplacedBody [d])
    (hab : Expr.unplacedBody a = Expr.unplacedBody b) : SofarLike (c :: a, false) (d :: b, false) := by
  refine ⟨?_, id⟩
  rw [Expr.unplacedBody_cons, Expr.unplacedBody_cons d, h, hab]

theorem bodyStep {read read' : Parser (List Statement × Span)} (h : Inner tail free last inner inner')
    (hbody : AlongsideBody tail free last read read') (hs : Joined tail free s s') {a b : List Statement × Bool}
    (hab : SofarLike a b) :
    Alongside tail free last (Parser.bodyStep inner read a) (Parser.bodyStep inner' read' b) s s'
      (Option.Rel SofarLike) := by
  refine (semicolons hs).bind_of_stops (fun some t ordered hfront => .sees ?_) fun some _ t t' hfront hsome ht => ?_
  · rw [hfront]
    refine .ite (fun hbrace => by cases hbrace) fun _ => .ite (fun _ => .anyUnexpected_bind _) fun _ => ?_
    refine (Yields.requireSeparatorAny _).bind ?_
    rintro _ _ rfl
    exact (h.stops _ ordered hfront).bind fun _ _ h => h.elim
  · subst hsome
    refine .sees (congrArg _ (ht.front_eq hfront)) (.ite (fun _ => .pure ht .none) fun _ => ?_)
    rw [Expr.head_isResult a.1, Expr.head_isResult b.1, hab.1]
    refine .ite (fun _ => .stops (.anyUnexpected_bind _)) fun _ => ?_
    refine (requireSeparator ht hfront ?_).bind (fun _ => trivial) fun _ _ u u' _ _ hu => ?_
    · simp only [Bool.or_eq_true]
      exact Or.imp_right hab.2
    refine (h.along u u' hu).bind (fun _ => rfl) fun e e' v v' _ he hv => ?_
    refine .sees (hv.sees rfl) (.ite (fun _ => ?_) fun _ => ?_)
    · refine (definition h.along hbody hv he).bind (fun _ => ⟨rfl, rfl⟩) fun c d w w' _ hcd hw => ?_
      exact .pure hw (.some (.cons hcd.2 hab.1))
    · refine .pure hv (.some (.cons ?_ hab.1))
      rw [Expr.unplacedBody, Expr.unplacedBody, he]
      rfl

/-- The loop over a body ends at a closing brace. -/
theorem bodyStep_ends (read : Parser (List Statement × Span)) (a : List Statement × Bool) :
    Yields (fun _ => True) (Parser.bodyStep inner read a) s fun r t => r = none → front t = .symbol .rightBrace := by
  have going {p : Parser Statement} {f : Statement → List Statement × Bool} {u : List Lexeme} :
      Yields (fun _ => True) (do return some (f (← p))) u fun r t => r = none → front t = .symbol .rightBrace :=
    Yields.anything.bind fun _ _ _ => .pure nofun
  refine Yields.anything.bind fun _ _ _ => .sees (.ite (fun hbrace => .pure fun _ => Token.eq_of_isSymbol hbrace) ?_)
  refine fun _ => .ite (fun _ => .anyUnexpected_bind _) fun _ => Yields.anything.bind fun _ _ _ => ?_
  refine Yields.anything.bind fun _ _ _ => .sees (.ite (fun _ => going) fun _ => .pure nofun)

theorem bodyWithin (h : Inner tail free last inner inner') {few many : Nat} (hmany : few ≤ many) :
    AlongsideBody tail free last (Parser.bodyWithin inner few) (Parser.bodyWithin inner' many) := by
  induction few generalizing many with
  | zero => exact fun _ _ _ => .stops (.stops _)
  | succ few ih =>
    obtain ⟨many, rfl⟩ : ∃ n, many = n + 1 := ⟨many - 1, by omega⟩
    intro s s' hs
    refine .sees (hs.sees rfl) (.ite (fun hbrace => ?_) fun _ => ?_)
    · have hfront : front s ≠ .finish := by rw [Token.eq_of_isSymbol hbrace]; nofun
      refine .advance hfront ((repeatingSteps (I := SofarLike) (fun _ => ⟨rfl, id⟩)
        (fun a b t t' hab ht => bodyStep h (ih (by omega)) ht hab) ⟨rfl, id⟩ (hs.behind hfront)).bind
        (fun _ => ⟨rfl, id⟩) fun a b t t' hrun hab ht => ?_)
      have hend : front t = .symbol .rightBrace :=
        (Yields.repeatingAny (I := fun _ _ => True) (Q := fun _ t => front t = .symbol .rightBrace)
          (fun a t _ => (bodyStep_ends _ a).mono fun _ _ h => ⟨fun _ _ => trivial, h⟩) trivial).of_eq hrun
      have hfront : front t ≠ .finish := by rw [hend]; nofun
      refine .advance hfront ?_
      rw [Expr.head_isResult a.1, Expr.head_isResult b.1, hab.1]
      refine .ite (fun _ => ?_) fun _ => .stops (.bind (Q := fun _ _ => False) .anyFault fun _ _ h => h.elim)
      refine .pure (ht.behind hfront) ?_
      rw [BodyLike, Expr.unplacedBody_reverse, Expr.unplacedBody_reverse, hab.1]
    · refine (h.along s s' hs).bind (fun _ => rfl) fun e e' t t' _ he ht => .pure ht ?_
      rw [BodyLike, Expr.unplacedBody, Expr.unplacedBody, he]
      rfl

theorem functionBody (h : Inner tail free last inner inner') :
    AlongsideBody tail free last (Parser.functionBody inner) (Parser.functionBody inner') := fun s s' hs =>
  .get (bodyWithin h (Nat.succ_le_succ hs.length_le) s s' hs)

theorem parameters (hs : Joined tail free s s') :
    Alongside tail free last Parser.parameters Parser.parameters s s'
      fun ps qs => ps.map Name.unplaced = qs.map Name.unplaced := by
  by_cases hfront : front s = .finish
  · refine .stops (.sees ?_)
    rw [hfront]
    refine .ite (fun hopens => by cases hopens) fun _ => (Yields.identifierAny).bind ?_
    rintro _ _ ⟨hname, -⟩
    rw [hfront] at hname
    cases hname
  refine .sees (congrArg _ (hs.front_eq hfront)) (.ite (fun _ => .advance hfront ?_) fun _ => ?_)
  · refine (repeatingSteps (I := fun ps qs => ps.map Name.unplaced = qs.map Name.unplaced) (fun _ => rfl)
      (fun ps qs t t' hps ht => .sees (ht.sees rfl) (.ite (fun _ => .pure ht .none) fun _ => ?_)) rfl
      (hs.behind hfront)).bind (fun _ => rfl) fun ps qs t t' hrun hps ht => ?_
    · refine (identifier ht).bind (fun _ => rfl) fun n m u u' _ hn hu => .sees (hu.sees rfl) ?_
      have more : (n :: ps).map Name.unplaced = (m :: qs).map Name.unplaced := by
        rw [List.map_cons, List.map_cons, hn, hps]
      refine .ite (fun _ => .pure hu (.some more)) fun _ => ?_
      exact (expect hu _ _).bind (fun _ => trivial) fun _ _ v v' _ _ hv => .pure hv (.some more)
    · -- The list ends at its closing parenthesis, so something is left there to be taken.
      have hend : front t = .symbol .rightParen := by
        refine (Yields.repeatingAny (I := fun _ _ => True) (Q := fun _ t => front t = .symbol .rightParen)
          (fun _ t _ => .sees (.ite (fun hx => ?_) fun _ => Yields.anything.bind fun _ _ _ => ?_)) trivial).of_eq hrun
        · exact .pure ⟨fun _ _ => trivial, fun _ => Token.eq_of_isSymbol hx⟩
        · refine .sees (.ite (fun _ => ?_) fun _ => Yields.anything.bind fun _ _ _ => ?_)
          · exact .pure ⟨fun _ _ => trivial, nofun⟩
          · exact .pure ⟨fun _ _ => trivial, nofun⟩
      have hfront : front t ≠ .finish := by rw [hend]; nofun
      refine .advance hfront (.pure (ht.behind hfront) ?_)
      rw [List.map_reverse, List.map_reverse, hps]
  · refine (identifier hs).bind (fun _ => rfl) fun n m t t' _ hn ht => .pure ht ?_
    rw [List.map_singleton, List.map_singleton, hn]

theorem function (h : Inner tail free last inner inner') :
    AlongsideExpr tail free last (Parser.function inner) (Parser.function inner') := by
  intro s s' hs
  refine .currentSpan ((parameters hs).bind (fun _ => rfl) fun ps qs t t' _ hps ht => ?_)
  refine (expect ht _ _).bind (fun _ => trivial) fun _ _ u u' _ _ hu => ?_
  refine (distinctParameters hu hps).bind (fun _ => trivial) fun _ _ v v' _ _ hv => ?_
  refine (functionBody h v v' hv).bind (fun _ => rfl) fun r r' w w' _ hr hw => .pure hw ?_
  rw [Expr.unplaced, Expr.unplaced, hps, hr]

/-! ### Operands -/

/-- What a bracket closes ends before the tail. -/
theorem expect_stops {α : Type} {f : Span → Parser α} (x : Symbol) (expected : String) (hfront : front s = .finish) :
    Yields (fun _ => True) (Parser.expect x expected >>= f) s fun _ _ => False := by
  refine (Yields.expectAny x expected).bind ?_
  rintro _ _ ⟨hx, -⟩
  cases hfront.symm.trans hx

theorem atom (h : AlongsideExpr tail free False inner inner') :
    AlongsideExpr tail free last (Parser.atom inner) (Parser.atom inner') := by
  intro s s' hs
  refine .currentSpan (.current ?_)
  by_cases hfront : front s = .finish
  · rw [hfront]
    exact .stops (.anyUnexpected _)
  rw [hs.front_eq hfront]
  have hbehind := hs.behind hfront
  split
  · exact .advance hfront (.pure hbehind rfl)
  · exact .advance hfront (.pure hbehind rfl)
  · exact .advance hfront (.pure hbehind rfl)
  · exact .advance hfront (.pure hbehind rfl)
  · refine .advance hfront ((h _ _ hbehind).bind_of_stops (fun _ _ _ => expect_stops _ _) fun e e' t t' _ he ht => ?_)
    refine (expect ht _ _).bind (fun _ => trivial) fun _ _ u u' _ _ hu => .pure hu ?_
    rw [Expr.unplaced_withSpan, Expr.unplaced_withSpan, he]
  · exact .stops (.anyUnexpected _)

theorem arguments (h : AlongsideExpr tail free False inner inner') (hs : Joined tail free s s') :
    Alongside tail free False (Parser.arguments inner) (Parser.arguments inner') s s'
      fun es fs => es.map Expr.unplaced = fs.map Expr.unplaced := by
  refine (repeatingSteps (I := fun es fs => es.map Expr.unplaced = fs.map Expr.unplaced) (fun _ => rfl)
    (fun es fs t t' hes ht => .sees (ht.sees rfl) (.ite (fun _ => .pure ht .none) fun _ => ?_)) rfl hs).bind
    (fun _ => rfl) fun es fs t t' _ hes ht => .pure ht ?_
  · refine (h t t' ht).bind (fun _ => rfl) fun e f u u' _ he hu => .sees (hu.sees rfl) ?_
    have more : (e :: es).map Expr.unplaced = (f :: fs).map Expr.unplaced := by
      rw [List.map_cons, List.map_cons, he, hes]
    refine .ite (fun _ => .pure hu (.some more)) fun _ => ?_
    exact (expect hu _ _).bind (fun _ => trivial) fun _ _ v v' _ _ hv => .pure hv (.some more)
  · rw [List.map_reverse, List.map_reverse, hes]

theorem postfixStep (hlast : last → free) (h : AlongsideExpr tail free False inner inner') (hs : Joined tail free s s')
    (ht : Joined tail free t t') (ends : EndsOperand s t) {e e' : Expr} (he : e.unplaced = e'.unplaced) :
    Alongside tail free last (Parser.postfixStep inner e) (Parser.postfixStep inner' e') t t'
      (Option.Rel fun e f : Expr => e.unplaced = f.unplaced) := by
  refine .unless_finish ht (fun hends => .current ?_) fun hfront => .current ?_
  · -- Where the lexemes end with the operand, the tail does not begin with what would go on with it.
    by_cases hfront : front t = .finish
    · have quiet (x : Symbol) (hx : x.follows = false ∨ (Token.symbol x).goesOn = true) :
          front t' ≠ .symbol x := fun hx' => by
        have := hs.sees_after ht ends (fun hfront => hlast (hends hfront)) hx
        rw [hfront, hx'] at this
        simp [Token.isSymbol] at this
      rw [hfront]
      show Alongside tail free last (Pure.pure none) _ t t' _
      split
      · next hdot => exact absurd hdot (quiet _ (.inl rfl))
      · next hbracket => exact absurd hbracket (quiet _ (.inl rfl))
      · next hparen => exact absurd hparen (quiet _ (.inr rfl))
      · exact .pure ht .none
    rw [ht.front_eq hfront]
    have hbehind := ht.behind hfront
    split
    · refine .advance hfront ((identifier hbehind).bind (fun _ => rfl) fun n m u u' _ hn hu => .pure hu (.some ?_))
      have hname : (Expr.name n.text n.span).unplaced = (Expr.name m.text m.span).unplaced := by
        have text : n.unplaced.text = m.unplaced.text := congrArg Name.text hn
        exact congrArg (Expr.name · default) text
      exact Expr.unplaced_apply (s := default) (by simp [he, hname])
    · refine .advance hfront ((h _ _ hbehind).bind_of_stops (fun _ _ _ => expect_stops _ _) fun i i' u u' _ hi hu => ?_)
      refine (expect hu _ _).bind (fun _ => trivial) fun _ _ v v' _ _ hv => .pure hv (.some ?_)
      rw [Expr.unplaced_withSpan, Expr.unplaced_withSpan]
      exact Expr.unplaced_apply (s := default) (by simp [he, hi])
    · refine .advance hfront ((arguments h hbehind).bind_of_stops (fun _ _ _ => expect_stops _ _)
        fun es fs u u' _ hes hu => ?_)
      refine (expect hu _ _).bind (fun _ => trivial) fun _ _ v v' _ _ hv => .pure hv (.some ?_)
      rw [Expr.callUpTo, Expr.callUpTo, Expr.unplaced, Expr.unplaced, Expr.unplacedAll_eq_map,
        Expr.unplacedAll_eq_map, he, hes]
    · exact .pure ht .none
  · rw [hfront]
    exact .pure rfl

theorem operand (hlast : last → free) (spans : SpansExpr inner) (h : AlongsideExpr tail free False inner inner') :
    AlongsideExpr tail free last (Parser.operand inner) (Parser.operand inner') := by
  intro s s' hs
  refine (atom h s s' hs).bind (fun _ => rfl) fun e e' t t' hrun he ht => ?_
  have hfirst := (TakesPhrase.atom spans s hs.ordered).of_eq hrun
  exact repeating (I := fun e f : Expr => e.unplaced = f.unplaced)
    (L := fun (e : Expr) t => Phrase s t ∧ e.outline.Between (here s) (here t) ∧ EndsOperand s t) (fun _ => rfl)
    (fun a b u u' hleft hab hu => postfixStep hlast h hs hu hleft.2.2 hab)
    (fun a u c v hleft hu hstep =>
      ((TakesPhrase.postfixStep spans hleft.1 hleft.2.1 hleft.2.2).of_eq hstep).1 c rfl) hfirst he ht

/-! ### Signs and levels -/

theorem applySign (op : Operator) {e e' : Expr} (he : e.unplaced = e'.unplaced) (m m' : Span) :
    (Parser.applySign op e m).unplaced = (Parser.applySign op e' m').unplaced := by
  unfold Parser.applySign
  rw [Expr.literal?_of_unplaced he]
  split
  · rfl
  · exact Expr.unplaced_apply (s := default) (by simp [he])

theorem factorWithin (hlast : last → free) (spans : SpansExpr inner) (h : AlongsideExpr tail free False inner inner')
    {few many : Nat} (hmany : few ≤ many) :
    AlongsideExpr tail free last (Parser.factorWithin inner few) (Parser.factorWithin inner' many) := by
  induction few generalizing many with
  | zero => exact fun _ _ _ => .stops (.stops _)
  | succ few ih =>
    intro s s' hs
    by_cases hfront : front s = .finish
    · exact .stops (StopsAtEnd.of_spans (TakesPhrase.factorWithin spans _) s hs.ordered hfront)
    obtain ⟨many, rfl⟩ : ∃ n, many = n + 1 := ⟨many - 1, by omega⟩
    refine .current ?_
    rw [hs.front_eq hfront]
    have signed (op : Operator) : Alongside tail free last
        (do let mark ← Parser.advance; return Parser.applySign op (← Parser.factorWithin inner few) mark)
        (do let mark ← Parser.advance; return Parser.applySign op (← Parser.factorWithin inner' many) mark) s s'
        fun e f => e.unplaced = f.unplaced :=
      .advance hfront ((ih (by omega) _ _ (hs.behind hfront)).bind (fun _ => rfl) fun e e' t t' _ he ht =>
        .pure ht (applySign op he _ _))
    split
    · exact signed _
    · exact signed _
    · refine (operand hlast spans h s s' hs).bind (fun _ => rfl) fun e e' t t' _ he ht => .sees (ht.sees rfl) ?_
      refine .ite (fun hpower => ?_) fun _ => .pure ht he
      have hfront : front t ≠ .finish := by rw [Token.eq_of_isSymbol hpower]; nofun
      refine .advance hfront ((ih (by omega) _ _ (ht.behind hfront)).bind (fun _ => rfl) fun r r' u u' _ hr hu => ?_)
      exact .pure hu (Expr.unplaced_apply (s := default) (by simp [he, hr]))

/-- Sums before a tail that may begin with a comparison. -/
theorem sum (hlast : last → free) (spans : SpansExpr inner) (h : AlongsideExpr tail free False inner inner') :
    AlongsideExpr tail free last (Parser.sum inner) (Parser.sum inner') := by
  have factor_spans : SpansOperand (Parser.factor inner) := fun s hs => .get (TakesPhrase.factorWithin spans _ s hs)
  have factor : AlongsideExpr tail free last (Parser.factor inner) (Parser.factor inner') := fun s s' hs =>
    .get (factorWithin hlast spans h (Nat.succ_le_succ hs.length_le) s s' hs)
  refine leftGrouped hlast (by decide) (by decide) (TakesPhrase.leftGrouped (by decide) factor_spans) ?_
  exact leftGrouped hlast (by decide) (by decide) factor_spans factor

theorem negationWithin (hlast : last → free ∧ tail.Begins) (spans : SpansExpr inner)
    (h : AlongsideExpr tail free False inner inner') {few many : Nat} (hmany : few ≤ many) :
    AlongsideExpr tail free last (Parser.negationWithin inner few) (Parser.negationWithin inner' many) := by
  induction few generalizing many with
  | zero => exact fun _ _ _ => .stops (.stops _)
  | succ few ih =>
    intro s s' hs
    by_cases hfront : front s = .finish
    · exact .stops (StopsAtEnd.of_spans (TakesPhrase.negationWithin spans _) s hs.ordered hfront)
    obtain ⟨many, rfl⟩ : ∃ n, many = n + 1 := ⟨many - 1, by omega⟩
    refine .sees (congrArg _ (hs.front_eq hfront)) (.ite (fun _ => .advance hfront ?_) fun _ => ?_)
    · refine (ih (by omega) _ _ (hs.behind hfront)).bind (fun _ => rfl) fun e e' t t' _ he ht => .pure ht ?_
      exact Expr.unplaced_apply (s := default) (by simp [he])
    · have sum := sum (fun h => (hlast h).1) spans h
      exact chained (fun h => (hlast h).2) sum s s' hs

theorem disjunction (hlast : last → free ∧ tail.Begins) (spans : SpansExpr inner)
    (h : AlongsideExpr tail free False inner inner') :
    AlongsideExpr tail free last (Parser.disjunction inner) (Parser.disjunction inner') := by
  have negation_spans : SpansOperand (Parser.negation inner) := fun s hs =>
    .get (TakesPhrase.negationWithin spans _ s hs)
  have negation : AlongsideExpr tail free last (Parser.negation inner) (Parser.negation inner') := fun s s' hs =>
    .get (negationWithin hlast spans h (Nat.succ_le_succ hs.length_le) s s' hs)
  have free : last → free := fun h => (hlast h).1
  refine leftGrouped free (by decide) (by decide) (TakesPhrase.leftGrouped (by decide) negation_spans) ?_
  exact leftGrouped free (by decide) (by decide) negation_spans negation

theorem expressionWithin_stops (allowed : Nat) : StopsAtEnd (Parser.expressionWithin allowed) := by
  intro s hs hfront
  cases allowed with
  | zero => exact .stops _
  | succ allowed =>
    refine .get (.ite (fun hahead => ?_) fun _ => ?_)
    · rw [functionAhead, hfront] at hahead
      cases hahead
    · exact StopsAtEnd.of_spans (TakesPhrase.disjunction (TakesPhrase.expressionWithin allowed)) s hs hfront

theorem expressionWithin (hlast : last → free ∧ tail.Begins) {few many : Nat} (hmany : few ≤ many) :
    Inner tail free last (Parser.expressionWithin few) (Parser.expressionWithin many) := by
  induction few generalizing many with
  | zero => exact ⟨TakesPhrase.expressionWithin 0, expressionWithin_stops 0, fun _ _ _ => .stops (.stops _)⟩
  | succ few ih =>
    obtain ⟨many, rfl⟩ : ∃ n, many = n + 1 := ⟨many - 1, by omega⟩
    have inner : Inner tail free last (Parser.expressionWithin few) (Parser.expressionWithin many) := ih (by omega)
    refine ⟨TakesPhrase.expressionWithin _, expressionWithin_stops _, fun s s' hs => ?_⟩
    by_cases hfront : front s = .finish
    · exact .stops (expressionWithin_stops _ s hs.ordered hfront)
    refine .get ?_
    rw [hs.functionAhead hfront]
    exact .ite (fun _ => function inner s s' hs) fun _ =>
      disjunction hlast inner.spans inner.along.inside s s' hs

theorem expression [tail.Begins] : Inner tail free free Parser.expression Parser.expression where
  spans := TakesPhrase.expression
  stops := fun s hs hfront => .get (expressionWithin_stops _ s hs hfront)
  along := fun s s' hs =>
    .get ((expressionWithin (fun h => ⟨h, inferInstance⟩) (Nat.succ_le_succ hs.length_le)).along s s' hs)

end Alongside

end Parser

end RecordStats
