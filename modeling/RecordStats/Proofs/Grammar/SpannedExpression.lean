import RecordStats.Proofs.Grammar.Phrase

/-! Reading an expression takes a phrase off the lexemes, and the expression's spans are nested in the place of the
    phrase. Some spans are joined by hand from a first and a last part; they enclose what is read between the two
    because the lexemes are in order. -/

namespace RecordStats.Parser

variable {inner level : Parser Expr} {s t u : List Lexeme} {a : Nat}

/-- A parser of expressions whose spans are nested in the place of the phrase. -/
abbrev SpansExpr (p : Parser Expr) : Prop := TakesPhrase p fun s t e => e.outline.Between (here s) (here t)

/-- A parser of expressions, which are no functions: the phrase ends like an operand. -/
abbrev SpansOperand (p : Parser Expr) : Prop :=
  TakesPhrase p fun s t e => e.outline.Between (here s) (here t) ∧ EndsOperand s t

namespace TakesPhrase

/-! ### Operators between operands -/

/-- An operator with its right operand, after what has been read. -/
theorem right (h : SpansOperand level) (ht : Phrase s t) {k : Token} (hfront : front t = k) (plain : k.isPlain = true) :
    Yields (fun _ => True) level (behind t) fun e u =>
      Phrase s u ∧ here t ≤ here u ∧ (frontSpan t).Inside (here s) (here u) ∧ e.outline.Between (here s) (here u) ∧
        EndsOperand s u := by
  obtain ⟨single, mark⟩ := Phrase.single ht.ordered hfront plain
  have past := ht.trans single
  refine (h _ past.ordered).mono fun e u ⟨hu, he, ends⟩ => ?_
  refine ⟨past.trans hu, Nat.le_trans single.forward hu.forward, mark.mono ht.forward hu.forward, ?_, ends.after past⟩
  exact he.mono past.forward (Nat.le_refl _)

theorem find_front {operators : List (Symbol × Operator)} {o : Symbol × Operator}
    (ho : operators.find? (fun o => (front s).isSymbol o.1) = some o) : front s = .symbol o.1 :=
  Token.eq_of_isSymbol (List.find?_some (p := fun o : Symbol × Operator => (front s).isSymbol o.1) ho)

theorem leftGrouped {operators : List (Symbol × Operator)} (plain : ∀ o ∈ operators, (Token.symbol o.1).isPlain = true)
    (h : SpansOperand level) : SpansOperand (Parser.leftGrouped operators level) := by
  intro s hs
  refine (h s hs).bind fun first t ht => ?_
  refine Yields.repeatingKeeps (I := fun (left : Expr) u =>
      Phrase s u ∧ left.outline.Between (here s) (here u) ∧ EndsOperand s u)
    (fun left u ⟨hu, hleft, ends⟩ => .current ?_) ht
  split
  · exact .pure ⟨nofun, fun _ => ⟨hu, hleft, ends⟩⟩
  · next x op hfind =>
    have hfront := find_front hfind
    refine .advance ((right h hu hfront (plain _ (List.mem_of_find?_eq_some hfind))).bind ?_)
    rintro e v ⟨hv, forward, mark, he, ends⟩
    refine .pure ⟨fun b hb => ?_, nofun⟩
    cases hb
    exact ⟨hv, Expr.outline_apply_two mark (hleft.mono (Nat.le_refl _) forward) he, ends⟩

theorem chained (h : SpansOperand level) : SpansOperand (Parser.chained level) := by
  intro s hs
  refine (h s hs).bind fun first t ⟨ht, hfirst, ends⟩ => ?_
  refine Yields.bind (Yields.repeatingKeeps (I := fun chain u => Phrase s u ∧ EndsOperand s u ∧
      chain.1.outline.Between (here s) (here u) ∧ ∀ e ∈ chain.2, e.outline.Between (here s) (here u))
    (fun chain u ⟨hu, ends, hlast, hbefore⟩ => .current ?_) ⟨ht, ends, hfirst, nofun⟩) fun chain u hchain => ?_
  · obtain ⟨hu, ends, hlast, hbefore⟩ := hchain
    refine .pure ⟨hu, ?_, ends⟩
    cases hsome : chain.2 with
    | none => exact hlast
    | some e => exact hbefore e hsome
  · split
    · exact .pure ⟨nofun, fun _ => ⟨hu, ends, hlast, hbefore⟩⟩
    · next x op hfind =>
      have plain : ∀ o ∈ comparisons, (Token.symbol o.1).isPlain = true := by decide
      refine .advance ((right h hu (find_front hfind) (plain _ (List.mem_of_find?_eq_some hfind))).bind ?_)
      rintro e v ⟨hv, forward, mark, he, ends⟩
      have compared : (Expr.apply op [chain.1, e] (frontSpan u)).outline.Between (here s) (here v) :=
        Expr.outline_apply_two mark (hlast.mono (Nat.le_refl _) forward) he
      split
      · refine .pure ⟨fun b hb => ?_, nofun⟩
        cases hb
        exact ⟨hv, ends, he, fun f hf => by cases hf; exact compared⟩
      · next before hsome =>
        have earlier := (hbefore before hsome).mono (Nat.le_refl _) forward
        refine .pure ⟨fun b hb => ?_, nofun⟩
        cases hb
        refine ⟨hv, ends, he, fun f hf => ?_⟩
        cases hf
        refine Expr.outline_apply_two ?_ earlier compared
        rw [← Expr.span_outline, ← Expr.span_outline]
        exact earlier.inside.join compared.inside

/-! ### Functions -/

/-- A function's body and the span that it ends with. -/
def BodySpans (s t : List Lexeme) (r : List Statement × Span) : Prop :=
  (∀ o ∈ Expr.bodyOutlines r.1, o.Between (here s) r.2.last.offset) ∧ r.2.Inside (here s) (here t)

theorem distinctParameters_go (seen : List String) (parameters : List Name) :
    Yields (fun _ => True) (distinctParameters.go seen parameters) s fun _ t => t = s := by
  induction parameters generalizing seen with
  | nil => exact .pure rfl
  | cons p rest ih => exact .ite (fun _ => .anyFault) fun _ => ih _

theorem distinctParameters (parameters : List Name) :
    Yields (fun _ => True) (Parser.distinctParameters parameters) s fun _ t => t = s :=
  distinctParameters_go [] parameters

/-- The parameters of a function that is defined stand where the arguments of its head do. -/
theorem mapM_name (es : List Expr) :
    Yields (fun _ => True) (es.mapM fun argument : Expr => (match argument.name? with
      | some text => Pure.pure (Name.mk text argument.span)
      | none => Parser.fault .invalidTarget argument.span : Parser Name)) s
      fun names t => t = s ∧ ∀ n ∈ names, ∃ e ∈ es, n.span = e.span := by
  induction es with
  | nil =>
    rw [List.mapM_nil]
    exact .pure ⟨rfl, nofun⟩
  | cons e rest ih =>
    rw [List.mapM_cons]
    refine Yields.bind (Q := fun n t => t = s ∧ n.span = e.span) ?_ fun n t hn => ?_
    · split
      · exact .pure ⟨rfl, rfl⟩
      · exact .anyFault
    · obtain ⟨rfl, hn⟩ := hn
      refine ih.bind fun ns t ⟨ht, hns⟩ => .pure ⟨ht, List.forall_mem_cons.mpr ⟨⟨e, List.mem_cons_self, hn⟩, ?_⟩⟩
      intro m hm
      obtain ⟨f, hf, hspan⟩ := hns m hm
      exact ⟨f, List.mem_cons_of_mem _ hf, hspan⟩

theorem definition {read : Parser (List Statement × Span)} (h : SpansExpr inner) (hbody : TakesPhrase read BodySpans)
    (hs : InOrder s) {target : Expr} (htarget : target.outline.Between a (here s)) :
    Yields (fun _ => True) (Parser.definition inner read target) s fun d t =>
      Phrase s t ∧ d.outline.Between a (here t) ∧ Expr.bodyOutlines [d] = [d.outline] := by
  refine (Yields.expectAny _ _).bind ?_
  rintro mark t ⟨hfront, rfl, rfl⟩
  obtain ⟨single, mark⟩ := Phrase.single hs hfront rfl
  have target := htarget.mono (Nat.le_refl _) single.forward
  have before : a ≤ here s :=
    Nat.le_trans htarget.inside.first_le (Nat.le_trans htarget.inside.ordered htarget.inside.last_le)
  have begins := Nat.le_trans before single.forward
  have head := target.inside.join (mark.mono before (Nat.le_refl _))
  rw [Expr.span_outline] at head
  split
  · refine (h _ single.ordered).bind fun e u ⟨hu, he⟩ => .pure ⟨single.trans hu, ?_, rfl⟩
    exact Statement.outline_define (head.mono (Nat.le_refl _) hu.forward) (he.mono begins (Nat.le_refl _))
  · next callee arguments span =>
    split
    · refine (mapM_name arguments).bind ?_
      rintro parameters v ⟨rfl, hparameters⟩
      refine (distinctParameters parameters).bind ?_
      rintro _ v rfl
      refine (hbody _ single.ordered).bind fun r u ⟨hu, body, stop⟩ => .pure ⟨single.trans hu, ?_, rfl⟩
      exact Statement.outline_function target (head.mono (Nat.le_refl _) hu.forward) (stop.mono begins (Nat.le_refl _))
        hparameters body
    · exact .anyFault
  · exact .anyFault

/-- A result stands where its expression does. -/
theorem result {e : Expr} {b : Nat} (he : e.outline.Between a b) :
    (Outline.node e.span [e.outline]).Between a b := by
  have inside := he.inside
  rw [Expr.span_outline] at inside
  exact .node inside (List.forall_mem_singleton.mpr ⟨he.nested, Expr.span_outline e ▸ Span.encloses_refl _⟩)

theorem bodyStep {read : Parser (List Statement × Span)} (h : SpansExpr inner) (hbody : TakesPhrase read BodySpans)
    (hs : Phrase s t) {sofar : List Statement × Bool}
    (hsofar : ∀ o ∈ Expr.bodyOutlines sofar.1, o.Between (here s) (here t)) :
    Yields (fun _ => True) (Parser.bodyStep inner read sofar) t fun r u =>
      (∀ b ∈ r, Phrase s u ∧ ∀ o ∈ Expr.bodyOutlines b.1, o.Between (here s) (here u)) ∧
        (r = none → Phrase s u ∧ front u = .symbol .rightBrace ∧ here t ≤ here u) := by
  refine (Yields.semicolonsAny hs.ordered).bind fun _ u hu => .sees (.ite (fun hbrace => ?_) fun _ => ?_)
  · exact .pure ⟨nofun, fun _ => ⟨hs.trans hu, Token.eq_of_isSymbol hbrace, hu.forward⟩⟩
  refine .ite (fun _ => .anyUnexpected_bind _) fun _ => ?_
  refine (Yields.requireSeparatorAny _).bind ?_
  rintro _ u rfl
  have past := hs.trans hu
  refine (h _ past.ordered).bind fun e v ⟨hv, he⟩ => ?_
  -- the statements so far end before the one that has been read
  have more {d : Statement} {w : List Lexeme} (hw : Phrase v w)
      (hd : ∀ o ∈ Expr.bodyOutlines [d], o.Between (here u) (here w)) :
      ∀ o ∈ Expr.bodyOutlines (d :: sofar.1), o.Between (here s) (here w) := by
    rw [Expr.bodyOutlines_cons]
    refine List.forall_mem_append.mpr ⟨fun o ho => (hd o ho).mono past.forward (Nat.le_refl _), fun o ho => ?_⟩
    exact (hsofar o ho).mono (Nat.le_refl _) (Nat.le_trans hu.forward (Nat.le_trans hv.forward hw.forward))
  refine .sees (.ite (fun _ => ?_) fun _ => ?_)
  · refine (definition h hbody hv.ordered he).bind fun d w ⟨hw, hd, houtline⟩ => .pure ⟨fun b hb => ?_, nofun⟩
    cases hb
    refine ⟨past.trans (hv.trans hw), more hw ?_⟩
    rw [houtline]
    exact List.forall_mem_singleton.mpr hd
  · refine .pure ⟨fun b hb => ?_, nofun⟩
    cases hb
    refine ⟨past.trans hv, more (.refl hv.ordered) (List.forall_mem_singleton.mpr ?_)⟩
    exact result he

theorem bodyWithin (h : SpansExpr inner) (allowed : Nat) :
    TakesPhrase (Parser.bodyWithin inner allowed) BodySpans := by
  induction allowed with
  | zero => exact fun _ _ => .stops _
  | succ allowed ih =>
    intro s hs
    refine .sees (.ite (fun hopening => .advance ?_) fun _ => ?_)
    · obtain ⟨opening, -⟩ := Phrase.single hs (Token.eq_of_isSymbol hopening) rfl
      refine (Yields.repeatingAny (I := fun sofar t => Phrase s t ∧
          ∀ o ∈ Expr.bodyOutlines sofar.1, o.Between (here s) (here t))
        (Q := fun sofar t => Phrase s t ∧ front t = .symbol .rightBrace ∧
          ∀ o ∈ Expr.bodyOutlines sofar.1, o.Between (here s) (here t)) (fun sofar t ⟨ht, hsofar⟩ => ?_)
        ⟨opening, by simp [Expr.bodyOutlines]⟩).bind ?_
      · rintro ⟨reversed, separated⟩ u ⟨hu, hbrace, hreversed⟩
        obtain ⟨closing, place⟩ := Phrase.single hu.ordered hbrace rfl
        refine .advance (.ite (fun _ => .pure ⟨hu.trans closing, ?_, ?_⟩) fun _ => ?_)
        · rw [Expr.bodyOutlines_eq_flatMap] at hreversed ⊢
          intro o ho
          simp only [List.mem_flatMap, List.mem_reverse] at ho hreversed
          exact (hreversed o ho).mono (Nat.le_refl _) (Nat.le_trans place.first_le place.ordered)
        · exact place.mono hu.forward (Nat.le_refl _)
        · exact .bind (Q := fun _ _ => False) .anyFault fun _ _ h => h.elim
      · refine (bodyStep h ih ht hsofar).mono fun r u ⟨hmore, hend⟩ => ⟨hmore, fun hnone => ?_⟩
        obtain ⟨hu, hbrace, forward⟩ := hend hnone
        exact ⟨hu, hbrace, fun o ho => (hsofar o ho).mono (Nat.le_refl _) forward⟩
    · refine (h s hs).bind fun e t ⟨ht, he⟩ => .pure ⟨ht, List.forall_mem_singleton.mpr ?_, ?_⟩
      · refine result ⟨he.nested, he.inside.first_le, he.inside.ordered, ?_⟩
        rw [Expr.span_outline]
      · exact Expr.span_outline e ▸ he.inside

theorem functionBody (h : SpansExpr inner) : TakesPhrase (Parser.functionBody inner) BodySpans :=
  fun s hs => .get (bodyWithin h _ s hs)

theorem parameters : TakesPhrase Parser.parameters fun s t ps =>
    (frontSpan s).Inside (here s) (here t) ∧ ∀ p ∈ ps, p.outline.Between (here s) (here t) := by
  intro s hs
  refine .sees (.ite (fun hopening => .advance ?_) fun _ => ?_)
  · have hopening := Token.eq_of_isSymbol hopening
    have hopens : front s ≠ .finish := by
      rw [hopening]
      nofun
    have start := hs.here_le
    refine (Yields.repeatingAny (I := fun sofar t => Phrase (behind s) t ∧
        ∀ p ∈ sofar, p.outline.Between (here s) (here t))
      (Q := fun sofar t => Phrase (behind s) t ∧ front t = .symbol .rightParen ∧
        ∀ p ∈ sofar, p.outline.Between (here s) (here t)) (fun sofar t ⟨ht, hsofar⟩ => ?_)
      ⟨.refl hs.behind, nofun⟩).bind fun reversed t ⟨ht, hclosing, hreversed⟩ => .advance (.pure ?_)
    · have opening := (hs.inside hopens).mono (Nat.le_refl _) (Nat.le_trans ht.forward ht.ordered.here_le)
      refine ⟨.group hs hopening ht hclosing, opening, fun p hp => ?_⟩
      exact (hreversed p (List.mem_reverse.mp hp)).mono (Nat.le_refl _) ht.ordered.here_le
    · refine .sees (.ite (fun hclosing => .pure ⟨nofun, fun _ => ?_⟩) fun _ => ?_)
      · exact ⟨ht, Token.eq_of_isSymbol hclosing, hsofar⟩
      refine Yields.identifierAny.bind ?_
      rintro name _ ⟨hname, hplace, rfl⟩
      obtain ⟨single, place⟩ := Phrase.single ht.ordered hname rfl
      -- A name stands behind the names so far, and all of them behind the parenthesis.
      have more {u : List Lexeme} (hu : here (behind t) ≤ here u) :
          ∀ p ∈ name :: sofar, p.outline.Between (here s) (here u) := by
        refine List.forall_mem_cons.mpr ⟨.leaf ?_, fun p hp => ?_⟩
        · rw [hplace]
          exact place.mono (Nat.le_trans start ht.forward) hu
        · exact (hsofar p hp).mono (Nat.le_refl _) (Nat.le_trans single.forward hu)
      refine .sees (.ite (fun _ => .pure ⟨fun b hb => ?_, nofun⟩) fun _ => ?_)
      · cases hb
        exact ⟨ht.trans single, more (Nat.le_refl _)⟩
      · refine (Yields.expectAny _ _).bind ?_
        rintro _ _ ⟨hcomma, -, rfl⟩
        obtain ⟨comma, -⟩ := Phrase.single single.ordered hcomma rfl
        refine .pure ⟨fun b hb => ?_, nofun⟩
        cases hb
        exact ⟨ht.trans (single.trans comma), more comma.forward⟩
  · refine Yields.identifierAny.bind ?_
    rintro name _ ⟨hname, hplace, rfl⟩
    obtain ⟨single, place⟩ := Phrase.single hs hname rfl
    exact .pure ⟨single, place, List.forall_mem_singleton.mpr (.leaf (hplace ▸ place))⟩

theorem function (h : SpansExpr inner) : SpansExpr (Parser.function inner) := by
  intro s hs
  refine .currentSpan ((parameters s hs).bind fun parameters t ⟨ht, start, hparameters⟩ => ?_)
  refine (Yields.expectAny _ _).bind ?_
  rintro _ _ ⟨harrow, -, rfl⟩
  obtain ⟨arrow, -⟩ := Phrase.single ht.ordered harrow rfl
  refine (distinctParameters parameters).bind ?_
  rintro _ _ rfl
  have head := ht.trans arrow
  refine (functionBody h _ head.ordered).bind fun r u ⟨hu, body, stop⟩ => .pure ⟨head.trans hu, ?_⟩
  have before : here t ≤ r.2.last.offset := Nat.le_trans arrow.forward (Nat.le_trans stop.first_le stop.ordered)
  have start := start.mono (Nat.le_refl _) (Nat.le_trans arrow.forward hu.forward)
  refine .stretch start (stop.mono head.forward (Nat.le_refl _)) rfl ?_
  refine List.forall_mem_append.mpr ⟨List.forall_mem_map.mpr fun p hp => ?_, fun o ho => ?_⟩
  · exact (hparameters p hp).mono (Nat.le_refl _) before
  · exact (body o ho).mono head.forward (Nat.le_refl _)

/-! ### Operands -/

theorem atom (h : SpansExpr inner) : SpansOperand (Parser.atom inner) := by
  intro s hs
  have literal {k : Token} (hfront : front s = k) (plain : k.isPlain = true)
      (hbrace : k.isSymbol .rightBrace = false) (hsemicolon : k.isSymbol .semicolon = false) :
      Phrase s (behind s) ∧ (Outline.node (frontSpan s) []).Between (here s) (here (behind s)) ∧
        EndsOperand s (behind s) := by
    obtain ⟨single, place⟩ := Phrase.single hs hfront plain
    exact ⟨single, .leaf place, .front hs hfront (Token.ne_finish_of_isPlain plain) hbrace hsemicolon⟩
  refine .currentSpan (.current ?_)
  split
  · next htoken => exact .advance (.pure (literal htoken rfl rfl rfl))
  · next htoken => exact .advance (.pure (literal htoken rfl rfl rfl))
  · next htoken => exact .advance (.pure (literal htoken rfl rfl rfl))
  · next htoken => exact .advance (.pure (literal htoken rfl rfl rfl))
  · next htoken =>
    refine .advance ((h _ hs.behind).bind fun e t ⟨ht, he⟩ => ?_)
    refine (Yields.expectAny _ _).bind ?_
    rintro _ _ ⟨hclosing, rfl, rfl⟩
    have opening := (hs.inside (htoken ▸ nofun)).mono (Nat.le_refl _) ht.forward
    have closing := ht.ordered.inside (hclosing ▸ nofun)
    have content := he.inside.mono hs.here_le (Nat.le_refl _)
    rw [Expr.span_outline] at content
    refine .pure ⟨.group hs htoken ht hclosing, Expr.outline_withSpan he.nested ?_ ?_, ?_⟩
    · exact Span.encloses_trans (Span.encloses_join_left _ _) (Span.encloses_join_right _ _)
    · refine ((opening.join content).mono (Nat.le_refl _) ht.ordered.here_le).join ?_
      exact closing.mono (Nat.le_trans hs.here_le ht.forward) (Nat.le_refl _)
    · exact ((EndsOperand.front ht.ordered hclosing nofun rfl rfl).after ht).cons hs htoken nofun
  · exact .anyUnexpected _

theorem arguments (h : SpansExpr inner) : TakesPhrase (Parser.arguments inner) fun s t es =>
    ∀ e ∈ es, e.outline.Between (here s) (here t) := by
  intro s hs
  refine (Yields.repeatingKeeps (I := fun sofar t => Phrase s t ∧ ∀ e ∈ sofar, e.outline.Between (here s) (here t))
    (fun sofar t ht => ?_) ⟨.refl hs, List.forall_mem_nil _⟩).bind fun reversed t hreversed => ?_
  · obtain ⟨ht, hsofar⟩ := ht
    refine .sees (.ite (fun _ => .pure ⟨fun _ hb => (by cases hb), fun _ => ⟨ht, hsofar⟩⟩) fun _ => ?_)
    refine (h t ht.ordered).bind fun e u hu => ?_
    obtain ⟨hu, he⟩ := hu
    refine .sees ?_
    have more {v : List Lexeme} (hv : here u ≤ here v) : ∀ f ∈ e :: sofar, f.outline.Between (here s) (here v) := by
      refine List.forall_mem_cons.mpr ⟨he.mono ht.forward hv, fun f hf => ?_⟩
      exact (hsofar f hf).mono (Nat.le_refl _) (Nat.le_trans hu.forward hv)
    refine .ite (fun _ => .pure ⟨fun b hb => ?_, fun hnone => by cases hnone⟩) fun _ => ?_
    · cases hb
      exact ⟨ht.trans hu, more (Nat.le_refl _)⟩
    · refine (Yields.expectAny _ _).bind ?_
      rintro _ _ ⟨hcomma, -, rfl⟩
      obtain ⟨comma, -⟩ := Phrase.single hu.ordered hcomma rfl
      refine .pure ⟨fun b hb => ?_, fun hnone => by cases hnone⟩
      cases hb
      exact ⟨ht.trans (hu.trans comma), more comma.forward⟩
  · obtain ⟨ht, hreversed⟩ := hreversed
    exact .pure ⟨ht, fun e he => hreversed e (List.mem_reverse.mp he)⟩

/-- What follows an operand stands behind it. -/
theorem postfixStep (h : SpansExpr inner) (ht : Phrase s t) {e : Expr} (he : e.outline.Between (here s) (here t))
    (ends : EndsOperand s t) :
    Yields (fun _ => True) (Parser.postfixStep inner e) t fun r u =>
      (∀ b ∈ r, Phrase s u ∧ b.outline.Between (here s) (here u) ∧ EndsOperand s u) ∧
        (r = none → Phrase s u ∧ e.outline.Between (here s) (here u) ∧ EndsOperand s u) := by
  refine .current ?_
  split
  · next htoken =>
    obtain ⟨dot, mark⟩ := Phrase.single ht.ordered htoken rfl
    refine .advance (Yields.identifierAny.bind ?_)
    rintro name _ ⟨hname, hplace, rfl⟩
    obtain ⟨single, place⟩ := Phrase.single dot.ordered hname rfl
    have taken := dot.trans single
    refine .pure ⟨fun b hb => ?_, nofun⟩
    cases hb
    refine ⟨ht.trans taken, Expr.outline_apply_two (mark.mono ht.forward single.forward) ?_ (.leaf ?_), ?_⟩
    · exact he.mono (Nat.le_refl _) taken.forward
    · rw [hplace]
      exact place.mono (Nat.le_trans ht.forward dot.forward) (Nat.le_refl _)
    · exact (EndsOperand.front dot.ordered hname nofun rfl rfl).after (ht.trans dot)
  · next htoken =>
    obtain ⟨opening, mark⟩ := Phrase.single ht.ordered htoken rfl
    refine .advance ((h _ opening.ordered).bind fun index u ⟨hu, hindex⟩ => ?_)
    refine (Yields.expectAny _ _).bind ?_
    rintro _ _ ⟨hclosing, rfl, rfl⟩
    obtain ⟨closing, place⟩ := Phrase.single hu.ordered hclosing rfl
    have before := opening.trans hu
    have taken := before.trans closing
    refine .pure ⟨fun b hb => ?_, nofun⟩
    cases hb
    have start := Nat.le_trans ht.forward opening.forward
    refine ⟨ht.trans taken, Expr.outline_itemUpTo (mark.mono ht.forward (hu.trans closing).forward) ?_ ?_ ?_, ?_⟩
    · exact he.mono (Nat.le_refl _) taken.forward
    · exact hindex.mono start closing.forward
    · exact place.mono (Nat.le_trans start hu.forward) (Nat.le_refl _)
    · exact (EndsOperand.front hu.ordered hclosing nofun rfl rfl).after (ht.trans before)
  · next htoken =>
    refine .advance ((arguments h _ ht.ordered.behind).bind fun es u ⟨hu, hes⟩ => ?_)
    refine (Yields.expectAny _ _).bind ?_
    rintro _ _ ⟨hclosing, rfl, rfl⟩
    have taken := Phrase.group ht.ordered htoken hu hclosing
    have place := hu.ordered.inside (hclosing ▸ nofun)
    have opening := ht.ordered.here_le
    refine .pure ⟨fun b hb => ?_, nofun⟩
    cases hb
    refine ⟨ht.trans taken, ?_, ?_⟩
    · exact Expr.outline_callUpTo (he.mono (Nat.le_refl _) opening) hu.forward hes place
    · exact (((EndsOperand.front hu.ordered hclosing nofun rfl rfl).after hu).cons ht.ordered htoken nofun).after ht
  · exact .pure ⟨nofun, fun _ => ⟨ht, he, ends⟩⟩

theorem operand (h : SpansExpr inner) : SpansOperand (Parser.operand inner) := by
  intro s hs
  refine (atom h s hs).bind fun e t ht => ?_
  exact Yields.repeatingKeeps (I := fun (e : Expr) t =>
      Phrase s t ∧ e.outline.Between (here s) (here t) ∧ EndsOperand s t)
    (fun e t ⟨ht, he, ends⟩ => postfixStep h ht he ends) ht

/-! ### Signs and levels -/

theorem applySign (op : Operator) {e : Expr} {mark : Span} {b : Nat} (hmark : mark.Inside a b)
    (he : e.outline.Between a b) : (Parser.applySign op e mark).outline.Between a b := by
  unfold Parser.applySign
  split
  · exact .leaf (hmark.join (Expr.span_outline e ▸ he.inside))
  · exact Expr.outline_apply_one hmark he

theorem factorWithin (h : SpansExpr inner) (allowed : Nat) : SpansOperand (Parser.factorWithin inner allowed) := by
  induction allowed with
  | zero => exact fun _ _ => .stops _
  | succ allowed ih =>
    intro s hs
    refine .current ?_
    split
    · next htoken =>
      refine .advance ((right ih (.refl hs) htoken rfl).bind ?_)
      rintro e u ⟨hu, -, mark, he, ends⟩
      exact .pure ⟨hu, applySign _ mark he, ends⟩
    · next htoken =>
      refine .advance ((right ih (.refl hs) htoken rfl).bind ?_)
      rintro e u ⟨hu, -, mark, he, ends⟩
      exact .pure ⟨hu, applySign _ mark he, ends⟩
    · refine (operand h s hs).bind fun base t ⟨ht, hbase, ends⟩ => ?_
      refine .sees (.ite (fun hpower => .advance ?_) fun _ => .pure ⟨ht, hbase, ends⟩)
      refine (right ih ht (Token.eq_of_isSymbol hpower) rfl).bind ?_
      rintro e u ⟨hu, forward, mark, he, ends⟩
      exact .pure ⟨hu, Expr.outline_apply_two mark (hbase.mono (Nat.le_refl _) forward) he, ends⟩

theorem sum (h : SpansExpr inner) : SpansOperand (Parser.sum inner) := by
  have factor : SpansOperand (Parser.factor inner) := fun s hs => .get (factorWithin h _ s hs)
  exact leftGrouped (by decide) (leftGrouped (by decide) factor)

theorem negationWithin (h : SpansExpr inner) (allowed : Nat) : SpansOperand (Parser.negationWithin inner allowed) := by
  induction allowed with
  | zero => exact fun _ _ => .stops _
  | succ allowed ih =>
    intro s hs
    refine .sees (.ite (fun hnot => .advance ?_) fun _ => chained (sum h) s hs)
    refine (right ih (.refl hs) (Token.eq_of_isSymbol hnot) rfl).bind ?_
    rintro e u ⟨hu, -, mark, he, ends⟩
    exact .pure ⟨hu, Expr.outline_apply_one mark he, ends⟩

theorem disjunction (h : SpansExpr inner) : SpansOperand (Parser.disjunction inner) := by
  have negation : SpansOperand (Parser.negation inner) := fun s hs => .get (negationWithin h _ s hs)
  exact leftGrouped (by decide) (leftGrouped (by decide) negation)

theorem expressionWithin (allowed : Nat) : SpansExpr (Parser.expressionWithin allowed) := by
  induction allowed with
  | zero => exact fun _ _ => .stops _
  | succ allowed ih =>
    refine fun s hs => .get (.ite (fun _ => function ih s hs) fun _ => ?_)
    exact (disjunction ih s hs).mono fun _ _ ⟨ht, he, _⟩ => ⟨ht, he⟩

/-- What is read as an expression has nested spans. -/
theorem expression : SpansExpr Parser.expression := fun s hs => .get (expressionWithin _ s hs)

end TakesPhrase

end RecordStats.Parser
