import RecordStats.Grammar.Statement
import RecordStats.Proofs.Grammar.AlongsideExpression
import RecordStats.Proofs.Grammar.SpannedStatement

/-! Statements where others stand behind the lexemes. A statement that ends before the tail is read the same, if the tail
    is no axis, does not go on with an operand or a sum and does not begin with a comparison; whatever needs a block in
    braces ends before the tail. -/

namespace RecordStats.Parser

variable {tail : Tail} {free : Prop} {s s' t t' : List Lexeme}

/-! ### Axes ahead -/

/-- No axis is ahead here, nor where a name stands before. -/
structure NoAxis (tail : List Lexeme) : Prop where
  here : axisAhead tail = false
  named : front tail = .symbol .leftParen → arrowAfterClosing 0 tail = false

/-- Parentheses that are all closed are passed over when an arrow is looked for. -/
theorem arrowAfterClosing_matched {run : List Lexeme} (h : Lexeme.Matched run) {depth : Nat} (hdepth : 1 ≤ depth)
    (rest : List Lexeme) : arrowAfterClosing depth (run ++ rest) = arrowAfterClosing depth rest := by
  induction h generalizing depth rest with
  | nil => rfl
  | @token l _ plain _ ih =>
    rw [List.cons_append, arrowAfterClosing]
    split
    · next htoken => simp [htoken, Token.isPlain] at plain
    · next htoken => simp [htoken, Token.isPlain] at plain
    · next htoken => simp [htoken, Token.isPlain] at plain
    · exact ih hdepth rest
  | @group l m inside run opens _ closes _ inner later =>
    have deep : ¬depth + 1 ≤ 1 := by omega
    rw [List.cons_append, List.append_assoc, List.cons_append, arrowAfterClosing]
    simp only [opens]
    rw [inner (Nat.le_add_left 1 depth), arrowAfterClosing]
    simp only [closes, if_neg deep, Nat.add_sub_cancel]
    exact later hdepth rest

/-- Behind the parenthesis that closes the first one an arrow stands or not. -/
theorem arrowAfterClosing_group {l m : Lexeme} {inside rest : List Lexeme} (opens : l.token = .symbol .leftParen)
    (inner : Lexeme.Matched inside) (closes : m.token = .symbol .rightParen) :
    arrowAfterClosing 0 (l :: (inside ++ m :: rest)) = (front rest).isSymbol .leftArrow := by
  rw [arrowAfterClosing]
  simp only [opens]
  rw [arrowAfterClosing_matched inner (Nat.le_refl _), arrowAfterClosing]
  simp only [closes, if_pos (Nat.le_refl _)]

/-- An arrow stands behind the parenthesis that closes in both or in none. -/
theorem Joined.arrowAfterClosing (h : Joined tail free s s') (hfront : front s = .symbol .leftParen) :
    arrowAfterClosing 0 s' = Parser.arrowAfterClosing 0 s := by
  obtain ⟨l, hs, hl⟩ := h.ordered.eq_cons (by rw [hfront]; nofun)
  have opens : l.token = .symbol .leftParen := hl.trans hfront
  obtain ⟨inside, m, rest, hsplit, inner, closes⟩ := h.balanced [] l _ hs opens
  rw [hsplit] at hs
  have joins := h.joins
  rw [hs] at joins
  obtain ⟨l', _, rfl, alike, joins⟩ := joins.eq_cons (List.append_ne_nil_of_right_ne_nil _ (List.cons_ne_nil _ _))
  obtain ⟨inside', _, rfl, inner', joins⟩ := joins.matched inner (List.cons_ne_nil _ _)
  have hrest : rest ≠ [] := by
    have ordered := h.ordered
    rw [hs] at ordered
    cases (ordered.append_right (l :: inside) (List.cons_ne_nil _ _) : InOrder (m :: rest)) with
    | finish token =>
      rw [closes] at token
      cases token
    | token => exact List.cons_ne_nil _ _
  obtain ⟨m', rest', rfl, alike', joins⟩ := joins.eq_cons hrest
  rw [hs, arrowAfterClosing_group opens inner closes,
    arrowAfterClosing_group (alike.token ▸ opens) inner' (alike'.token ▸ closes)]
  exact joins.sees rfl

theorem Joined.axisAhead (h : Joined tail free s s') (none : NoAxis tail.lexemes) :
    axisAhead s' = Parser.axisAhead s := by
  by_cases hfront : front s = .finish
  · rw [h.eq_tail hfront, none.here, Parser.axisAhead, hfront]
  have hbehind := h.behind hfront
  obtain ⟨hdrop, hdrop'⟩ := h.drop_eq hfront
  rw [Parser.axisAhead, Parser.axisAhead, h.front_eq hfront, h.second_eq hfront, ← h.ordered.front_behind hfront,
    hdrop, hdrop']
  by_cases hnext : front (Parser.behind s) = .finish
  · rw [hnext, hbehind.eq_tail hnext]
    cases front s with
    | name x =>
      split
      · next hopens => exact none.named hopens
      · rfl
    | _ => rfl
  · rw [hbehind.front_eq hnext]
    split
    · next _ _ hopens => exact hbehind.arrowAfterClosing hopens
    · rfl

namespace Alongside

variable [tail.Begins]

/-! ### Axes and collectors -/

theorem axis (hs : Joined tail free s s') :
    Alongside tail free free Parser.axis Parser.axis s s' fun a b => a.unplaced = b.unplaced := by
  refine (operand id TakesPhrase.expression expression.along.inside s s' hs).bind (fun _ => rfl) fun e e' t t' _ he ht => ?_
  refine (expect ht _ _).bind (fun _ => trivial) fun _ _ u u' _ _ hu => ?_
  refine (expression.along u u' hu).bind (fun _ => rfl) fun f f' v v' _ hf hv => .pure hv ?_
  rw [Axis.unplaced, Axis.unplaced, he, hf]

theorem axes (none : NoAxis tail.lexemes) (hs : Joined tail free s s') :
    Alongside tail free free Parser.axes Parser.axes s s' fun as bs => as.map Axis.unplaced = bs.map Axis.unplaced := by
  refine .sees (hs.sees rfl) (.ite (fun halong => ?_) fun _ => .pure hs rfl)
  have hfront : front s ≠ .finish := by rw [Token.eq_of_isSymbol halong]; nofun
  refine .advance hfront ((axis (hs.behind hfront)).bind (fun _ => rfl) fun a b t t' _ hab ht => ?_)
  refine (repeatingSteps (I := fun as bs => as.map Axis.unplaced = bs.map Axis.unplaced) (fun _ => rfl)
    (fun as bs u u' has hu => .get ?_) (by simp [hab]) ht).bind (fun _ => rfl) fun as bs u u' _ has hu => .pure hu ?_
  · rw [hu.axisAhead none]
    refine .ite (fun _ => ?_) fun _ => .pure hu .none
    refine (axis hu).bind (fun _ => rfl) fun c d v v' _ hcd hv => .pure hv (.some ?_)
    rw [List.map_cons, List.map_cons, hcd, has]
  · rw [List.map_reverse, List.map_reverse, has]

theorem define (hs : Joined tail free s s') :
    Alongside tail free free Parser.define Parser.define s s' StatementLike := by
  refine (operand id TakesPhrase.expression expression.along.inside s s' hs).bind (fun _ => rfl) fun e e' t t' _ he ht => ?_
  refine .sees (ht.sees rfl) (.ite (fun _ => ?_) fun _ => .stops (.anyUnexpected_bind _))
  exact definition expression.along (functionBody expression) ht he

theorem collect (none : NoAxis tail.lexemes) (statistic : Statistic) (hs : Joined tail free s s')
    (hfront : front s ≠ .finish) :
    Alongside tail free free (Parser.collect statistic) (Parser.collect statistic) s s'
      fun c d => c.unplaced = d.unplaced := by
  refine .advance hfront ((label (hs.behind hfront)).bind (fun _ => rfl) fun n m t t' _ hn ht => ?_)
  extract_lets finish finish'
  have hfinish : ∀ e e' u u', Joined tail free u u' → e.map Expr.unplaced = e'.map Expr.unplaced →
      Alongside tail free free (finish e) (finish' e') u u' fun c d => c.unplaced = d.unplaced := by
    intro e e' u u' hu he
    refine (axes none hu).bind (fun _ => rfl) fun as bs v v' _ has hv => .sees (hv.sees rfl) ?_
    refine .ite (fun hweight => ?_) fun _ => .pure hv ?_
    · have hfront : front v ≠ .finish := by rw [Token.eq_of_isSymbol hweight]; nofun
      refine .advance hfront ((expression.along _ _ (hv.behind hfront)).bind (fun _ => rfl) fun w w' x x' _ hw hx => ?_)
      refine .pure hx ?_
      simp only [Statement.unplaced, Collector.unplaced, hn, he, has, Option.map_some, hw]
    · simp only [Statement.unplaced, Collector.unplaced, hn, he, has]
  split
  · exact hfinish _ _ t t' ht rfl
  · refine (expression.along t t' ht).bind (fun _ => rfl) fun e e' u u' _ he hu => hfinish _ _ u u' hu ?_
    rw [Option.map_some, Option.map_some, he]

/-! ### Blocks -/

/-- Parsers of statements side by side. -/
abbrev AlongsideStatement (tail : Tail) (free : Prop) (p q : Parser Statement) : Prop :=
  ∀ s s', Joined tail free s s' → Alongside tail free free p q s s' fun c d => c.unplaced = d.unplaced

variable {inner inner' : Parser Statement}

/-- The statements of a block so far come to the same, and the second ones are set apart if the first are. -/
def BlockLike (a b : List Statement × Bool) : Prop :=
  Statement.unplacedBlock a.1 = Statement.unplacedBlock b.1 ∧ (a.2 = true → b.2 = true)

omit [tail.Begins] in
theorem block (h : AlongsideStatement tail free inner inner') (closed : Bool) (hs : Joined tail free s s') :
    Alongside tail free False (Parser.block inner closed) (Parser.block inner' closed) s s'
      fun c d => Statement.unplacedBlock c = Statement.unplacedBlock d := by
  refine (repeatingSteps (I := BlockLike) (fun _ => ⟨rfl, id⟩) (fun a b t t' hab ht => ?_) ⟨rfl, id⟩ hs).bind
    (fun _ => ⟨rfl, id⟩) fun a b t t' _ hab ht => .pure ht ?_
  · refine (semicolons ht).bind (fun _ => rfl) fun some _ u u' _ hsome hu => ?_
    subst hsome
    refine .unless_finish hu (fun hfront => .current ?_) fun hfront => .current ?_
    · have hfront : front u ≠ .finish := hfront
      rw [hu.front_eq hfront]
      split
      · next hfinish => exact absurd hfinish hfront
      · refine .ite (fun _ => .pure hu .none) fun _ => ?_
        refine (requireSeparator hu hfront ?_).bind (fun _ => trivial) fun _ _ v v' _ _ hv => ?_
        · simp only [Bool.or_eq_true]
          exact Or.imp_right hab.2
        refine ((h v v' hv).weaken False.elim).bind (fun _ => rfl) fun c d w w' _ hcd hw => .pure hw (.some ⟨?_, id⟩)
        rw [Statement.unplacedBlock, Statement.unplacedBlock, hcd, hab.1]
    · rw [hfront]
      exact .pure rfl
  · obtain ⟨hab, -⟩ := hab
    rw [Statement.unplacedBlock_eq_map, Statement.unplacedBlock_eq_map] at hab ⊢
    rw [List.map_reverse, List.map_reverse, hab]

omit [tail.Begins] in
theorem braced (h : AlongsideStatement tail free inner inner') (hs : Joined tail free s s') :
    Alongside tail free free (Parser.braced inner) (Parser.braced inner') s s'
      fun r r' => Statement.unplacedBlock r.1 = Statement.unplacedBlock r'.1 := by
  refine (expect hs _ _).bind (fun _ => trivial) fun _ _ t t' _ _ ht => ?_
  refine (block h true ht).bind_of_stops (fun _ u _ hfront => ?_) fun c d u u' _ hcd hu => ?_
  · refine (Yields.expectAny _ _).bind ?_
    rintro _ _ ⟨hbrace, -⟩
    rw [hfront] at hbrace
    cases hbrace
  · exact (expect hu _ _).bind (fun _ => trivial) fun _ _ v v' _ _ hv => .pure hv hcd

omit [tail.Begins] in
theorem separatedByCommas {α β : Type} {one : Parser α} {f : α → β}
    (h : ∀ s s', Joined tail free s s' → Alongside tail free free one one s s' fun a b => f a = f b)
    (hs : Joined tail free s s') :
    Alongside tail free free (Parser.separatedByCommas one) (Parser.separatedByCommas one) s s'
      fun as bs => as.map f = bs.map f := by
  refine (h s s' hs).bind (fun _ => rfl) fun a b t t' _ hab ht => ?_
  refine (repeatingSteps (I := fun as bs => as.map f = bs.map f) (fun _ => rfl)
    (fun as bs u u' has hu => .sees (hu.sees rfl) ?_) (by simp [hab]) ht).bind (fun _ => rfl)
    fun as bs u u' _ has hu => .pure hu ?_
  · refine .ite (fun hcomma => ?_) fun _ => .pure hu .none
    have hfront : front u ≠ .finish := by rw [Token.eq_of_isSymbol hcomma]; nofun
    refine .advance hfront ((h _ _ (hu.behind hfront)).bind (fun _ => rfl) fun c d v v' _ hcd hv => ?_)
    refine .pure hv (.some ?_)
    rw [List.map_cons, List.map_cons, hcd, has]
  · rw [List.map_reverse, List.map_reverse, has]

/-! ### Statements with a block -/

omit [tail.Begins] in
theorem pattern (hs : Joined tail free s s') :
    Alongside tail free free Parser.pattern Parser.pattern s s' fun p q => p.unplaced = q.unplaced := by
  refine (label hs).bind (fun _ => rfl) fun n m t t' _ hn ht => ?_
  have text : n.unplaced.text = m.unplaced.text := congrArg Name.text hn
  have text : n.text = m.text := text
  rw [text]
  split
  · exact .pure ht rfl
  · exact .stops .anyFault

omit [tail.Begins] in
theorem source (h : AlongsideStatement tail free inner inner') (inclusive : Bool) (start start' : Span)
    (hs : Joined tail free s s') :
    Alongside tail free free (Parser.source inner inclusive start) (Parser.source inner' inclusive start') s s'
      fun c d => c.unplaced = d.unplaced := by
  refine (separatedByCommas (f := Pattern.unplaced) (fun _ _ => pattern) hs).bind (fun _ => rfl)
    fun ps qs t t' _ hps ht => ?_
  refine (braced h ht).bind (fun _ => rfl) fun r r' u u' _ hr hu => .pure hu ?_
  rw [Statement.unplaced, Statement.unplaced, hps, hr]

theorem region (none : NoAxis tail.lexemes) (h : AlongsideStatement tail free inner inner')
    (hs : Joined tail free s s') (hfront : front s ≠ .finish) :
    Alongside tail free free (Parser.region inner) (Parser.region inner') s s' fun c d => c.unplaced = d.unplaced := by
  refine .advance hfront ((label (hs.behind hfront)).bind (fun _ => rfl) fun n m t t' _ hn ht => ?_)
  refine .sees (ht.sees rfl) (.sees (ht.sees rfl) ?_)
  extract_lets finish finish'
  have hfinish : ∀ e e' u u', Joined tail free u u' → e.map Expr.unplaced = e'.map Expr.unplaced →
      Alongside tail free free (finish e) (finish' e') u u' fun c d => c.unplaced = d.unplaced := by
    intro e e' u u' hu he
    refine (axes none hu).bind (fun _ => rfl) fun as bs v v' _ has hv => ?_
    refine (braced h hv).bind (fun _ => rfl) fun r r' w w' _ hr hw => .pure hw ?_
    rw [Statement.unplaced, Statement.unplaced, hn, he, has, hr]
  refine .ite (fun _ => hfinish _ _ t t' ht rfl) fun _ => ?_
  refine (expression.along t t' ht).bind (fun _ => rfl) fun e e' u u' _ he hu => hfinish _ _ u u' hu ?_
  rw [Option.map_some, Option.map_some, he]

theorem binding {n m : Name} {e f : Expr} (hn : n.unplaced = m.unplaced) (he : e.unplaced = f.unplaced) (a b : Span) :
    (Binding.mk n e a).unplaced = (Binding.mk m f b).unplaced := by
  rw [Binding.unplaced, Binding.unplaced, hn, he]

/-- The assignments so far come to the same, and the second ones are set apart if the first are. -/
def AssignmentsLike (a b : List (Binding Expr) × Bool) : Prop :=
  a.1.map Binding.unplaced = b.1.map Binding.unplaced ∧ (a.2 = true → b.2 = true)

theorem assignmentStep (hs : Joined tail free s s') {a b : List (Binding Expr) × Bool} (hab : AssignmentsLike a b) :
    Alongside tail free False (Parser.assignmentStep a) (Parser.assignmentStep b) s s' (Option.Rel AssignmentsLike) := by
  refine .unless_finish hs (fun hfront => .current ?_) fun hfront => .current ?_
  · have hfront : front s ≠ .finish := hfront
    rw [hs.front_eq hfront]
    split
    · exact .advance hfront (.pure (hs.behind hfront) (.some ⟨hab.1, fun _ => rfl⟩))
    · refine (requireSeparator hs hfront hab.2).bind (fun _ => trivial) fun _ _ t t' _ _ ht => ?_
      refine (identifier ht).bind (fun _ => rfl) fun n m u u' _ hn hu => ?_
      refine (expect hu _ _).bind (fun _ => trivial) fun _ _ v v' _ _ hv => ?_
      refine ((expression.along v v' hv).weaken False.elim).bind (fun _ => rfl) fun e f w w' _ he hw => ?_
      refine .pure hw (.some ⟨?_, id⟩)
      rw [List.map_cons, List.map_cons, binding hn he, hab.1]
    · exact .pure hs .none
  · rw [hfront]
    exact .pure rfl

theorem variation (hs : Joined tail free s s') :
    Alongside tail free False Parser.variation Parser.variation s s' fun v w => v.unplaced = w.unplaced := by
  refine (label hs).bind (fun _ => rfl) fun n m t t' _ hn ht => .sees (ht.sees rfl) ?_
  extract_lets finish finish'
  have hfinish : ∀ p p' u u', Joined tail free u u' →
      Alongside tail free False (finish p) (finish' p') u u' fun v w => v.unplaced = w.unplaced := by
    intro p p' u u' hu
    refine (repeatingSteps (I := AssignmentsLike) (fun _ => ⟨rfl, id⟩)
      (fun _ _ _ _ hab ht => assignmentStep ht hab) ⟨rfl, id⟩ hu).bind (fun _ => ⟨rfl, id⟩)
      fun a b v v' _ hab hv => .pure hv ?_
    rw [Variation.unplaced, Variation.unplaced, hn, List.map_reverse, List.map_reverse, hab.1]
  refine .ite (fun hcolon => ?_) fun _ => hfinish _ _ t t' ht
  have hfront : front t ≠ .finish := by rw [Token.eq_of_isSymbol hcolon]; nofun
  exact .advance hfront (hfinish _ _ _ _ (ht.behind hfront))

theorem vary (h : AlongsideStatement tail free inner inner') (hs : Joined tail free s s') (hfront : front s ≠ .finish) :
    Alongside tail free free (Parser.vary inner) (Parser.vary inner') s s' fun c d => c.unplaced = d.unplaced := by
  refine .advance hfront ?_
  refine (repeatingSteps (I := fun vs ws => vs.map Variation.unplaced = ws.map Variation.unplaced) (fun _ => rfl)
    (fun vs ws t t' hvs ht => ?_) rfl (hs.behind hfront)).bind_of_stops (fun vs t _ hfront => ?_)
    fun vs ws t t' _ hvs ht => ?_
  · refine .unless_finish ht (fun hfront => .current ?_) fun hfront => .current ?_
    · rw [ht.front_eq hfront]
      split
      · refine (variation ht).bind (fun _ => rfl) fun v w u u' _ hv hu => .pure hu (.some ?_)
        rw [List.map_cons, List.map_cons, hv, hvs]
      · exact .pure ht .none
    · rw [hfront]
      exact .pure rfl
  · refine .ite (fun _ => .anyUnexpected_bind _) fun _ => ?_
    refine Yields.bind (Q := fun _ _ => False) ?_ fun _ _ h => h.elim
    refine (Yields.expectAny _ _).bind ?_
    rintro _ _ ⟨hbrace, -⟩
    rw [hfront] at hbrace
    cases hbrace
  · have empty : ws.isEmpty = vs.isEmpty := by
      rw [← List.isEmpty_map (f := Variation.unplaced), ← hvs, List.isEmpty_map]
    rw [empty]
    refine .ite (fun _ => .stops (.anyUnexpected_bind _)) fun _ => ?_
    refine (braced h ht).bind (fun _ => rfl) fun r r' u u' _ hr hu => .pure hu ?_
    rw [Statement.unplaced, Statement.unplaced, List.map_reverse, List.map_reverse, hvs, hr]

theorem loopVariable (hs : Joined tail free s s') :
    Alongside tail free free Parser.loopVariable Parser.loopVariable s s' fun a b => a.unplaced = b.unplaced := by
  refine (identifier hs).bind (fun _ => rfl) fun n m t t' _ hn ht => ?_
  refine (expect ht _ _).bind (fun _ => trivial) fun _ _ u u' _ _ hu => ?_
  exact (expression.along u u' hu).bind (fun _ => rfl) fun e f v v' _ he hv => .pure hv (binding hn he _ _)

theorem loop (h : AlongsideStatement tail free inner inner') (hs : Joined tail free s s') (hfront : front s ≠ .finish) :
    Alongside tail free free (Parser.loop inner) (Parser.loop inner') s s' fun c d => c.unplaced = d.unplaced := by
  refine .advance hfront ((separatedByCommas (f := Binding.unplaced) (fun _ _ => loopVariable) (hs.behind hfront)).bind
    (fun _ => rfl) fun as bs t t' _ has ht => ?_)
  refine (braced h ht).bind (fun _ => rfl) fun r r' u u' _ hr hu => .pure hu ?_
  rw [Statement.unplaced, Statement.unplaced, has, hr]

/-- No operand begins with such a token. -/
theorem operand_stops {inner : Parser Expr} {k : Token} (hfront : front s = k)
    (hk : k = .finish ∨ ∃ x, k = .symbol x ∧ x ≠ .leftParen) :
    Yields (fun _ => True) (Parser.operand inner) s fun _ _ => False := by
  refine Yields.bind (Q := fun _ _ => False) (.currentSpan (.current ?_)) fun _ _ h => h.elim
  rw [hfront]
  rcases hk with rfl | ⟨x, rfl, hx⟩
  · exact .anyUnexpected _
  · split
    · next h => cases h
    · next h => cases h
    · next h => cases h
    · next h => cases h
    · next h => exact absurd (Token.symbol.inj h) hx
    · exact .anyUnexpected _

theorem define_stops {k : Token} (hfront : front s = k) (hk : k = .finish ∨ ∃ x, k = .symbol x ∧ x ≠ .leftParen) :
    Yields (fun _ => True) Parser.define s fun _ _ => False :=
  (operand_stops hfront hk).bind fun _ _ h => h.elim

theorem statementWithin_stops (allowed : Nat) : StopsAtEnd (Parser.statementWithin allowed) := by
  intro s _ hfront
  cases allowed with
  | zero => exact .stops _
  | succ allowed =>
    refine .current ?_
    rw [hfront]
    exact define_stops hfront (.inl rfl)

theorem statementWithin (none : NoAxis tail.lexemes) {few many : Nat} (hmany : few ≤ many) :
    AlongsideStatement tail free (Parser.statementWithin few) (Parser.statementWithin many) := by
  induction few generalizing many with
  | zero => exact fun _ _ _ => .stops (.stops _)
  | succ few ih =>
    obtain ⟨many, rfl⟩ : ∃ n, many = n + 1 := ⟨many - 1, by omega⟩
    have inner : AlongsideStatement tail free (Parser.statementWithin few) (Parser.statementWithin many) :=
      ih (by omega)
    intro s s' hs
    by_cases hfront : front s = .finish
    · exact .stops (statementWithin_stops _ s hs.ordered hfront)
    have hbehind := hs.behind hfront
    have defines := (define hs).mono fun _ _ h => h.1
    refine .current ?_
    rw [hs.front_eq hfront]
    split
    · exact collect none _ hs hfront
    · exact collect none _ hs hfront
    · exact collect none _ hs hfront
    · exact collect none _ hs hfront
    · exact .advance hfront (source inner _ _ _ hbehind)
    · next htoken =>
      -- This is the only statement for which the lexeme behind the first one is looked at.
      by_cases hnext : front (behind s) = .finish
      · refine .stops (.get (.ite (fun hsource => ?_) fun _ => define_stops htoken (.inr ⟨_, rfl, nofun⟩)))
        rw [← hs.ordered.front_behind hfront, hnext] at hsource
        cases hsource
      · refine .get ?_
        rw [hs.second_eq hfront, ← hs.ordered.front_behind hfront, hbehind.front_eq hnext]
        refine .ite (fun _ => ?_) fun _ => defines
        exact .advance hfront (.advance hnext (source inner _ _ _ (hbehind.behind hnext)))
    · exact region none inner hs hfront
    · exact vary inner hs hfront
    · exact loop inner hs hfront
    · exact defines

theorem statement (none : NoAxis tail.lexemes) : AlongsideStatement tail free Parser.statement Parser.statement :=
  fun s s' hs => .get (statementWithin none (Nat.succ_le_succ hs.length_le) s s' hs)

end Alongside

end RecordStats.Parser
