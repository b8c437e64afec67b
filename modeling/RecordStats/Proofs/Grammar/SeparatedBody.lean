import RecordStats.Proofs.Grammar.Separated

/-! The body of a function. Between its braces, assignments are read as the statements that a text is read as, and what
    stands behind them as the expression that another text is read as. -/

namespace RecordStats

/-! ### Definitions and results -/

namespace Statement

theorem isResult_unplaced (d : Statement) : d.unplaced.isResult = d.isResult := by
  cases d <;> rfl

theorem not_isResult_of_definition {d : Statement} (h : d.isDefinition = true) : d.isResult = false := by
  cases d with
  | define | function => rfl
  | _ => cases h

/-- What comes to definitions ends with no result. -/
theorem head_not_isResult {block block' : List Statement} (hblock : unplacedBlock block' = unplacedBlock block)
    (definitions : ∀ d ∈ block, d.isDefinition = true) : block'.head?.any isResult = false := by
  cases block' with
  | nil => rfl
  | cons c block' =>
    cases block with
    | nil => cases hblock
    | cons d block =>
      have head : c.unplaced = d.unplaced := (List.cons.inj hblock).1
      show c.isResult = false
      rw [← isResult_unplaced, head, isResult_unplaced]
      exact not_isResult_of_definition (definitions d List.mem_cons_self)

end Statement

namespace Parser

variable {s s' t t' : List Lexeme} {inner : Parser Expr} {read : Parser (List Statement × Span)} {tail : Tail}
  {free : Prop} {most : Nat}

/-! ### Operands where expressions are read -/

section Operand

variable {e : Expr} {r : Lexeme} {more : List Lexeme}

theorem leftGrouped_operand {l m : Level} {operators : List (Symbol × Operator)} {operand : Parser Expr → Parser Expr}
    (g : l.Groups m operators operand) (closed : r.token.Closes l)
    (h : Gives (operand inner) s fun f t => f = e ∧ t = r :: more) :
    Gives (leftGrouped operators (operand inner)) s fun f t => f = e ∧ t = r :: more := by
  rw [leftGrouped_eq]
  refine h.bind ?_
  rintro _ _ ⟨rfl, rfl⟩
  refine .get ?_
  rw [← g.resume]
  exact g.resume_closed closed

/-- A comparison is an expression before a token that goes on with none. -/
theorem disjunction_comparison (hnot : front s ≠ .symbol .not)
    (h : Gives (comparison inner) s fun f t => f = e ∧ t = r :: more) (hr : r.token.level? = none) :
    Gives (disjunction inner) s fun f t => f = e ∧ t = r :: more := by
  have hnegation : Gives (negation inner) s fun f t => f = e ∧ t = r :: more := by
    refine .get (.sees (.ite (fun hsees => ?_) fun _ => h))
    exact absurd (Token.eq_of_isSymbol hsees) hnot
  exact leftGrouped_operand Level.groups_disjunction (Token.closes_of_level? hr)
    (leftGrouped_operand Level.groups_conjunction (Token.closes_of_level? hr) hnegation)

/-- An operand is an expression before a token that goes on with none. -/
theorem disjunction_operand (hrun : operand inner s = .ok (e, r :: more)) (hr : r.token.level? = none) :
    Gives (disjunction inner) s fun f t => f = e ∧ t = r :: more := by
  have closed (l : Level) : r.token.Closes l := Token.closes_of_level? hr
  -- The operand has been read, so it begins with no sign and no negation; of the marks, only a parenthesis opens one.
  have hfront {x : Symbol} (hx : front s = .symbol x) : x = .leftParen := by
    by_contra hne
    exact (Alongside.operand_stops hx (.inr ⟨x, rfl, hne⟩)).of_eq hrun
  have hoperand : Gives (operand inner) s fun f t => f = e ∧ t = r :: more := by
    unfold Gives Yields
    rw [hrun]
    exact ⟨rfl, rfl⟩
  have hfactor : Gives (factor inner) s fun f t => f = e ∧ t = r :: more := by
    refine .get (.current ?_)
    split
    · next hplus => cases hfront hplus
    · next hminus => cases hfront hminus
    · refine hoperand.bind ?_
      rintro _ _ ⟨rfl, rfl⟩
      refine .sees ?_
      rw [show front (r :: more) = r.token from rfl, (closed .power).not_isSymbol rfl]
      exact .pure ⟨rfl, rfl⟩
  have hsum : Gives (sum inner) s fun f t => f = e ∧ t = r :: more :=
    leftGrouped_operand Level.groups_sum (closed _) (leftGrouped_operand Level.groups_product (closed _) hfactor)
  have hcomparison : Gives (comparison inner) s fun f t => f = e ∧ t = r :: more := by
    refine hsum.bind ?_
    rintro _ _ ⟨rfl, rfl⟩
    refine .bind (.get (Yields.stop (chainStep_closed (closed _)))) ?_
    rintro _ _ ⟨rfl, rfl⟩
    exact .pure ⟨rfl, rfl⟩
  exact disjunction_comparison (fun hnot => by cases hfront hnot) hcomparison hr

theorem expressionWithin_operand {depth : Nat} (hahead : functionAhead s = false)
    (hrun : operand (expressionWithin depth) s = .ok (e, r :: more)) (hr : r.token.level? = none) :
    expressionWithin (depth + 1) s = .ok (e, r :: more) := by
  have gives : Gives (expressionWithin (depth + 1)) s fun f t => f = e ∧ t = r :: more := by
    refine .get ?_
    rw [hahead]
    exact disjunction_operand hrun hr
  obtain ⟨_, _, hrun', rfl, rfl⟩ := gives.exists_ok
  exact hrun'

end Operand

/-! ### Parsers of expressions -/

/-- The parser reads expressions where at most so many lexemes are left. -/
def ReadsExpressions (inner : Parser Expr) (most : Nat) : Prop :=
  inner = expression ∨ ∃ depth, most < depth ∧ inner = expressionWithin depth

namespace ReadsExpressions

theorem within (h : ReadsExpressions inner most) (few : s.length ≤ most) :
    ∃ depth, s.length ≤ depth ∧ inner s = expressionWithin (depth + 1) s := by
  rcases h with rfl | ⟨depth, hdepth, rfl⟩
  · exact ⟨s.length, Nat.le_refl _, rfl⟩
  · obtain ⟨depth, rfl⟩ : ∃ n, depth = n + 1 := ⟨depth - 1, by omega⟩
    exact ⟨depth, by omega, rfl⟩

/-- Lexemes with a tail are read as the same expressions. -/
theorem reads [tail.Begins] (h : ReadsExpressions inner most) (few : tail.most < most) :
    Inner tail free free expression inner := by
  rcases h with rfl | ⟨depth, hdepth, rfl⟩
  · exact Alongside.expression
  · have whole : Inner tail free free expression expression := Alongside.expression
    refine ⟨whole.spans, whole.stops, fun s s' hs => ?_⟩
    have := hs.few
    exact fun e t hrun => (Alongside.expressionWithin (fun h => ⟨h, inferInstance⟩)
      (show s.length + 1 ≤ depth by omega)).along s s' hs e t hrun

end ReadsExpressions

/-! ### Steps of a body -/

/-- What a step of a body makes of the lexemes behind semicolons. -/
def bodyStepBehind (inner : Parser Expr) (read : Parser (List Statement × Span)) : StepBehind := fun body separated => do
  if ← sees .rightBrace then return none
  if body.head?.any Statement.isResult then unexpected "'\x7d' after the result expression"
  requireSeparator separated
  let expression ← inner
  if ← sees .define then
    let statement ← definition inner read expression
    return some (statement :: body, false)
  return some (.result expression expression.span :: body, false)

theorem bodyStep_eq (inner : Parser Expr) (read : Parser (List Statement × Span)) : bodyStep inner read =
    fun sofar => semicolons >>= fun b => bodyStepBehind inner read sofar.1 (b || sofar.2) := rfl

section Steps

variable {body : List Statement} {separated : Bool} {e : Expr} {d : Statement}

theorem bodyStep_brace (hfront : front s = .symbol .rightBrace) :
    bodyStepBehind inner read body separated s = .ok (none, s) := by
  have hsees : sees .rightBrace s = .ok (true, s) := by
    show Except.ok ((front s).isSymbol .rightBrace, s) = _
    rw [hfront]
    rfl
  exact bind_run hsees

theorem bodyStep_expression (hs : s ≠ []) (hfront : front s ≠ .symbol .rightBrace)
    (hbody : body.head?.any Statement.isResult = false) (apart : SetApart separated s) (hrun : inner s = .ok (e, t)) :
    bodyStepBehind inner read body separated s = (do
      if ← sees .define then
        let statement ← definition inner read e
        return some (statement :: body, false)
      return some (.result e e.span :: body, false) : Parser (Option (List Statement × Bool))) t := by
  have hsees : sees .rightBrace s = .ok (false, s) := by
    show Except.ok ((front s).isSymbol .rightBrace, s) = _
    rw [Bool.eq_false_iff.mpr fun h => hfront (Token.eq_of_isSymbol h)]
  refine (bind_run hsees).trans ?_
  rw [hbody]
  exact (bind_run (requireSeparator_run hs apart)).trans (bind_run hrun)

theorem bodyStep_define (hs : s ≠ []) (hfront : front s ≠ .symbol .rightBrace)
    (hbody : body.head?.any Statement.isResult = false) (apart : SetApart separated s) (hrun : inner s = .ok (e, t))
    (hdefine : front t = .symbol .define) (hdefinition : definition inner read e t = .ok (d, t')) :
    bodyStepBehind inner read body separated s = .ok (some (d :: body, false), t') := by
  have hsees : sees .define t = .ok (true, t) := by
    show Except.ok ((front t).isSymbol .define, t) = _
    rw [hdefine]
    rfl
  rw [bodyStep_expression hs hfront hbody apart hrun]
  exact (bind_run hsees).trans (bind_run hdefinition)

theorem bodyStep_result (hs : s ≠ []) (hfront : front s ≠ .symbol .rightBrace)
    (hbody : body.head?.any Statement.isResult = false) (apart : SetApart separated s) (hrun : inner s = .ok (e, t))
    (hdefine : front t ≠ .symbol .define) :
    bodyStepBehind inner read body separated s = .ok (some (.result e e.span :: body, false), t) := by
  have hsees : sees .define t = .ok (false, t) := by
    show Except.ok ((front t).isSymbol .define, t) = _
    rw [Bool.eq_false_iff.mpr fun h => hdefine (Token.eq_of_isSymbol h)]
  rw [bodyStep_expression hs hfront hbody apart hrun]
  exact bind_run hsees

end Steps

/-! ### Assignments before a tail -/

/-- The same lexemes, counted anew. -/
theorem Joined.count (h : Joined tail free s s') {tail' : Tail} (same : tail'.lexemes = tail.lexemes)
    (few : s.length ≤ tail'.most + 1) : Joined tail' free s s' where
  joins := same ▸ h.joins
  ordered := h.ordered
  balanced := h.balanced
  few := few
  apart := same ▸ h.apart

/-- What an assignment is made to is read as an expression before a tail. -/
theorem target_joined [tail.Begins] (h : ReadsExpressions inner most) (long : 2 ≤ tail.lexemes.length)
    (few : tail.most + tail.lexemes.length ≤ most) (hs : Joined tail free s s') {d : Statement}
    (hrun : define s = .ok (d, t)) : ∃ e e' u u', definition expression (functionBody expression) e u = .ok (d, t) ∧
      inner s' = .ok (e', u') ∧ e.unplaced = e'.unplaced ∧ front u' = .symbol .define ∧ Joined tail free u u' := by
  obtain ⟨e, u, hoperand, hdefine, hdefinition⟩ := operand_of_define hrun
  have hfront : front s ≠ .finish := fun hfinish => (Alongside.define_stops hfinish (.inl rfl)).of_eq hrun
  have hu : front u ≠ .finish := by rw [hdefine]; nofun
  have length := hs.joins.length_eq
  have some := List.length_pos_iff.mpr hs.ordered.ne_nil
  have hfew := hs.few
  obtain ⟨depth, hdepth, hinner⟩ := h.within (show s'.length ≤ most by omega)
  -- the allowance is for what is left here, and not for the whole text
  let here : Tail := { tail with most := s.length - 1 }
  have : here.Begins := ⟨(inferInstance : tail.Begins).begins⟩
  have within : ReadsExpressions (expressionWithin depth) (depth - 1) := .inr ⟨depth, by omega, rfl⟩
  have reads : Inner here free free expression (expressionWithin depth) :=
    within.reads (show s.length - 1 < depth - 1 by omega)
  have counted : Joined here free s s' := hs.count rfl (show s.length ≤ s.length - 1 + 1 by omega)
  obtain ⟨ordered, -, gives⟩ := Alongside.operand id reads.spans reads.along.inside s s' counted e u hoperand
  obtain ⟨e', u', hrun', he, hjoined⟩ := gives fun hfinish => absurd hfinish hu
  have hcount : u.length ≤ s.length - 1 + 1 := hjoined.few
  have joined : Joined tail free u u' := hjoined.count rfl (by omega)
  have hdefine' : front u' = .symbol .define := (joined.front_eq hu).trans hdefine
  have hahead : functionAhead s' = false :=
    (hs.functionAhead hfront).trans (functionAhead_of_define hs.ordered hrun)
  refine ⟨e, e', u, u', hdefinition, ?_, he, hdefine', joined⟩
  cases u' with
  | nil => cases hdefine'
  | cons r more =>
    have hr : r.token = .symbol .define := hdefine'
    rw [hinner]
    exact expressionWithin_operand hahead hrun' (by rw [hr]; rfl)

/-- In a body, assignments are read as they are in a block. -/
theorem bodyStep_along [tail.Begins] (h : ReadsExpressions inner most) (long : 2 ≤ tail.lexemes.length)
    (few : tail.most + tail.lexemes.length ≤ most)
    (hread : Alongside.AlongsideBody tail free free (functionBody expression) read) :
    StepsAlong tail free (fun d => d.isDefinition = true) [] (bodyStepBehind inner read) := by
  intro s s' d t block block' separated hs hfront _ hrun hlast apart definitions hblock
  have hd := definitions d List.mem_cons_self
  have hdefine : define s = .ok (d, t) := ((statementWithin_kind s.length).of_eq hrun).1 hd
  obtain ⟨e, e', u, u', hdefinition, hrun', he, hdefine', hu⟩ := target_joined h long few hs hdefine
  have along : AlongsideExpr tail free free expression inner := (h.reads (by omega)).along
  obtain ⟨-, -, gives⟩ := Alongside.definition along hread hu he d t hdefinition
  obtain ⟨d', t', hrun'', hd', ht⟩ := gives fun hfinish => (hlast hfinish).resolve_right fun hcount => by
    rw [Statement.not_bareCount_of_definition hd] at hcount
    cases hcount
  refine ⟨d', t', ?_, hd'.1, ht⟩
  refine bodyStep_define (hs.joins.ne_nil tail.some) ?_ ?_ apart hrun' hdefine' hrun''
  · rw [hs.front_eq hfront]
    exact front_ne_of_statement hrun (.inl rfl)
  · rw [List.append_nil] at hblock
    exact Statement.head_not_isResult hblock fun c hc => definitions c (List.mem_cons_of_mem _ hc)

/-! ### The result -/

/-- The lexemes of a text that is read as an expression. -/
structure ReadsResult (s : List Lexeme) (e : Expr) : Prop where
  ordered : InOrder s
  reads : ∃ t, expression s = .ok (e, t) ∧ front t = .finish

section Body

variable {e : Expr} {run run' : List Lexeme} {opening closing next : Lexeme} {rest : List Lexeme}

theorem ReadsResult.front_ne (h : ReadsResult s e) : front s ≠ .finish := fun hfinish => by
  obtain ⟨t, hrun, -⟩ := h.reads
  have stops : Stops expression s := .get (Alongside.expressionWithin_stops _ s h.ordered hfinish)
  exact stops.of_eq hrun

theorem ReadsResult.opens (h : ReadsResult s e) {x : Symbol} (hx : front s = .symbol x) : x.opens = true := by
  obtain ⟨t, hrun, -⟩ := h.reads
  exact (expression_opens hx).of_eq hrun

/-- Before a closing brace, an expression that is set apart is read as the result. -/
theorem stepsLoop_result (h : ReadsExpressions inner most) (hs : ReadsResult s e)
    (alike : List.Forall₂ Lexeme.Alike s.dropLast run) (closes : closing.token = .symbol .rightBrace)
    (few : (run ++ closing :: next :: rest).length ≤ most) {body : List Statement} {separated : Bool}
    (hbody : body.head?.any Statement.isResult = false)
    (apart : SetApart separated (run ++ closing :: next :: rest)) (left : Nat) :
    ∃ e', e'.unplaced = e.unplaced ∧
      stepsLoop (bodyStepBehind inner read) (left + 2) (body, separated) (run ++ closing :: next :: rest) =
        .ok (.result e' e'.span :: body, closing :: next :: rest) := by
  obtain ⟨t, hrun, hfinish⟩ := hs.reads
  have leads : Leads (closing :: next :: rest) := .plain (.inr (.inr closes))
  have plain : (front (closing :: next :: rest)).goesOn = false :=
    leads.goesOn (by rw [show front (closing :: _) = _ from closes]; nofun)
  let tail : Tail := ⟨closing :: next :: rest, List.cons_ne_nil _ _, leads.follows, s.length - 1⟩
  have : tail.Begins := ⟨leads.begins⟩
  obtain ⟨phrase, -⟩ := (TakesPhrase.expression s hs.ordered).of_eq hrun
  have some := List.length_pos_iff.mpr hs.ordered.ne_nil
  have joined : Joined tail True s (run ++ closing :: next :: rest) :=
    ⟨.of_alike hs.ordered alike _, hs.ordered, balanced_of_phrase phrase hfinish,
      show s.length ≤ s.length - 1 + 1 by omega, fun _ => .inl plain⟩
  have length : _ = s.length + (rest.length + 2) := joined.joins.length_eq
  have reads : Inner tail True True expression inner := h.reads (show s.length - 1 < most by omega)
  obtain ⟨-, -, gives⟩ := reads.along s _ joined e t hrun
  obtain ⟨e', t', hrun', he, ht⟩ := gives fun _ => trivial
  -- Nothing is left of the result where it is read, so all of the tail is left here.
  obtain rfl : t' = closing :: next :: rest := ht.eq_tail hfinish
  have hfront := joined.front_eq hs.front_ne
  have opens {x : Symbol} (hx : x.opens = false) : front (run ++ closing :: next :: rest) ≠ .symbol x := fun h => by
    rw [hs.opens (hfront.symm.trans h)] at hx
    cases hx
  refine ⟨e', he.symm, ?_⟩
  have ends : front (closing :: next :: rest) = .symbol .rightBrace := closes
  rw [stepsLoop_some (opens rfl) (bodyStep_result (joined.joins.ne_nil tail.some) (opens rfl) hbody apart hrun'
    (by rw [ends]; nofun))]
  exact stepsLoop_none (by rw [ends]; nofun) (bodyStep_brace ends) left

/-! ### Bodies -/

theorem bodyWithin_braces {whole : List Lexeme} {body : List Statement} {allowed : Nat} (some : whole ≠ [])
    (opens : opening.token = .symbol .leftBrace)
    (hloop : stepsLoop (bodyStepBehind inner (bodyWithin inner allowed)) (whole.length + 1) ([], true) whole =
      .ok (body, closing :: next :: rest))
    (hbody : body.head?.any Statement.isResult = true) :
    bodyWithin inner (allowed + 1) (opening :: whole) = .ok ((body.reverse, closing.span), next :: rest) := by
  obtain ⟨flag, hrepeat⟩ := stepsLoop_run hloop
  have repeats : Gives (repeating (bodyStep inner (bodyWithin inner allowed)) ([], true)) whole
      fun r t => r = (body, flag) ∧ t = closing :: next :: rest := by
    refine .get ?_
    unfold Yields
    rw [bodyStep_eq, hrepeat]
    exact ⟨rfl, rfl⟩
  have behind : behind (opening :: whole) = whole := by
    cases whole with
    | nil => exact absurd rfl some
    | cons => rfl
  have reads : Gives (bodyWithin inner (allowed + 1)) (opening :: whole)
      fun r t => r = (body.reverse, closing.span) ∧ t = next :: rest := by
    refine .sees ?_
    rw [show front (opening :: whole) = _ from opens]
    refine .advance ?_
    rw [behind]
    refine repeats.bind ?_
    rintro _ _ ⟨rfl, rfl⟩
    refine .skip (s := []) ?_
    rw [hbody]
    exact .pure ⟨rfl, rfl⟩
  obtain ⟨_, _, hrun, rfl, rfl⟩ := reads.exists_ok
  exact hrun

variable {block : List Statement}

/-- Assignments between braces, before others that end with the result. -/
theorem functionBody_joined {after : List Lexeme} (hs : ReadsBlock s block)
    (definitions : ∀ d ∈ block, d.isDefinition = true) (alike : List.Forall₂ Lexeme.Alike s.dropLast run)
    (opens : opening.token = .symbol .leftBrace)
    (h : ReadsExpressions inner (run ++ (after ++ closing :: next :: rest)).length)
    (begins : ∀ x, front (after ++ closing :: next :: rest) = .symbol x → x.begins = true)
    (free : (front (after ++ closing :: next :: rest)).goesOn = false ∨ Shut s)
    (hafter : ∀ read body separated left, body.head?.any Statement.isResult = false → ∃ e', e'.unplaced = e.unplaced ∧
      stepsLoop (bodyStepBehind inner read) (left + 2) (body, separated) (after ++ closing :: next :: rest) =
        .ok (.result e' e'.span :: body, closing :: next :: rest)) :
    ∃ body, functionBody inner (opening :: (run ++ (after ++ closing :: next :: rest))) =
        .ok ((body, closing.span), next :: rest) ∧
      Statement.unplacedBlock body = Statement.unplacedBlock block.reverse ++ [.result e.unplaced default] := by
  let tail : Tail := ⟨after ++ closing :: next :: rest, List.append_ne_nil_of_right_ne_nil _ (List.cons_ne_nil _ _),
    fun x hx => Symbol.follows_of_begins (begins x hx), s.length - 1⟩
  have : tail.Begins := ⟨begins⟩
  have some := List.length_pos_iff.mpr hs.ordered.ne_nil
  have joined : Joined tail True s (run ++ (after ++ closing :: next :: rest)) :=
    hs.joined alike (show s.length ≤ s.length - 1 + 1 by omega) fun _ => free
  have long : 2 ≤ tail.lexemes.length := by
    rw [show tail.lexemes = after ++ closing :: next :: rest from rfl, List.length_append, List.length_cons, List.length_cons]
    omega
  have length : _ = s.length + tail.lexemes.length := joined.joins.length_eq
  have few : tail.most + tail.lexemes.length ≤ (run ++ (after ++ closing :: next :: rest)).length := by
    rw [show tail.most = s.length - 1 from rfl]
    omega
  have hread : Alongside.AlongsideBody tail True True (functionBody expression)
      (bodyWithin inner (opening :: (run ++ (after ++ closing :: next :: rest))).length) := fun u u' hu => by
    have : u.length ≤ s.length - 1 + 1 := hu.few
    have reads : Inner tail True True expression inner := h.reads (by omega)
    refine fun r t hrun => Alongside.bodyWithin reads (show u.length + 1 ≤ _ from ?_) u u' hu r t hrun
    rw [List.length_cons]
    omega
  obtain ⟨few', _, hloop⟩ := hs.loop
  obtain ⟨body, separated, left, hbody, hleft, hright⟩ := stepsLoop_joined (bodyStep_along h long few hread) joined
    hloop ([], true) definitions (fun _ => .inl rfl) rfl (fun _ _ => .inl trivial)
    (Nat.le_succ_of_le joined.length_le)
  obtain ⟨left, rfl⟩ : ∃ n, left = n + 2 := ⟨left - 2, by omega⟩
  rw [List.append_nil] at hbody
  obtain ⟨e', he, hresult⟩ := hafter _ body separated left (Statement.head_not_isResult hbody definitions)
  refine ⟨(.result e' e'.span :: body).reverse, ?_, ?_⟩
  · exact bodyWithin_braces (joined.joins.ne_nil tail.some) opens (hright.trans hresult) rfl
  · rw [List.reverse_cons]
    simp only [Statement.unplacedBlock_eq_map, List.map_append, List.map_reverse] at hbody ⊢
    rw [hbody, List.map_singleton, Statement.unplaced, he]

/-- Assignments between braces, and the result on the lines behind them. The last assignment goes on with the result if that
    begins with a parenthesis or a sign. -/
theorem functionBody_line (hs : ReadsBlock s block) (definitions : ∀ d ∈ block, d.isDefinition = true)
    (ht : ReadsResult t e) (alike : List.Forall₂ Lexeme.Alike s.dropLast run)
    (alike' : List.Forall₂ Lexeme.Alike t.dropLast run') (newline : ∃ l ∈ run'.head?, l.afterNewline = true)
    (hlast : (front t).goesOn = false ∨ Shut s) (opens : opening.token = .symbol .leftBrace)
    (closes : closing.token = .symbol .rightBrace)
    (h : ReadsExpressions inner (run ++ (run' ++ closing :: next :: rest)).length) :
    ∃ body, functionBody inner (opening :: (run ++ (run' ++ closing :: next :: rest))) =
        .ok ((body, closing.span), next :: rest) ∧
      Statement.unplacedBlock body = Statement.unplacedBlock block.reverse ++ [.result e.unplaced default] := by
  obtain ⟨l, hl, hnewline⟩ := newline
  obtain ⟨more, rfl⟩ : ∃ more, run' = l :: more := by
    cases run' with
    | nil => cases hl
    | cons _ more =>
      cases hl
      exact ⟨more, rfl⟩
  have hfront : front (l :: more ++ closing :: next :: rest) = front t := by
    obtain ⟨k, hk, -⟩ := ht.ordered.eq_cons ht.front_ne
    rw [hk, List.dropLast_cons_of_ne_nil ht.ordered.behind.ne_nil] at alike'
    obtain ⟨hkl, -⟩ := List.forall₂_cons.mp alike'
    rw [hk]
    exact hkl.token.symm
  refine functionBody_joined hs definitions alike opens h (fun x hx => ?_) (hfront ▸ hlast)
    fun read body separated left hbody => ?_
  · rw [hfront] at hx
    exact Symbol.begins_of_opens (ht.opens hx)
  · refine stepsLoop_result h ht alike' closes ?_ hbody (.inr ⟨l, rfl, hnewline⟩) left
    simp only [List.length_append]
    omega

/-- Assignments between braces, and the result behind them and a semicolon. -/
theorem functionBody_semicolon {l : Lexeme} (hs : ReadsBlock s block) (definitions : ∀ d ∈ block, d.isDefinition = true)
    (ht : ReadsResult t e) (alike : List.Forall₂ Lexeme.Alike s.dropLast run) (hl : l.token = .symbol .semicolon)
    (alike' : List.Forall₂ Lexeme.Alike t.dropLast run') (opens : opening.token = .symbol .leftBrace)
    (closes : closing.token = .symbol .rightBrace)
    (h : ReadsExpressions inner (run ++ (l :: run' ++ closing :: next :: rest)).length) :
    ∃ body, functionBody inner (opening :: (run ++ (l :: run' ++ closing :: next :: rest))) =
        .ok ((body, closing.span), next :: rest) ∧
      Statement.unplacedBlock body = Statement.unplacedBlock block.reverse ++ [.result e.unplaced default] := by
  have hfront : front (l :: run' ++ closing :: next :: rest) = .symbol .semicolon := hl
  refine functionBody_joined hs definitions alike opens h (fun x hx => ?_) (.inl (by rw [hfront]; rfl))
    fun read body separated left hbody => ?_
  · rw [hfront] at hx
    cases hx
    rfl
  · have behind : behind (l :: run' ++ closing :: next :: rest) = run' ++ closing :: next :: rest := behind_append
    rw [stepsLoop_semicolon (by rw [behind]; rfl) hfront (left + 2), behind]
    refine stepsLoop_result h ht alike' closes ?_ hbody (.inl rfl) left
    simp only [List.length_append, List.length_cons]
    omega

end Body

end Parser

end RecordStats
