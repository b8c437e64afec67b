import RecordStats.Proofs.Grammar.ReadExpression

/-! Reading functions and their bodies, and with them everything that is written. -/

namespace RecordStats

open RecordStats.Parser

/-! ### Names that differ in their places -/

theorem Name.texts_of_unplaced {ps qs : List Name} (h : qs.map Name.unplaced = ps.map Name.unplaced) :
    qs.map Name.text = ps.map Name.text := by
  have texts := congrArg (List.map Name.text) h
  simpa only [List.map_map, Function.comp_def, Name.unplaced] using texts

namespace Expr

theorem unplacedBody_cons (d : Statement) (rest : List Statement) :
    unplacedBody (d :: rest) = unplacedBody [d] ++ unplacedBody rest := by
  cases d <;> rfl

theorem unplacedBody_append (body rest : List Statement) :
    unplacedBody (body ++ rest) = unplacedBody body ++ unplacedBody rest := by
  induction body with
  | nil => rfl
  | cons d body ih => rw [List.cons_append, unplacedBody_cons, ih, unplacedBody_cons d body, List.append_assoc]

end Expr

variable {e : Expr} {body rest : List Statement} {ps : List Name} {ts us vs head : List Token}
variable {s more : List Lexeme} {r : Lexeme}

/-! ### Heads of functions -/

/-- Names and commas are passed over when parameters are looked for. -/
theorem parametersAhead_skip {rest : List Lexeme}
    (h : ∀ t ∈ s.map Lexeme.token, (∃ x, t = .name x) ∨ t = .symbol .comma) :
    parametersAhead (s ++ rest) = parametersAhead rest := by
  induction s with
  | nil => rfl
  | cons l s ih =>
    obtain ⟨hl, hs⟩ := List.forall_mem_cons.mp h
    rw [List.cons_append, parametersAhead]
    rcases hl with ⟨x, hl⟩ | hl <;> rw [hl] <;> exact ih hs

theorem Token.mem_listed_names {t : Token} (h : t ∈ Token.listed (Token.names ps)) :
    (∃ x, t = .name x) ∨ t = .symbol .comma := by
  induction ps with
  | nil => cases h
  | cons p ps ih =>
    rw [Token.names, List.map_cons, Token.listed_cons] at h
    rcases List.mem_append.mp h with h | h
    · exact .inl ⟨p.text, List.mem_singleton.mp h⟩
    · split at h
      · cases h
      · rcases List.mem_cons.mp h with h | h
        · exact .inr h
        · exact ih h

theorem ReadsItem.names (ps : List Name) :
    List.Forall₂ (ReadsItem identifier Name.unplaced) (ps.map Name.unplaced) (Token.names ps) := by
  induction ps with
  | nil => exact .nil
  | cons p ps ih =>
    refine .cons ⟨⟨_, _, rfl, rfl⟩, fun hs _ => ?_⟩ ih
    obtain ⟨n, rfl, hn⟩ := List.map_eq_singleton_iff.mp hs
    refine (Yields.named (s := []) hn).mono ?_
    rintro _ _ ⟨rfl, rfl⟩
    exact ⟨rfl, rfl⟩

namespace WrittenHead

/-- A head before an arrow is a function ahead. -/
theorem ahead (h : WrittenHead ps head) (hs : s.map Lexeme.token = head) (hr : r.token = .symbol .rightArrow) :
    functionAhead (s ++ r :: more) = true := by
  have arrow : r.token.isSymbol .rightArrow = true := by rw [hr]; rfl
  cases h with
  | single p =>
    obtain ⟨k, rfl, hk⟩ := List.map_eq_singleton_iff.mp hs
    rw [functionAhead, show front ([k] ++ r :: more) = k.token from rfl, hk]
    exact arrow
  | several ps =>
    obtain ⟨k, w, rfl, hk, hw⟩ := List.map_eq_cons_iff.mp hs
    obtain ⟨t, c, v, rfl, ht, hc, hv⟩ := Lexeme.split hw
    obtain rfl := List.map_eq_nil_iff.mp hv
    rw [functionAhead, show front (k :: (t ++ [c]) ++ r :: more) = k.token from rfl, hk]
    show parametersAhead (t ++ [c] ++ r :: more) = true
    rw [List.append_assoc, parametersAhead_skip fun t h => Token.mem_listed_names (ht ▸ h)]
    rw [List.singleton_append, parametersAhead, hc]
    exact arrow

theorem reads (h : WrittenHead ps head) (hs : s.map Lexeme.token = head) :
    Gives parameters (s ++ r :: more) fun qs t => qs.map Name.unplaced = ps.map Name.unplaced ∧ t = r :: more := by
  cases h with
  | single p =>
    obtain ⟨k, rfl, hk⟩ := List.map_eq_singleton_iff.mp hs
    refine .sees ?_
    rw [show front ([k] ++ r :: more) = k.token from rfl, hk]
    exact .skipName (s := []) hk (.pure ⟨rfl, rfl⟩)
  | several ps =>
    obtain ⟨k, w, rfl, hk, hw⟩ := List.map_eq_cons_iff.mp hs
    obtain ⟨t, c, v, rfl, ht, hc, hv⟩ := Lexeme.split hw
    obtain rfl := List.map_eq_nil_iff.mp hv
    refine .sees ?_
    rw [show front (k :: (t ++ [c]) ++ r :: more) = k.token from rfl, hk, List.cons_append, List.append_assoc]
    refine .skip (.bind (.get (ReadsItem.listed (ReadsItem.names ps) ht ?_ hc)) ?_)
    · rw [List.length_append]
      omega
    · rintro qs _ ⟨hqs, rfl⟩
      exact .skip (s := []) (.pure ⟨hqs, rfl⟩)

end WrittenHead

theorem distinctParameters_go {qs : List Name} {seen : List String} (distinct : (qs.map Name.text).Nodup)
    (unseen : ∀ q ∈ qs, q.text ∉ seen) : Gives (distinctParameters.go seen qs) s fun _ t => t = s := by
  induction qs generalizing seen with
  | nil => exact .pure rfl
  | cons q qs ih =>
    obtain ⟨hq, hqs⟩ := List.forall_mem_cons.mp unseen
    obtain ⟨first, distinct⟩ := List.nodup_cons.mp distinct
    rw [distinctParameters.go, if_neg hq]
    refine ih distinct fun p hp hmem => ?_
    rcases List.mem_cons.mp hmem with heq | hmem
    · exact first (heq ▸ List.mem_map_of_mem hp)
    · exact hqs p hp hmem

/-- Parameters with the texts of different names are different names. -/
theorem distinctParameters_reads {qs : List Name} (distinct : (ps.map Name.text).Nodup)
    (h : qs.map Name.unplaced = ps.map Name.unplaced) : Gives (distinctParameters qs) s fun _ t => t = s :=
  distinctParameters_go (by rw [Name.texts_of_unplaced h]; exact distinct) fun _ _ => List.not_mem_nil

/-! ### Functions -/

/-- The tokens are read as the function's body. -/
def ReadsBody (body : List Statement) (ts : List Token) : Prop :=
  ∀ (depth allowed : Nat) (s : List Lexeme) (r : Lexeme) (more : List Lexeme),
    s.map Lexeme.token = ts → ts.length < depth → ts.length < allowed → r.token.Closes .function →
    Gives (bodyWithin (expressionWithin depth) allowed) (s ++ r :: more) fun b t =>
      Expr.unplacedBody b.1 = Expr.unplacedBody body ∧ t = r :: more

theorem Reads.lambda (distinct : (ps.map Name.text).Nodup) (parameters : WrittenHead ps head) (h : ReadsBody body ts)
    (span : Span) : Reads .function (.lambda ps body span) (head ++ .symbol .rightArrow :: ts) := by
  intro depth allowed w r more Q hw deep many closed hQ
  obtain ⟨s, k, t, rfl, hs, hk, ht⟩ := Lexeme.split hw
  have hhead : 0 < head.length := by cases parameters <;> exact Nat.succ_pos _
  rw [List.length_append, List.length_cons] at deep
  rw [List.append_assoc, List.cons_append]
  refine .get ?_
  rw [parameters.ahead hs hk]
  refine .currentSpan (.bind (parameters.reads hs) ?_)
  rintro qs _ ⟨hqs, rfl⟩
  refine .skipSymbol hk (.bind (distinctParameters_reads distinct hqs) ?_)
  rintro _ _ rfl
  have long : ts.length < (t ++ r :: more).length + 1 := by
    rw [← ht, List.length_map, List.length_append]
    omega
  refine .bind (.get (h depth _ t r more ht (by omega) long closed)) ?_
  rintro ⟨b, stop⟩ _ ⟨hb, rfl⟩
  exact hQ _ _ (Nat.lt_succ_self _) (by rw [Expr.unplaced, Expr.unplaced, hqs, hb])

/-! ### Bodies -/

theorem ReadsBody.result (written : Written .function e ts) (h : Reads .function e ts) (span : Span) :
    ReadsBody [.result e span] ts := by
  intro depth allowed s r more hs deep many closed
  obtain ⟨allowed, rfl⟩ : ∃ n, allowed = n + 1 := ⟨allowed - 1, by omega⟩
  have plain : (front (s ++ r :: more)).isSymbol .leftBrace = false := written.front_ne hs (fun h => h)
  refine .sees ?_
  rw [plain]
  refine .bind (h.within hs deep closed) ?_
  rintro f _ ⟨hf, rfl⟩
  exact .pure ⟨by simp only [Expr.unplacedBody, hf], rfl⟩

/-- What is left of a body before its closing brace is read as the statements; a semicolon may stand before it. -/
def ReadsStatements (body : List Statement) (ts : List Token) : Prop :=
  ∀ (depth allowed steps : Nat) (sofar : List Statement) (separated : Bool) (lead s : List Lexeme) (r : Lexeme)
    (more : List Lexeme), lead = [] ∧ separated = true ∨ lead.map Lexeme.token = [.symbol .semicolon] →
    s.map Lexeme.token = ts → ts.length < depth → ts.length < allowed → ts.length < steps →
    r.token = .symbol .rightBrace → sofar.head?.any Statement.isResult = false →
    Gives (repeatWithin (bodyStep (expressionWithin depth) (bodyWithin (expressionWithin depth) allowed)) steps
      (sofar, separated)) (lead ++ (s ++ r :: more)) fun b t =>
        Expr.unplacedBody b.1.reverse = Expr.unplacedBody sofar.reverse ++ Expr.unplacedBody body ∧
          b.1.head?.any Statement.isResult = true ∧ t = r :: more

theorem ReadsBody.braced (h : ReadsStatements body ts) :
    ReadsBody body (.symbol .leftBrace :: (ts ++ [.symbol .rightBrace])) := by
  intro depth allowed w r more hw deep many closed
  obtain ⟨k, w, rfl, hk, hw⟩ := List.map_eq_cons_iff.mp hw
  obtain ⟨s, c, v, rfl, hs, hc, hv⟩ := Lexeme.split hw
  obtain rfl := List.map_eq_nil_iff.mp hv
  obtain ⟨allowed, rfl⟩ : ∃ n, allowed = n + 1 := ⟨allowed - 1, by omega⟩
  simp only [List.length_cons, List.length_append, List.length_nil] at deep many
  have long : ts.length < (s ++ c :: r :: more).length + 1 := by
    rw [← hs, List.length_map, List.length_append]
    omega
  refine .sees ?_
  rw [show front (k :: (s ++ [c]) ++ r :: more) = k.token from rfl, hk, List.cons_append, List.append_assoc]
  refine .skip (.bind (.get (h depth allowed _ [] true [] s c (r :: more) (.inl ⟨rfl, rfl⟩) hs (by omega) (by omega)
    long hc rfl)) ?_)
  rintro ⟨reversed, separated⟩ _ ⟨hbody, hresult, rfl⟩
  refine .skip (s := []) ?_
  rw [hresult]
  exact .pure ⟨hbody, rfl⟩

/-! ### Statements of a body -/

theorem semicolons_reads {lead : List Lexeme} {separated : Bool}
    (hlead : lead = [] ∧ separated = true ∨ lead.map Lexeme.token = [.symbol .semicolon])
    (hrest : (front (s ++ r :: more)).isSymbol .semicolon = false) :
    Gives semicolons (lead ++ (s ++ r :: more)) fun b t => (b || separated) = true ∧ t = s ++ r :: more := by
  have stop {b : Bool} {steps : Nat} : Gives (repeatWithin (fun _ => do
      if ← sees .semicolon then
        let _ ← advance
        return some true
      else return none) (steps + 1) b) (s ++ r :: more) fun c t => c = b ∧ t = s ++ r :: more :=
    .stop (.sees (by rw [hrest]; exact .pure ⟨rfl, rfl⟩))
  rcases hlead with ⟨rfl, rfl⟩ | hlead
  · refine .get (stop.mono ?_)
    rintro b _ ⟨rfl, rfl⟩
    exact ⟨Bool.or_true _, rfl⟩
  · obtain ⟨k, rfl, hk⟩ := List.map_eq_singleton_iff.mp hlead
    refine .get (.again (R := fun b t => b = true ∧ t = s ++ r :: more) (.sees ?_) ?_)
    · rw [show front ([k] ++ (s ++ r :: more)) = k.token from rfl, hk]
      exact .skip (.pure ⟨true, rfl, rfl, rfl⟩)
    · rintro _ _ ⟨rfl, rfl⟩
      refine stop.mono ?_
      rintro _ _ ⟨rfl, rfl⟩
      exact ⟨rfl, rfl⟩

/-- A statement of a body begins with an expression. -/
theorem bodyStep_reads {inner : Parser Expr} {read : Parser (List Statement × Span)} {sofar : List Statement}
    {separated : Bool} {lead : List Lexeme} {Q : Option (List Statement × Bool) → List Lexeme → Prop}
    (hlead : lead = [] ∧ separated = true ∨ lead.map Lexeme.token = [.symbol .semicolon])
    (written : Written .function e ts) (hs : s.map Lexeme.token = ts)
    (unfinished : sofar.head?.any Statement.isResult = false)
    (h : Gives (do
      let expression ← inner
      if ← sees .define then
        let statement ← definition inner read expression
        return some (statement :: sofar, false)
      return some (.result expression expression.span :: sofar, false)) (s ++ r :: more) Q) :
    Gives (bodyStep inner read (sofar, separated)) (lead ++ (s ++ r :: more)) Q := by
  have closing : (front (s ++ r :: more)).isSymbol .rightBrace = false := written.front_ne hs fun h => h
  refine .bind (semicolons_reads hlead (written.front_ne hs fun h => h)) ?_
  rintro b _ ⟨hb, rfl⟩
  refine .sees ?_
  rw [closing, unfinished]
  refine .bind (Q := fun _ t => t = s ++ r :: more) ?_ ?_
  · refine .onNewLine fun newline => ?_
    rw [hb]
    exact .pure rfl
  · rintro _ _ rfl
    exact h

/-- A body ends at a closing brace. -/
theorem bodyStep_closed {inner : Parser Expr} {read : Parser (List Statement × Span)} {sofar : List Statement}
    (hr : r.token = .symbol .rightBrace) :
    Gives (bodyStep inner read (sofar, false)) (r :: more) fun o t => o = none ∧ t = r :: more := by
  refine .bind (Q := fun _ t => t = r :: more) (.get (.mono (.stop (.sees ?_)) fun _ _ h => h.2)) ?_
  · rw [show front (r :: more) = r.token from rfl, hr]
    exact .pure ⟨rfl, rfl⟩
  · rintro b _ rfl
    refine .sees ?_
    rw [show front (r :: more) = r.token from rfl, hr]
    exact .pure ⟨rfl, rfl⟩

namespace ReadsStatements

theorem result (written : Written .function e ts) (h : Reads .function e ts) (span : Span) :
    ReadsStatements [.result e span] ts := by
  intro depth allowed steps sofar separated lead s r more hlead hs deep many long hr unfinished
  have hpos := written.length_pos
  obtain ⟨steps, rfl⟩ : ∃ n, steps = n + 2 := ⟨steps - 2, by omega⟩
  refine .again (R := fun b t => ∃ f : Expr, f.unplaced = e.unplaced ∧ b = (.result f f.span :: sofar, false) ∧
    t = r :: more) (bodyStep_reads hlead written hs unfinished ?_) ?_
  · refine .bind (h.within hs deep (by rw [hr]; decide)) ?_
    rintro f _ ⟨hf, rfl⟩
    refine .sees ?_
    rw [show front (r :: more) = r.token from rfl, hr]
    exact .pure ⟨_, rfl, f, hf, rfl, rfl⟩
  · rintro _ _ ⟨f, hf, rfl, rfl⟩
    refine (Yields.stop (bodyStep_closed hr)).mono ?_
    rintro _ _ ⟨rfl, rfl⟩
    refine ⟨?_, rfl, rfl⟩
    rw [List.reverse_cons, Expr.unplacedBody_append]
    simp only [Expr.unplacedBody, hf]

/-- A definition, a semicolon, and the statements after it. -/
theorem defined {target : Expr} {d : Statement} (written : Written .function target ts)
    (h : Reads .function target ts)
    (hd : ∀ (depth allowed : Nat) (f : Expr) (k : Lexeme) (s : List Lexeme) (r : Lexeme) (more : List Lexeme),
      us.length < depth → us.length < allowed → f.unplaced = target.unplaced → k.token = .symbol .define →
      s.map Lexeme.token = us → r.token.Closes .function →
      Gives (definition (expressionWithin depth) (bodyWithin (expressionWithin depth) allowed) f)
        (k :: (s ++ r :: more)) fun d' t =>
          Expr.unplacedBody [d'] = Expr.unplacedBody [d] ∧ d'.isResult = false ∧ t = r :: more)
    (h' : ReadsStatements rest vs) :
    ReadsStatements (d :: rest) (ts ++ .symbol .define :: (us ++ .symbol .semicolon :: vs)) := by
  intro depth allowed steps sofar separated lead w r more hlead hw deep many long hr unfinished
  obtain ⟨s, k, w, rfl, hs, hk, hw⟩ := Lexeme.split hw
  obtain ⟨t, c, v, rfl, ht, hc, hv⟩ := Lexeme.split hw
  obtain ⟨steps, rfl⟩ : ∃ n, steps = n + 1 := ⟨steps - 1, by omega⟩
  simp only [List.length_append, List.length_cons] at deep many long
  rw [List.append_assoc, List.cons_append, List.append_assoc, List.cons_append]
  refine .again (R := fun b u => ∃ d', Expr.unplacedBody [d'] = Expr.unplacedBody [d] ∧ d'.isResult = false ∧
    b = (d' :: sofar, false) ∧ u = c :: (v ++ r :: more)) (bodyStep_reads hlead written hs unfinished ?_) ?_
  · refine .bind (h.within hs (by omega) (by rw [hk]; decide)) ?_
    rintro f _ ⟨hf, rfl⟩
    refine .sees ?_
    rw [show front (k :: (t ++ c :: (v ++ r :: more))) = k.token from rfl, hk]
    refine .bind (hd depth allowed f k t c _ (by omega) (by omega) hf hk ht (by rw [hc]; decide)) ?_
    rintro d' _ ⟨hd', plain, rfl⟩
    exact .pure ⟨_, rfl, d', hd', plain, rfl, rfl⟩
  · rintro _ _ ⟨d', hd', plain, rfl, rfl⟩
    refine (h' depth allowed steps (d' :: sofar) false [c] v r more (.inr (by rw [List.map_singleton, hc])) hv
      (by omega) (by omega) (by omega) hr plain).mono ?_
    rintro b _ ⟨hb, hresult, rfl⟩
    refine ⟨?_, hresult, rfl⟩
    rw [hb, List.reverse_cons, Expr.unplacedBody_append, hd', List.append_assoc, ← Expr.unplacedBody_cons]

end ReadsStatements

/-! ### Definitions -/

theorem Reads.definition {x : Name} {f : Expr} {k : Lexeme} {depth : Nat} {read : Parser (List Statement × Span)}
    (h : Reads .function e us) (hf : f.unplaced = (Expr.name x.text x.span).unplaced) (hk : k.token = .symbol .define)
    (hs : s.map Lexeme.token = us) (deep : us.length < depth) (closed : r.token.Closes .function) (span : Span) :
    Gives (Parser.definition (expressionWithin depth) read f) (k :: (s ++ r :: more)) fun d t =>
      Expr.unplacedBody [d] = Expr.unplacedBody [.define x e span] ∧ d.isResult = false ∧ t = r :: more := by
  obtain ⟨place, rfl⟩ : ∃ place, f = .name x.text place := by
    cases f with
    | name text place => exact ⟨place, by cases hf; rfl⟩
    | _ => cases hf
  refine .skipSymbol hk (.bind (h.within hs deep closed) ?_)
  rintro g _ ⟨hg, rfl⟩
  exact .pure ⟨by simp only [Expr.unplacedBody, Name.unplaced, hg], rfl, rfl⟩

/-- The names that a head written as a call gives. -/
theorem mapM_name_reads {es : List Expr}
    (h : es.map Expr.unplaced = ps.map fun p => (Expr.name p.text p.span).unplaced) :
    Gives (es.mapM fun argument : Expr => (match argument.name? with
      | some text => Pure.pure (Name.mk text argument.span)
      | none => Parser.fault .invalidTarget argument.span : Parser Name)) s
      fun qs t => qs.map Name.unplaced = ps.map Name.unplaced ∧ t = s := by
  induction es generalizing ps with
  | nil =>
    obtain rfl := List.map_eq_nil_iff.mp h.symm
    rw [List.mapM_nil]
    exact .pure ⟨rfl, rfl⟩
  | cons e es ih =>
    obtain ⟨p, ps, rfl, hp, hps⟩ := List.map_eq_cons_iff.mp h.symm
    rw [List.mapM_cons]
    refine .bind (Q := fun q t => q.unplaced = p.unplaced ∧ t = s) ?_ ?_
    · rw [Expr.name?_of_unplaced hp.symm]
      exact .pure ⟨rfl, rfl⟩
    · rintro q _ ⟨hq, rfl⟩
      refine .bind (ih hps.symm) ?_
      rintro qs _ ⟨hqs, rfl⟩
      exact .pure ⟨by rw [List.map_cons, List.map_cons, hq, hqs], rfl⟩

theorem ReadsBody.definition {name : Name} {f : Expr} {k : Lexeme} {depth allowed : Nat} {place : Span}
    (h : ReadsBody body us) (distinct : (ps.map Name.text).Nodup)
    (hf : f.unplaced = (Expr.call (.name name.text name.span) (ps.map fun p => .name p.text p.span) place).unplaced)
    (hk : k.token = .symbol .define) (hs : s.map Lexeme.token = us) (deep : us.length < depth)
    (many : us.length < allowed) (closed : r.token.Closes .function) (span : Span) :
    Gives (Parser.definition (expressionWithin depth) (bodyWithin (expressionWithin depth) allowed) f)
      (k :: (s ++ r :: more)) fun d t =>
        Expr.unplacedBody [d] = Expr.unplacedBody [.function name ps body span] ∧ d.isResult = false ∧
          t = r :: more := by
  obtain ⟨callee, es, place, rfl⟩ : ∃ callee es place, f = .call callee es place := by
    cases f with
    | call callee es place => exact ⟨callee, es, place, rfl⟩
    | _ => cases hf
  obtain ⟨hcallee, hes⟩ : callee.unplaced = (Expr.name name.text name.span).unplaced ∧
      es.map Expr.unplaced = ps.map fun p => (Expr.name p.text p.span).unplaced := by
    simp only [Expr.unplaced, Expr.unplacedAll_eq_map, List.map_map, Expr.call.injEq, and_true] at hf
    exact hf
  have hname : callee.name? = some name.text := Expr.name?_of_unplaced hcallee
  refine .skipSymbol hk ?_
  dsimp only
  rw [hname]
  refine .bind (mapM_name_reads hes) ?_
  rintro qs _ ⟨hqs, rfl⟩
  refine .bind (distinctParameters_reads distinct hqs) ?_
  rintro _ _ rfl
  refine .bind (h depth allowed s r more hs deep many closed) ?_
  rintro ⟨b, stop⟩ _ ⟨hb, rfl⟩
  exact .pure ⟨by simp only [Expr.unplacedBody, Name.unplaced, hqs, hb], rfl, rfl⟩

/-! ### Everything written -/

mutual

/-- What is written is read. -/
theorem Written.reads : ∀ {l : Level} {e : Expr} {ts : List Token}, Written l e ts → Reads l e ts
  | _, _, _, .looser h le => h.reads.looser h le
  | _, _, _, .bracketed h => h.reads.bracketed
  | _, _, _, .integer s _ => .integer _ s
  | _, _, _, .negative s below h => .negative below h s
  | _, _, _, .string text s => .string text s
  | _, _, _, .name text s => .name text s
  | _, _, _, .member text s t receiver => receiver.reads.member text s t
  | _, _, _, .item s receiver index => receiver.reads.item index.reads s
  | _, _, _, .call s callee arguments => callee.reads.call arguments.reads s
  | _, _, _, .unary s one apart operand => .unary one apart operand.reads s
  | _, _, _, .binary s sides first second => .binary sides first first.reads second.reads s
  | _, _, _, .lambda s distinct parameters inner => .lambda distinct parameters inner.reads s

theorem WrittenAll.reads : ∀ {es : List Expr} {tss : List (List Token)}, WrittenAll es tss →
    List.Forall₂ (fun e us => Written .function e us ∧ Reads .function e us) es tss
  | _, _, .nil => .nil
  | _, _, .cons first rest => .cons ⟨first, first.reads⟩ rest.reads

theorem WrittenBody.reads : ∀ {body : List Statement} {ts : List Token}, WrittenBody body ts → ReadsBody body ts
  | _, _, .result s h => .result h h.reads s
  | _, _, .braced h => .braced h.reads

theorem WrittenStatements.reads : ∀ {body : List Statement} {ts : List Token}, WrittenStatements body ts →
    ReadsStatements body ts
  | _, _, .result s h => .result h h.reads s
  | _, _, .define s target value others =>
    .defined target target.reads (fun _ _ _ _ _ _ _ deep _ hf hk hs closed =>
      value.reads.definition hf hk hs deep closed s) others.reads
  | _, _, .function s _ distinct target inner others =>
    .defined target target.reads (fun _ _ _ _ _ _ _ deep many hf hk hs closed =>
      inner.reads.definition distinct hf hk hs deep many closed s) others.reads

end

end RecordStats
