import RecordStats.Proofs.Grammar.AlongsideStatement

/-! What statements and expressions begin with. No statement begins with a token that goes on with an expression, apart
    from an opening parenthesis, and what an assignment begins with is neither an axis nor a function. -/

namespace RecordStats

/-! ### Kinds of statements -/

namespace Statement

/-- The statement binds a name. -/
def isDefinition : Statement → Bool
  | define _ _ _ | function _ _ _ _ => true
  | _ => false

/-- The statement counts, and has neither axes nor a weight. -/
def isBareCount : Statement → Bool
  | collect ⟨.count, _, _, [], none⟩ _ => true
  | _ => false

/-- The statement that counts under a name. -/
def bareCount (name : String) : Statement := collect ⟨.count, ⟨name, default⟩, none, [], none⟩ default

theorem not_bareCount_of_definition {d : Statement} (h : d.isDefinition = true) : d.isBareCount = false := by
  cases d with
  | define | function => rfl
  | _ => cases h

end Statement

/-- The symbols that an expression can begin with. -/
def Symbol.opens : Symbol → Bool
  | not | leftParen | plus | minus => true
  | _ => false

theorem Symbol.begins_of_opens {x : Symbol} (h : x.opens = true) : x.begins = true := by
  cases x with
  | not | leftParen | plus | minus => rfl
  | _ => cases h

theorem Symbol.goesOn_of_opens {x : Symbol} (h : x.opens = false) : (Token.symbol x).goesOn = false := by
  cases x with
  | leftParen | plus | minus => cases h
  | _ => rfl

namespace Parser

variable {s t : List Lexeme} {inner : Parser Expr} {x : Symbol}

/-! ### Symbols that begin nothing -/

/-- The parser gives nothing from here. -/
abbrev Stops {α : Type} (p : Parser α) (s : List Lexeme) : Prop := Yields (fun _ => True) p s fun _ _ => False

theorem stops_bind {α β : Type} {p : Parser α} {f : α → Parser β} (h : Stops p s) : Stops (p >>= f) s :=
  Yields.bind h fun _ _ h => h.elim

/-- Sums begin with a parenthesis or a sign, or with no symbol. -/
theorem sum_stops (hfront : front s = .symbol x) (hx : (Token.symbol x).goesOn = false) : Stops (sum inner) s := by
  have factor (allowed : Nat) : Stops (factorWithin inner allowed) s := by
    cases allowed with
    | zero => exact .stops _
    | succ allowed =>
      refine .current ?_
      rw [hfront]
      split
      · next h =>
        cases h
        cases hx
      · next h =>
        cases h
        cases hx
      · refine stops_bind (Alongside.operand_stops hfront (.inr ⟨x, rfl, ?_⟩))
        rintro rfl
        cases hx
  exact stops_bind (stops_bind (.get (factor _)))

theorem disjunction_stops (hfront : front s = .symbol x) (hx : x.opens = false) : Stops (disjunction inner) s := by
  have negation (allowed : Nat) : Stops (negationWithin inner allowed) s := by
    cases allowed with
    | zero => exact .stops _
    | succ allowed =>
      refine .sees ?_
      rw [hfront]
      refine .ite (fun hnot => ?_) fun _ =>
        stops_bind (sum_stops hfront (Symbol.goesOn_of_opens hx))
      cases of_decide_eq_true hnot
      cases hx
  exact stops_bind (stops_bind (.get (negation _)))

/-- Expressions begin with one of the symbols that can begin one, or with no symbol. -/
theorem expression_opens (hfront : front s = .symbol x) : Yields (fun _ => True) expression s fun _ _ => x.opens = true := by
  cases hx : x.opens with
  | true => exact .mono .anything fun _ _ _ => rfl
  | false =>
    refine Yields.mono (Q := fun _ _ => False) (.get (.get (.ite (fun hahead => ?_) fun _ => ?_))) fun _ _ h => h.elim
    · rw [functionAhead, hfront] at hahead
      split at hahead
      · next h => cases h
      · next h =>
        cases h
        cases hx
      · cases hahead
    · exact disjunction_stops hfront hx

/-- Statements begin with one of the symbols that can begin something, or with no symbol. -/
theorem statementWithin_begins (hfront : front s = .symbol x) (allowed : Nat) :
    Yields (fun _ => True) (statementWithin allowed) s fun _ _ => x.begins = true := by
  have keyword {p : Parser Statement} (hx : x.begins = true) :
      Yields (fun _ => True) p s fun _ _ => x.begins = true := .mono .anything fun _ _ _ => hx
  have defines : Yields (fun _ => True) define s fun _ _ => x.begins = true := by
    by_cases hx : x = .leftParen
    · exact keyword (hx ▸ rfl)
    · exact .mono (Alongside.define_stops hfront (.inr ⟨x, rfl, hx⟩)) fun _ _ h => h.elim
  cases allowed with
  | zero => exact .stops _
  | succ allowed =>
    refine .current ?_
    split
    · next h => exact keyword (by cases hfront.symm.trans h; rfl)
    · next h => exact keyword (by cases hfront.symm.trans h; rfl)
    · next h => exact keyword (by cases hfront.symm.trans h; rfl)
    · next h => exact keyword (by cases hfront.symm.trans h; rfl)
    · next h => exact keyword (by cases hfront.symm.trans h; rfl)
    · next h => exact keyword (by cases hfront.symm.trans h; rfl)
    · next h => exact keyword (by cases hfront.symm.trans h; rfl)
    · next h => exact keyword (by cases hfront.symm.trans h; rfl)
    · next h => exact keyword (by cases hfront.symm.trans h; rfl)
    · exact defines

/-! ### Parentheses that an assignment begins with -/

/-- A group in parentheses with no arrow behind it. -/
def GroupAhead (s : List Lexeme) : Prop :=
  ∃ l inside m rest, s = l :: (inside ++ m :: rest) ∧ l.token = .symbol .leftParen ∧ Lexeme.Matched inside ∧
    m.token = .symbol .rightParen ∧ front rest ≠ .symbol .leftArrow ∧ front rest ≠ .symbol .rightArrow

namespace GroupAhead

theorem arrowAfterClosing (h : GroupAhead s) : arrowAfterClosing 0 s = false := by
  obtain ⟨l, inside, m, rest, rfl, opens, inner, closes, hleft, -⟩ := h
  rw [arrowAfterClosing_group opens inner closes]
  exact Bool.eq_false_iff.mpr fun hsees => hleft (Token.eq_of_isSymbol hsees)

/-- Parameters end at the first parenthesis that closes. -/
theorem parametersAhead_matched {inside rest : List Lexeme} (h : Lexeme.Matched inside) {m : Lexeme}
    (closes : m.token = .symbol .rightParen) (ahead : parametersAhead (inside ++ m :: rest) = true) :
    front rest = .symbol .rightArrow := by
  induction h with
  | nil =>
    rw [List.nil_append, parametersAhead] at ahead
    simp only [closes] at ahead
    exact Token.eq_of_isSymbol ahead
  | token plain _ ih =>
    rw [List.cons_append, parametersAhead] at ahead
    split at ahead
    · exact ih ahead
    · exact ih ahead
    · next htoken => simp [htoken, Token.isPlain] at plain
    · cases ahead
  | group opens _ _ _ =>
    rw [List.cons_append, parametersAhead] at ahead
    simp only [opens] at ahead
    cases ahead

theorem functionAhead (h : GroupAhead s) : functionAhead s = false := by
  obtain ⟨l, inside, m, rest, rfl, opens, inner, closes, -, hright⟩ := h
  rw [Parser.functionAhead, show front (l :: (inside ++ m :: rest)) = l.token from rfl, opens]
  exact Bool.eq_false_iff.mpr fun ahead => hright (parametersAhead_matched inner closes ahead)

end GroupAhead

/-- A phrase between parentheses, with no arrow behind it. -/
theorem groupAhead_of_phrase (hs : InOrder s) (hopens : front s = .symbol .leftParen) (inner : Phrase (behind s) t)
    (hcloses : front t = .symbol .rightParen) (hleft : front (behind t) ≠ .symbol .leftArrow)
    (hright : front (behind t) ≠ .symbol .rightArrow) : GroupAhead s := by
  obtain ⟨l, hl, hopen⟩ := hs.eq_cons (by rw [hopens]; nofun)
  obtain ⟨m, hm, hclose⟩ := inner.ordered.eq_cons (by rw [hcloses]; nofun)
  obtain ⟨run, hrun, matched⟩ := inner.taken
  refine ⟨l, run, m, behind t, ?_, hopen.trans hopens, matched, hclose.trans hcloses, hleft, hright⟩
  rw [← hm, ← hrun]
  exact hl

/-- An operand ends before an arrow. -/
theorem repeatWithin_arrow {e : Expr} (hx : x = .leftArrow ∨ x = .rightArrow) (hfront : front s = .symbol x)
    (allowed : Nat) : Yields (fun _ => True) (repeatWithin (postfixStep inner) allowed e) s fun _ t => t = s := by
  cases allowed with
  | zero => exact .stops _
  | succ allowed =>
    refine Yields.bind (Q := fun o t => o = none ∧ t = s) (.current ?_) ?_
    · rw [hfront]
      rcases hx with rfl | rfl <;> exact .pure ⟨rfl, rfl⟩
    · rintro _ _ ⟨rfl, rfl⟩
      exact .pure rfl

/-- What is assigned to goes on with neither arrow. -/
theorem no_arrow {e e' : Expr} {allowed : Nat} (hrun : repeatWithin (postfixStep inner) allowed e s = .ok (e', t))
    (hdefine : front t = .symbol .define) : front s ≠ .symbol .leftArrow ∧ front s ≠ .symbol .rightArrow := by
  have arrow {x : Symbol} (hx : x = .leftArrow ∨ x = .rightArrow) : front s ≠ .symbol x := fun hfront => by
    obtain rfl := (repeatWithin_arrow hx hfront allowed).of_eq hrun
    rcases hx with rfl | rfl <;> cases hfront.symm.trans hdefine
  exact ⟨arrow (.inl rfl), arrow (.inr rfl)⟩

theorem atom_group (h : SpansExpr inner) (hs : InOrder s) (hopens : front s = .symbol .leftParen) :
    Yields (fun _ => True) (atom inner) s fun _ t =>
      ∃ u, Phrase (behind s) u ∧ front u = .symbol .rightParen ∧ t = behind u := by
  refine .currentSpan (.current ?_)
  rw [hopens]
  refine .advance ((h _ hs.behind).bind fun e u ⟨hu, _⟩ => ?_)
  refine (Yields.expectAny _ _).bind ?_
  rintro _ _ ⟨hcloses, -, rfl⟩
  exact .pure ⟨u, hu, hcloses, rfl⟩

theorem atom_name {text : String} (hname : front s = .name text) :
    Yields (fun _ => True) (atom inner) s fun _ t => t = behind s := by
  refine .currentSpan (.current ?_)
  rw [hname]
  exact .advance (.pure rfl)

theorem postfixStep_group (h : SpansExpr inner) (hs : InOrder s) (hopens : front s = .symbol .leftParen) (e : Expr) :
    Yields (fun _ => True) (postfixStep inner e) s fun r t =>
      r ≠ none ∧ ∃ u, Phrase (behind s) u ∧ front u = .symbol .rightParen ∧ t = behind u := by
  refine .current ?_
  rw [hopens]
  refine .advance ((TakesPhrase.arguments h _ hs.behind).bind fun es u ⟨hu, _⟩ => ?_)
  refine (Yields.expectAny _ _).bind ?_
  rintro _ _ ⟨hcloses, -, rfl⟩
  exact .pure ⟨nofun, u, hu, hcloses, rfl⟩

/-- What is assigned to may begin with an operand in parentheses. -/
theorem operand_group (h : SpansExpr inner) (hs : InOrder s) (hopens : front s = .symbol .leftParen) {e : Expr}
    (hrun : operand inner s = .ok (e, t)) (hdefine : front t = .symbol .define) : GroupAhead s := by
  obtain ⟨a, v, hatom, hloop⟩ := bind_eq_ok hrun
  obtain ⟨u, hu, hcloses, rfl⟩ := (atom_group h hs hopens).of_eq hatom
  obtain ⟨hleft, hright⟩ := no_arrow hloop hdefine
  exact groupAhead_of_phrase hs hopens hu hcloses hleft hright

/-- What is assigned to may begin with a name and arguments. -/
theorem operand_call (h : SpansExpr inner) (hs : InOrder s) {text : String} (hname : front s = .name text)
    (hopens : front (behind s) = .symbol .leftParen) {e : Expr} (hrun : operand inner s = .ok (e, t))
    (hdefine : front t = .symbol .define) : GroupAhead (behind s) := by
  obtain ⟨a, v, hatom, hloop⟩ := bind_eq_ok hrun
  obtain rfl := (atom_name hname).of_eq hatom
  obtain ⟨r, v, hstep, hrest⟩ := bind_eq_ok (show repeatWithin (postfixStep inner) (_ + 1) a (behind s) = _ from hloop)
  obtain ⟨hsome, u, hu, hcloses, rfl⟩ := (postfixStep_group h hs.behind hopens a).of_eq hstep
  cases r with
  | none => exact absurd rfl hsome
  | some b =>
    obtain ⟨hleft, hright⟩ := no_arrow hrest hdefine
    exact groupAhead_of_phrase hs.behind hopens hu hcloses hleft hright

/-- An assignment has a target, which is an operand. -/
theorem operand_of_define {d : Statement} (hrun : define s = .ok (d, t)) :
    ∃ e u, operand expression s = .ok (e, u) ∧ front u = .symbol .define ∧
      definition expression (functionBody expression) e u = .ok (d, t) := by
  obtain ⟨e, u, hoperand, hrest⟩ := bind_eq_ok hrun
  obtain ⟨_, _, hsees, hrest⟩ := bind_eq_ok hrest
  cases hsees
  by_cases h : (front u).isSymbol .define = true
  · rw [if_pos h] at hrest
    exact ⟨e, u, hoperand, Token.eq_of_isSymbol h, hrest⟩
  · rw [if_neg h] at hrest
    exact (Yields.of_eq (Q := fun _ _ => False) (.anyUnexpected_bind _) hrest).elim

/-- No function is ahead of an assignment. -/
theorem functionAhead_of_define {d : Statement} (hs : InOrder s) (hrun : define s = .ok (d, t)) :
    functionAhead s = false := by
  obtain ⟨e, u, hoperand, hdefine, -⟩ := operand_of_define hrun
  rw [functionAhead]
  split
  · next text hname =>
    obtain ⟨a, v, hatom, hloop⟩ := bind_eq_ok hoperand
    obtain rfl := (atom_name hname).of_eq hatom
    have hfront : front s ≠ .finish := fun finish => by cases hname.symm.trans finish
    rw [← hs.front_behind hfront]
    exact Bool.eq_false_iff.mpr fun hsees => (no_arrow hloop hdefine).2 (Token.eq_of_isSymbol hsees)
  · next hopens =>
    have ahead := (operand_group TakesPhrase.expression hs hopens hoperand hdefine).functionAhead
    rw [functionAhead, hopens] at ahead
    exact ahead
  · rfl

/-- A statement that begins with a name or a parenthesis is an assignment. -/
theorem statementWithin_define (hfront : (∃ text, front s = .name text) ∨ front s = .symbol .leftParen)
    (allowed : Nat) : statementWithin (allowed + 1) s = define s := by
  refine (bind_run (show current s = .ok (front s, s) from rfl)).trans ?_
  rcases hfront with ⟨text, hfront⟩ | hfront <;> rw [hfront]

theorem statement_of_define (hfront : (∃ text, front s = .name text) ∨ front s = .symbol .leftParen) :
    statement s = define s := statementWithin_define hfront s.length

/-- No statement begins with a closing brace or a sign. -/
theorem front_ne_of_statement {d : Statement} (hrun : statement s = .ok (d, t))
    (hx : x = .rightBrace ∨ x = .plus ∨ x = .minus) : front s ≠ .symbol x := by
  intro hfront
  have stops : Stops statement s := by
    refine .get (.current ?_)
    rw [hfront]
    rcases hx with rfl | rfl | rfl <;> exact Alongside.define_stops hfront (.inr ⟨_, rfl, nofun⟩)
  exact stops.of_eq hrun

/-- Statements have no axis ahead. -/
theorem noAxis_of_statement {d : Statement} (hs : InOrder s) (hrun : statement s = .ok (d, t)) : NoAxis s := by
  have defines (hfront : (∃ text, front s = .name text) ∨ front s = .symbol .leftParen) : define s = .ok (d, t) := by
    rw [← hrun, statement_of_define hfront]
  constructor
  · rw [axisAhead]
    split
    · next text hname hopens =>
      obtain ⟨e, u, hoperand, hdefine, -⟩ := operand_of_define (defines (.inl ⟨_, hname⟩))
      have hfront : front s ≠ .finish := fun finish => by cases hname.symm.trans finish
      rw [← hs.front_behind hfront] at hopens
      rw [hs.drop_one hfront]
      exact (operand_call TakesPhrase.expression hs hname hopens hoperand hdefine).arrowAfterClosing
    · rfl
  · intro hopens
    obtain ⟨e, u, hoperand, hdefine, -⟩ := operand_of_define (defines (.inr hopens))
    exact (operand_group TakesPhrase.expression hs hopens hoperand hdefine).arrowAfterClosing

/-! ### What is read as a statement of a kind -/

/-- What is read neither binds a name nor is a bare count. -/
abbrev Other (p : Parser Statement) (s : List Lexeme) : Prop :=
  Yields (fun _ => True) p s fun d _ => d.isDefinition = false ∧ d.isBareCount = false

theorem definition_isDefinition {read : Parser (List Statement × Span)} (target : Expr) :
    Yields (fun _ => True) (definition inner read target) s fun d _ => d.isDefinition = true := by
  refine Yields.anything.bind fun _ _ _ => ?_
  split
  · exact Yields.anything.bind fun _ _ _ => .pure rfl
  · split
    · refine Yields.anything.bind fun _ _ _ => Yields.anything.bind fun _ _ _ => ?_
      exact Yields.anything.bind fun _ _ _ => .pure rfl
    · exact .anyFault
  · exact .anyFault

theorem define_isDefinition : Yields (fun _ => True) define s fun d _ => d.isDefinition = true := by
  refine Yields.anything.bind fun _ _ _ => .sees (.ite (fun _ => definition_isDefinition _) fun _ => ?_)
  exact .anyUnexpected_bind _

section Blocks

variable {inner : Parser Statement}

theorem source_other (inclusive : Bool) (start : Span) : Other (source inner inclusive start) s :=
  Yields.anything.bind fun _ _ _ => Yields.anything.bind fun _ _ _ => .pure ⟨rfl, rfl⟩

theorem region_other : Other (region inner) s := by
  refine .advance (Yields.anything.bind fun name _ _ => .sees (.sees ?_))
  extract_lets finish
  have hfinish : ∀ predicate u, Other (finish predicate) u := fun _ _ =>
    Yields.anything.bind fun _ _ _ => Yields.anything.bind fun _ _ _ => .pure ⟨rfl, rfl⟩
  exact .ite (fun _ => hfinish _ _) fun _ => Yields.anything.bind fun _ _ _ => hfinish _ _

theorem vary_other : Other (vary inner) s := by
  refine .advance (Yields.anything.bind fun _ _ _ => .ite (fun _ => .anyUnexpected_bind _) fun _ => ?_)
  exact Yields.anything.bind fun _ _ _ => .pure ⟨rfl, rfl⟩

theorem loop_other : Other (loop inner) s :=
  .advance (Yields.anything.bind fun _ _ _ => Yields.anything.bind fun _ _ _ => .pure ⟨rfl, rfl⟩)

end Blocks

/-- Where there are no axes nothing is taken for them. -/
theorem axes_nil : Yields (fun _ => True) axes s fun as t => as = [] → t = s := by
  refine .sees (.ite (fun _ => .advance (Yields.anything.bind fun first t _ => ?_)) fun _ => .pure fun _ => rfl)
  refine Yields.bind (Q := fun as _ => as ≠ []) (Yields.repeatingKeeps (I := fun (as : List (Axis Expr)) _ => as ≠ [])
    (fun as u has => .get (.ite (fun _ => ?_) fun _ => ?_)) (List.cons_ne_nil _ _)) fun as u has => ?_
  · exact Yields.anything.bind fun _ _ _ => .pure ⟨fun b hb => by cases hb; exact List.cons_ne_nil _ _, nofun⟩
  · exact .pure ⟨nofun, fun _ => has⟩
  · exact .pure fun h => absurd (List.reverse_eq_nil_iff.mp h) has

/-- A collector binds no name, and if it is a bare count, only its name is taken. -/
theorem collect_bareCount (statistic : Statistic) : Yields (fun _ => True) (collect statistic) s fun d t =>
    d.isDefinition = false ∧ (d.isBareCount = true → statistic = .count ∧ t = behind (behind s) ∧
      ∃ text, front (behind s) = .string text ∧ d.unplaced = .bareCount text) := by
  refine .advance (Yields.labelAny.bind ?_)
  rintro name _ ⟨hname, -, rfl⟩
  extract_lets finish
  have hfinish : ∀ measured u, (statistic = .count → measured = none ∧ u = behind (behind s)) →
      Yields (fun _ => True) (finish measured) u fun d t => d.isDefinition = false ∧ (d.isBareCount = true →
        statistic = .count ∧ t = behind (behind s) ∧
          ∃ text, front (behind s) = .string text ∧ d.unplaced = .bareCount text) := by
    intro measured u hmeasured
    refine axes_nil.bind fun as v has => .sees (.ite (fun _ => .advance ?_) fun _ => .pure ⟨rfl, fun h => ?_⟩)
    · refine Yields.anything.bind fun _ _ _ => .pure ⟨rfl, fun h => ?_⟩
      cases statistic <;> cases as <;> cases h
    · cases statistic <;> cases as <;> try cases h
      obtain ⟨rfl, rfl⟩ := hmeasured rfl
      exact ⟨rfl, has rfl, name.text, hname, rfl⟩
  split
  · exact hfinish none _ fun _ => ⟨rfl, rfl⟩
  · next h => exact Yields.anything.bind fun _ _ _ => hfinish _ _ fun hcount => absurd hcount h

/-- A statement that binds a name is an assignment, and a bare count is read as one. -/
theorem statementWithin_kind (allowed : Nat) : Yields (fun _ => True) (statementWithin (allowed + 1)) s fun d t =>
    (d.isDefinition = true → define s = .ok (d, t)) ∧ (d.isBareCount = true → front s = .symbol .count ∧
      t = behind (behind s) ∧ ∃ text, front (behind s) = .string text ∧ d.unplaced = .bareCount text) := by
  have other {d : Statement} {P Q : Prop} (h : d.isDefinition = false ∧ d.isBareCount = false) :
      (d.isDefinition = true → P) ∧ (d.isBareCount = true → Q) := by
    rw [h.1, h.2]
    exact ⟨nofun, nofun⟩
  have defines : Yields (fun _ => True) define s fun d t =>
      (d.isDefinition = true → define s = .ok (d, t)) ∧ (d.isBareCount = true → front s = .symbol .count ∧
        t = behind (behind s) ∧ ∃ text, front (behind s) = .string text ∧ d.unplaced = .bareCount text) := by
    refine Yields.run.mono fun d t hrun => ⟨fun _ => hrun, fun h => ?_⟩
    rw [Statement.not_bareCount_of_definition (define_isDefinition.of_eq hrun)] at h
    cases h
  have measures (statistic : Statistic) (hcount : statistic ≠ .count) : Other (collect statistic) s := by
    refine (collect_bareCount statistic).mono fun d t ⟨hdefinition, hbare⟩ => ⟨hdefinition, ?_⟩
    exact Bool.eq_false_iff.mpr fun h => hcount (hbare h).1
  refine .current ?_
  split
  · next hcount =>
    refine (collect_bareCount .count).mono fun d t ⟨hdefinition, hbare⟩ => ⟨fun h => ?_, fun h => ⟨hcount, (hbare h).2⟩⟩
    rw [hdefinition] at h
    cases h
  · exact (measures .sum nofun).mono fun _ _ => other
  · exact (measures .profile nofun).mono fun _ _ => other
  · exact (measures .fraction nofun).mono fun _ _ => other
  · exact .advance ((source_other _ _).mono fun _ _ => other)
  · refine .get (.ite (fun _ => ?_) fun _ => defines)
    exact .advance (.advance ((source_other _ _).mono fun _ _ => other))
  · exact region_other.mono fun _ _ => other
  · exact vary_other.mono fun _ _ => other
  · exact loop_other.mono fun _ _ => other
  · exact defines

/-- A bare count ends with its name, unless axes or a weight follow. -/
theorem collect_count {text : String} (hname : front (behind s) = .string text)
    (halong : (front (behind (behind s))).isSymbol .along = false)
    (hweight : (front (behind (behind s))).isSymbol .weight = false) :
    Gives (collect .count) s fun d t => d.unplaced = .bareCount text ∧ t = behind (behind s) := by
  have label : Gives label (behind s) fun n t => n.text = text ∧ t = behind (behind s) := by
    refine .current ?_
    rw [hname]
    exact .advance (.pure ⟨rfl, rfl⟩)
  refine .advance (label.bind ?_)
  rintro n _ ⟨rfl, rfl⟩
  have axes : Gives axes (behind (behind s)) fun as t => as = [] ∧ t = behind (behind s) := by
    refine .sees ?_
    rw [halong]
    exact .pure ⟨rfl, rfl⟩
  extract_lets finish
  have hfinish : Gives (finish none) (behind (behind s)) fun d t =>
      d.unplaced = .bareCount n.text ∧ t = behind (behind s) := by
    refine axes.bind ?_
    rintro _ _ ⟨rfl, rfl⟩
    refine .sees ?_
    rw [hweight]
    exact .pure ⟨rfl, rfl⟩
  exact hfinish

/-- A statement is read the same before a tail, also if it is the last one and a bare count. -/
theorem statementWithin_joined {tail : Tail} [tail.Begins] {free : Prop} {s' : List Lexeme} {few many : Nat} {d : Statement}
    (none : NoAxis tail.lexemes) (hmany : few ≤ many) (hs : Joined tail free s s')
    (hrun : statementWithin few s = .ok (d, t)) (hlast : front t = .finish → free ∨ d.isBareCount = true) :
    ∃ d' t', statementWithin many s' = .ok (d', t') ∧ d.unplaced = d'.unplaced ∧ Joined tail free t t' := by
  obtain ⟨ordered, -, gives⟩ := Alongside.statementWithin none hmany s s' hs d t hrun
  by_cases hfree : front t = .finish → free
  · exact gives hfree
  obtain ⟨hfinish, hfree⟩ := Classical.not_imp.mp hfree
  obtain ⟨few, rfl⟩ : ∃ n, few = n + 1 := by
    cases few with
    | zero => cases hrun
    | succ few => exact ⟨few, rfl⟩
  obtain ⟨many, rfl⟩ : ∃ n, many = n + 1 := ⟨many - 1, by omega⟩
  obtain ⟨hcount, rfl, text, hname, hd⟩ :=
    ((statementWithin_kind few).of_eq hrun).2 ((hlast hfinish).resolve_left hfree)
  have hfront : front s ≠ .finish := by rw [hcount]; nofun
  have hnext : front (behind s) ≠ .finish := by rw [hname]; nofun
  have hrest := (hs.behind hfront).behind hnext
  have hend : ∀ x : Symbol, x.follows = false → (front (behind (behind s'))).isSymbol x = false := fun x hx => by
    rw [hrest.sees hx, hfinish]
    rfl
  have collects : Gives (statementWithin (many + 1)) s' fun d t =>
      d.unplaced = .bareCount text ∧ t = behind (behind s') := by
    refine .current ?_
    rw [hs.front_eq hfront, hcount]
    exact collect_count (((hs.behind hfront).front_eq hnext).trans hname) (hend _ rfl) (hend _ rfl)
  obtain ⟨d', t', hrun', hd', rfl⟩ := collects.exists_ok
  exact ⟨d', _, hrun', hd.trans hd'.symm, hrest⟩

end Parser

end RecordStats
