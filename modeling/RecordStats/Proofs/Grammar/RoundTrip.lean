import RecordStats.Proofs.Grammar.MadeStatement
import RecordStats.Proofs.Grammar.Printed
import RecordStats.Proofs.Grammar.ReadFunction
import RecordStats.Proofs.Grammar.Statement
import RecordStats.Proofs.Outcome

/-! Printing and reading expressions. However an expression is written, reading it gives the expression back; and what
    is read can be printed, if it has no number with a fraction. -/

namespace RecordStats

open RecordStats.Parser

/-! ### Tokens that are spelled -/

variable {ps : List Name} {ts : List Token}

theorem Token.spelled_bracketed (h : ∀ t ∈ ts, t.Spelled) : ∀ t ∈ Token.bracketed ts, t.Spelled := by
  intro t ht
  rcases List.mem_cons.mp ht with rfl | ht
  · trivial
  · rcases List.mem_append.mp ht with ht | ht
    · exact h t ht
    · obtain rfl := List.mem_singleton.mp ht
      trivial

theorem Token.spelled_listed {tss : List (List Token)} (h : ∀ ts ∈ tss, ∀ t ∈ ts, t.Spelled) :
    ∀ t ∈ Token.listed tss, t.Spelled := by
  induction tss with
  | nil => nofun
  | cons ts tss ih =>
    obtain ⟨hts, htss⟩ := List.forall_mem_cons.mp h
    intro t ht
    rw [listed_cons] at ht
    rcases List.mem_append.mp ht with ht | ht
    · exact hts t ht
    · split at ht
      · cases ht
      · rcases List.mem_cons.mp ht with rfl | ht
        · trivial
        · exact ih htss t ht

/-- Tokens on both sides of a mark. -/
theorem Token.spelled_append {us : List Token} (x : Symbol) (first : ∀ t ∈ ts, t.Spelled) (rest : ∀ t ∈ us, t.Spelled) :
    ∀ t ∈ ts ++ .symbol x :: us, t.Spelled :=
  List.forall_mem_append.mpr ⟨first, List.forall_mem_cons.mpr ⟨trivial, rest⟩⟩

theorem WrittenHead.spelled (h : WrittenHead ps ts) (made : ∀ p ∈ ps, p.MadeOf .printable) : ∀ t ∈ ts, t.Spelled := by
  cases h with
  | single p => exact List.forall_mem_singleton.mpr (made p List.mem_cons_self).text
  | several ps =>
    refine Token.spelled_bracketed (Token.spelled_listed fun ts hts => ?_)
    obtain ⟨p, hp, rfl⟩ := List.mem_map.mp hts
    exact List.forall_mem_singleton.mpr (made p hp).text

theorem Expr.names_printable (h : ∀ p ∈ ps, p.MadeOf .printable) :
    AllMadeOf .printable (ps.map fun p => .name p.text p.span) := by
  refine allMadeOf_iff.mpr fun e he => ?_
  obtain ⟨p, hp, rfl⟩ := List.mem_map.mp he
  exact ⟨(h p hp).text, trivial⟩

mutual

/-- The tokens of what is made of printable pieces are spelled. -/
theorem Written.spelled : ∀ {l : Level} {e : Expr} {ts : List Token}, Written l e ts → e.MadeOf .printable →
    ∀ t ∈ ts, t.Spelled
  | _, _, _, .looser h _, made => h.spelled made
  | _, _, _, .bracketed h, made => Token.spelled_bracketed (h.spelled made)
  | _, _, _, .integer _ whole, _ => List.forall_mem_singleton.mpr whole
  | _, _, _, .negative _ below h, _ =>
    List.forall_mem_cons.mpr ⟨trivial, List.forall_mem_singleton.mpr (by rw [Token.Spelled, h]; omega)⟩
  | _, _, _, .string _ _, _ => List.forall_mem_singleton.mpr trivial
  | _, _, _, .name _ _, made => List.forall_mem_singleton.mpr made.1
  | _, _, _, .member _ _ _ receiver, ⟨_, ⟨first, second, _⟩, _⟩ =>
    Token.spelled_append .dot (receiver.spelled first) (List.forall_mem_singleton.mpr second.1)
  | _, _, _, .item _ receiver index, ⟨_, ⟨first, second, _⟩, _⟩ =>
    Token.spelled_append .leftBracket (receiver.spelled first)
      (Token.spelled_append .rightBracket (index.spelled second) nofun)
  | _, _, _, .call _ callee arguments, ⟨first, rest, _⟩ =>
    List.forall_mem_append.mpr ⟨callee.spelled first,
      Token.spelled_bracketed (Token.spelled_listed (arguments.spelled rest))⟩
  | _, _, _, .unary _ _ _ operand, ⟨_, ⟨first, _⟩, _⟩ =>
    List.forall_mem_cons.mpr ⟨trivial, operand.spelled first⟩
  | _, _, _, .binary _ _ first second, ⟨_, ⟨hfirst, hsecond, _⟩, _⟩ =>
    Token.spelled_append _ (first.spelled hfirst) (second.spelled hsecond)
  | _, _, _, .lambda _ _ parameters inner, ⟨hparameters, hbody, _⟩ =>
    Token.spelled_append .rightArrow (parameters.spelled hparameters) (inner.spelled hbody)

theorem WrittenAll.spelled : ∀ {es : List Expr} {tss : List (List Token)}, WrittenAll es tss →
    Expr.AllMadeOf .printable es → ∀ ts ∈ tss, ∀ t ∈ ts, t.Spelled
  | _, _, .nil, _ => nofun
  | _, _, .cons first rest, ⟨hfirst, hrest⟩ => List.forall_mem_cons.mpr ⟨first.spelled hfirst, rest.spelled hrest⟩

theorem WrittenBody.spelled : ∀ {body : List Statement} {ts : List Token}, WrittenBody body ts →
    Expr.BodyMadeOf .printable body → ∀ t ∈ ts, t.Spelled
  | _, _, .result _ h, ⟨made, _⟩ => h.spelled made
  | _, _, .braced h, made =>
    List.forall_mem_cons.mpr ⟨trivial, Token.spelled_append .rightBrace (h.spelled made) nofun⟩

theorem WrittenStatements.spelled : ∀ {body : List Statement} {ts : List Token}, WrittenStatements body ts →
    Expr.BodyMadeOf .printable body → ∀ t ∈ ts, t.Spelled
  | _, _, .result _ h, ⟨made, _⟩ => h.spelled made
  | _, _, .define _ target value others, ⟨hx, hvalue, _, hothers⟩ =>
    Token.spelled_append .define (target.spelled ⟨hx.text, trivial⟩)
      (Token.spelled_append .semicolon (value.spelled hvalue) (others.spelled hothers))
  | _, _, .function _ _ _ target inner others, ⟨hf, hparameters, hbody, _, hothers⟩ =>
    Token.spelled_append .define (target.spelled ⟨⟨hf.text, trivial⟩, Expr.names_printable hparameters, trivial⟩)
      (Token.spelled_append .semicolon (inner.spelled hbody) (others.spelled hothers))

end

/-! ### Reading what is written -/

/-- A written expression with nothing after it is read as a whole. -/
theorem Written.reads_whole {e : Expr} {s : List Lexeme} (h : Written .function e ts)
    (htokens : s.map Lexeme.token = ts ++ [.finish]) :
    Gives wholeExpression s fun f _ => f.unplaced = e.unplaced := by
  obtain ⟨s, r, v, rfl, hs, hr, hv⟩ := Lexeme.split htokens
  obtain rfl := List.map_eq_nil_iff.mp hv
  have deep : ts.length < (s ++ [r]).length + 1 := by
    rw [← hs, List.length_map, List.length_append]
    omega
  refine .bind (.get (h.reads.within hs deep (by rw [hr]; decide))) ?_
  rintro f _ ⟨hf, rfl⟩
  refine .bind (Q := fun _ _ => True) (.current ?_) fun _ _ _ => .pure hf
  rw [show front [r] = r.token from rfl, hr]
  exact .pure trivial

/-- However an expression is written, the text with these tokens is read as the expression. -/
theorem Expr.ofText_written {e : Expr} (made : e.MadeOf .printable) (h : Written .function e ts) :
    ∃ f, Expr.ofText (Text.ofTokens ts) = .ok f ∧ f.unplaced = e.unplaced := by
  obtain ⟨lexemes, hlexemes, htokens⟩ := Lexeme.ofText_ofTokens (h.spelled made)
  obtain ⟨f, rest, hrun, hf⟩ := (h.reads_whole htokens).exists_ok
  refine ⟨f, ?_, hf⟩
  rw [Expr.ofText, onText, hlexemes]
  show (wholeExpression lexemes).map Prod.fst = .ok f
  rw [hrun]
  rfl

/-! ### What is read can be printed -/

namespace Pieces

/-- What a text can hold and what signs make of it. -/
def readable : Pieces where
  span _ := True
  name := Name.IsIdentifier
  literal l := ∀ n, l = .integer n → n ≠ Int64.minValue
  operator op operands := ∀ a, operands = [a] → op.Apart a

/-- Any pieces but numbers with a fraction. -/
def floatless : Pieces where
  span _ := True
  name _ := True
  literal l := ∀ x, l ≠ .float x
  operator _ _ := True

end Pieces

theorem ne_minValue {n : Int64} (h : -9223372036854775808 < n.toInt) : n ≠ Int64.minValue := by
  rintro rfl
  exact absurd h (by decide)

theorem Literal.signed_readable {op : Operator} {l l' : Literal} (h : ∀ n, l = .integer n → n ≠ Int64.minValue)
    (hsigned : signed? op l = some l') : ∀ n, l' = .integer n → n ≠ Int64.minValue := by
  rintro n rfl
  cases l with
  | float x => cases op <;> cases hsigned
  | string text => cases op <;> cases hsigned
  | integer m =>
    cases op with
    | positive =>
      cases hsigned
      exact h _ rfl
    | negative =>
      obtain ⟨k, hk, heq⟩ := Option.map_eq_some_iff.mp hsigned
      cases heq
      have high := m.toInt_lt
      exact ne_minValue (by rw [Lexeme.toInt_of_word? hk]; omega)
    | _ => cases hsigned

/-- A sign that makes no other literal of what it stands before stands before no number. -/
theorem Operator.apart_of_signed {op : Operator} {e : Expr} (h : e.MadeOf .readable)
    (unsigned : e.literal?.bind (signed? op) = none) : op.Apart e := by
  intro hop
  have sign : op = .positive ∨ op = .negative := by cases op <;> first | exact .inl rfl | exact .inr rfl | cases hop
  match e, h with
  | .literal (.string _) _, _ => rfl
  | .literal (.float _) _, _ => rcases sign with rfl | rfl <;> cases unsigned
  | .literal (.integer n) _, h =>
    rcases sign with rfl | rfl
    · cases unsigned
    · have fits := Lexeme.word?_toInt (Int64.ofInt (-n.toInt))
      rw [toInt_ofInt_neg (h.1 n rfl)] at fits
      have negated : (Decimal.word? (-n.toInt)).map Literal.integer = none := unsigned
      rw [fits] at negated
      cases negated
  | .name _ _, _ | .operator _ _ _, _ | .call _ _ _, _ | .lambda _ _ _, _ => rfl

theorem Pieces.readable_closed : Pieces.readable.Closed where
  join _ _ _ _ := trivial
  signed _ _ _ h hsigned := Literal.signed_readable h hsigned
  plain op operands hpositive hnegative a _ hop := by
    cases op with
    | positive => exact absurd rfl hpositive
    | negative => exact absurd rfl hnegative
    | _ => cases hop
  sign op e made h a heq := by
    cases heq
    exact Operator.apart_of_signed made h

theorem Pieces.readable_holds (text : String) : Pieces.readable.Holds text where
  span _ _ := trivial
  token t ht := by
    cases t with
    | integer n =>
      rintro m heq
      cases heq
      have whole : 0 ≤ n.toInt := ht
      exact ne_minValue (by omega)
    | float x => nofun
    | string text => nofun
    | name text => exact ht
    | symbol x => trivial
    | finish => trivial

namespace Expr

mutual

/-- Without numbers with a fraction, what can be read can be printed. -/
theorem printable_of_readable : ∀ {e : Expr}, e.MadeOf .readable → e.MadeOf .floatless → e.MadeOf .printable
  | .literal (.integer n) _, h, _ => ⟨h.1 n rfl, trivial⟩
  | .literal (.float x) _, _, h => absurd rfl (h.1 x)
  | .literal (.string _) _, _, _ => ⟨trivial, trivial⟩
  | .name _ _, h, _ => h
  | .operator _ _ _, ⟨hop, hoperands, _⟩, ⟨_, hfloatless, _⟩ => ⟨hop, all_printable hoperands hfloatless, trivial⟩
  | .call _ _ _, ⟨hcallee, harguments, _⟩, ⟨hcallee', harguments', _⟩ =>
    ⟨printable_of_readable hcallee hcallee', all_printable harguments harguments', trivial⟩
  | .lambda _ _ _, ⟨hparameters, hbody, _⟩, ⟨_, hbody', _⟩ =>
    ⟨fun p hp => ⟨(hparameters p hp).text, trivial⟩, body_printable hbody hbody', trivial⟩

theorem all_printable : ∀ {es : List Expr}, AllMadeOf .readable es → AllMadeOf .floatless es →
    AllMadeOf .printable es
  | [], _, _ => trivial
  | _ :: _, ⟨first, rest⟩, ⟨first', rest'⟩ => ⟨printable_of_readable first first', all_printable rest rest'⟩

theorem body_printable : ∀ {body : List Statement}, BodyMadeOf .readable body → BodyMadeOf .floatless body →
    BodyMadeOf .printable body
  | [], _, _ => trivial
  | .define _ _ _ :: _, ⟨htarget, he, _, hrest⟩, ⟨_, he', _, hrest'⟩ =>
    ⟨⟨htarget.text, trivial⟩, printable_of_readable he he', trivial, body_printable hrest hrest'⟩
  | .function _ _ _ _ :: _, ⟨htarget, hparameters, hbody, _, hrest⟩, ⟨_, _, hbody', _, hrest'⟩ =>
    ⟨⟨htarget.text, trivial⟩, fun p hp => ⟨(hparameters p hp).text, trivial⟩, body_printable hbody hbody', trivial,
      body_printable hrest hrest'⟩
  | .result _ _ :: _, ⟨he, _, hrest⟩, ⟨he', _, hrest'⟩ =>
    ⟨printable_of_readable he he', trivial, body_printable hrest hrest'⟩
  | .collect _ _ :: _, ⟨_, hrest⟩, ⟨_, hrest'⟩ => ⟨trivial, body_printable hrest hrest'⟩
  | .loop _ _ _ :: _, ⟨_, hrest⟩, ⟨_, hrest'⟩ => ⟨trivial, body_printable hrest hrest'⟩
  | .vary _ _ _ :: _, ⟨_, hrest⟩, ⟨_, hrest'⟩ => ⟨trivial, body_printable hrest hrest'⟩
  | .region _ _ _ _ _ :: _, ⟨_, hrest⟩, ⟨_, hrest'⟩ => ⟨trivial, body_printable hrest hrest'⟩
  | .source _ _ _ _ :: _, ⟨_, hrest⟩, ⟨_, hrest'⟩ => ⟨trivial, body_printable hrest hrest'⟩

end

theorem printable_of_ofText {text : String} {e : Expr} (h : Expr.ofText text = .ok e)
    (floatless : e.MadeOf .floatless) : e.Printable := by
  have made : e.MadeOf .readable :=
    (onText_yields (Pieces.readable_holds text) fun _ hs => Takes.wholeExpression Pieces.readable_closed hs).1 e h
  exact ⟨printable_of_readable made floatless, _, wellFormed_of_ofText h⟩

/-- An expression that can be printed is written by its printed tokens, and by no fewer; and however it is written, with
    spaces between its tokens, reading gives the expression back. What is read from a text without numbers with a
    fraction can be printed, and printing and reading it gives it back. -/
theorem round_trip :
    (∀ e : Expr, e.Printable → Written .function e e.tokens ∧ ∀ ts, Written .function e ts →
      e.tokens.length ≤ ts.length ∧ ∃ f, Expr.ofText (Text.ofTokens ts) = .ok f ∧ f.unplaced = e.unplaced) ∧
    ∀ (text : String) (e : Expr), Expr.ofText text = .ok e → e.MadeOf .floatless →
      e.Printable ∧ ∃ f, Expr.ofText (Text.ofTokens e.tokens) = .ok f ∧ f.unplaced = e.unplaced := by
  have written {e : Expr} (h : e.Printable) : Written .function e e.tokens := by
    obtain ⟨most, formed⟩ := h.formed
    exact (tokens_written h.made formed).looser (Nat.zero_le _)
  refine ⟨fun e h => ⟨written h, fun ts hts => ⟨?_, ofText_written h.made hts⟩⟩, fun text e h floatless => ?_⟩
  · have shortest := hts.shortest
    rw [placed_function] at shortest
    exact shortest
  · have printable := printable_of_ofText h floatless
    exact ⟨printable, ofText_written printable.made (written printable)⟩

/-- A function that compares a power of negative numbers to a number. -/
def isSigned : Expr → Bool
  | .lambda _ [.result (.operator .less [.operator .power [.operator .negative [.name _ _] _,
      .literal (.integer _) _] _, .literal (.integer _) _] _) _] _ => true
  | _ => false

/-- A sign in the base of a power needs parentheses, and a sign in its exponent does not. -/
theorem round_trip_signs : ∃ f, Expr.ofText "x -> ( - x ) ** - 2 < 3" = .ok f ∧ f.Printable ∧
    Text.ofTokens f.tokens = "x -> ( - x ) ** - 2 < 3" ∧
      ∃ g, Expr.ofText (Text.ofTokens f.tokens) = .ok g ∧ g.unplaced = f.unplaced := by
  have accepted : (Expr.ofText "x -> ( - x ) ** - 2 < 3").toOption.any
      (fun f => isSigned f && decide (Text.ofTokens f.tokens = "x -> ( - x ) ** - 2 < 3")) = true := by
    decide +kernel
  obtain ⟨f, hf, checked⟩ := exists_of_any accepted
  obtain ⟨hshape, printed⟩ := Bool.and_eq_true_iff.mp checked
  have floatless : f.MadeOf .floatless := by
    unfold isSigned at hshape
    split at hshape
    · have whole : ∀ n x, Literal.integer n ≠ .float x := fun _ _ h => by cases h
      exact ⟨fun _ _ => ⟨trivial, trivial⟩, ⟨⟨trivial, ⟨⟨trivial, ⟨⟨trivial, ⟨⟨trivial, trivial⟩, trivial⟩, trivial⟩,
        ⟨whole _, trivial⟩, trivial⟩, trivial⟩, ⟨whole _, trivial⟩, trivial⟩, trivial⟩, trivial, trivial⟩, trivial⟩
    · cases hshape
  have printable := (round_trip.2 _ f hf floatless).1
  have written := (round_trip.1 f printable).1
  exact ⟨f, hf, printable, of_decide_eq_true printed, ((round_trip.1 f printable).2 _ written).2⟩

end Expr

end RecordStats
