import Mathlib.Data.List.Basic
import RecordStats.Proofs.Grammar.Written
import RecordStats.Proofs.Program.Pieces
import RecordStats.Proofs.Program.WellFormed
import RecordStats.Proofs.Source.Scan

/-! Printing expressions. The printed tokens have parentheses around an operand that is of a looser level than its
    place, and no others; no way of writing the expression has fewer tokens. -/

namespace RecordStats

/-! ### Printing -/

namespace Token

/-- The head of a function, without parentheses around a single parameter. -/
def head : List Name → List Token
  | [p] => [name p.text]
  | ps => bracketed (listed (names ps))

/-- The tokens of a body's statements, in braces if it is more than a result. -/
def bodied (body : List Statement) (ts : List Token) : List Token :=
  match body with
  | [.result _ _] => ts
  | _ => symbol .leftBrace :: (ts ++ [symbol .rightBrace])

end Token

namespace Expr

/-- The level of an expression without parentheses around it. -/
def level : Expr → Level
  | literal (.integer n) _ => if 0 ≤ n.toInt then .atom else .sign
  | literal _ _ => .atom
  | name _ _ => .atom
  | operator op _ _ => op.level
  | call _ _ _ => .operand
  | lambda _ _ _ => .function

/-- The tokens of an expression where one of some level may stand. -/
def placed (l : Level) (e : Expr) (ts : List Token) : List Token :=
  if e.level.rank < l.rank then Token.bracketed ts else ts

/-- The tokens of an operator with its operands. -/
def arranged (op : Operator) : List Expr → List (List Token) → List Token
  | [a], [ts] => .symbol op.mark :: placed op.level a ts
  | [a, b], [ts, us] =>
    match op.sides? with
    | some (left, right) => placed left a ts ++ .symbol op.mark :: placed right b us
    | none => placed .operand a ts ++ .symbol op.mark :: (us ++ if op = .item then [.symbol .rightBracket] else [])
  | _, _ => []

mutual

/-- The tokens of the expression, with parentheses only where operands need them. -/
def tokens : Expr → List Token
  | literal (.integer n) _ =>
    if 0 ≤ n.toInt then [.integer n] else [.symbol .minus, .integer (Int64.ofInt (-n.toInt))]
  | literal (.float x) _ => [.float x]
  | literal (.string text) _ => [.string text]
  | name text _ => [.name text]
  | operator op operands _ => arranged op operands (tokensOf operands)
  | call callee arguments _ =>
    placed .operand callee (tokens callee) ++ Token.bracketed (Token.listed (tokensOf arguments))
  | lambda ps body _ => Token.head ps ++ .symbol .rightArrow :: Token.bodied body (statementTokens body)

def tokensOf : List Expr → List (List Token)
  | [] => []
  | e :: rest => tokens e :: tokensOf rest

/-- The tokens of a body's statements. A statement that has no place there has no tokens. -/
def statementTokens : List Statement → List Token
  | [] => []
  | .result e _ :: rest => tokens e ++ statementTokens rest
  | .define x e _ :: rest =>
    .name x.text :: .symbol .define :: (tokens e ++ .symbol .semicolon :: statementTokens rest)
  | .function f ps body _ :: rest => (.name f.text :: Token.bracketed (Token.listed (Token.names ps))) ++
      .symbol .define :: (Token.bodied body (statementTokens body) ++ .symbol .semicolon :: statementTokens rest)
  | _ :: rest => statementTokens rest

end

end Expr

/-! ### Expressions that can be printed -/

/-- Integers that have an opposite, strings, identifiers, and signs before what is no number. -/
def Pieces.printable : Pieces where
  span _ := True
  name := Name.IsIdentifier
  literal
    | .integer n => n ≠ Int64.minValue
    | .float _ => False
    | .string _ => True
  operator op operands := ∀ a, operands = [a] → op.Apart a

/-- The expression is well-formed, whatever the number of arguments of its calls, and it is made of printable pieces. -/
structure Expr.Printable (e : Expr) : Prop where
  made : e.MadeOf .printable
  formed : ∃ most, e.WellFormed most

/-! ### What is printed is written -/

variable {l m : Level} {e : Expr} {ts : List Token} {most : Nat}

/-- An expression has parentheses where its place needs them. -/
theorem Written.placed (h : Written e.level e ts) : Written l e (e.placed l ts) := by
  unfold Expr.placed
  split
  · exact .looser (.bracketed (h.looser (Nat.zero_le _))) (by cases l <;> decide)
  · next high => exact h.looser (Nat.le_of_not_lt high)

theorem WrittenHead.head (ps : List Name) : WrittenHead ps (Token.head ps) := by
  unfold Token.head
  split
  · exact .single _
  · exact .several _

theorem WrittenStatements.bodied {body : List Statement} (h : WrittenStatements body ts) :
    WrittenBody body (Token.bodied body ts) := by
  unfold Token.bodied
  split
  · cases h with
    | result _ h => exact .result _ h
  · exact .braced h

theorem WrittenAll.of_forall {es : List Expr} (h : ∀ e ∈ es, Written e.level e e.tokens) :
    WrittenAll es (Expr.tokensOf es) := by
  induction es with
  | nil => exact .nil
  | cons e es ih =>
    obtain ⟨he, hes⟩ := List.forall_mem_cons.mp h
    exact .cons (he.looser (Nat.zero_le _)) (ih hes)

theorem toInt_ofInt_neg {n : Int64} (h : n ≠ Int64.minValue) : (Int64.ofInt (-n.toInt)).toInt = -n.toInt := by
  have low := n.le_toInt
  have high := n.toInt_lt
  have least : n.toInt ≠ -2 ^ 63 := fun heq => h (Int64.toInt_inj.mp (heq.trans rfl))
  exact Int64.toInt_ofInt_of_le (by omega) (by omega)

/-- The head of a function in a body is a call of its name with its parameters. -/
theorem Written.of_call (f : Name) (ps : List Name) (s : Span) :
    Written .function (.call (.name f.text f.span) (ps.map fun p => .name p.text p.span) s)
      (.name f.text :: Token.bracketed (Token.listed (Token.names ps))) := by
  have parameters : WrittenAll (ps.map fun p => .name p.text p.span) (Token.names ps) := by
    induction ps with
    | nil => exact .nil
    | cons p ps ih => exact .cons (.looser (.name p.text p.span) (Nat.zero_le _)) ih
  exact .looser (.call s (.looser (.name f.text f.span) (by decide)) parameters) (Nat.zero_le _)

namespace Expr

theorem arranged_written {op : Operator} {operands : List Expr} {s : Span}
    (h : (Expr.operator op operands s).WellFormed most) (made : (Expr.operator op operands s).MadeOf .printable)
    (written : ∀ e ∈ operands, Written e.level e e.tokens) :
    Written op.level (.operator op operands s) (arranged op operands (tokensOf operands)) := by
  rw [WellFormed] at h
  obtain ⟨len, hmember, -⟩ := h
  by_cases one : op.arity = 1
  · obtain ⟨a, rfl⟩ := List.length_eq_one_iff.mp (len.trans one)
    exact .unary s one (made.1 a rfl) (written a List.mem_cons_self).placed
  · have two : op.arity = 2 := by cases op <;> first | rfl | exact absurd rfl one
    obtain ⟨a, b, rfl⟩ := List.length_eq_two.mp (len.trans two)
    have first := written a List.mem_cons_self
    have second := written b (List.mem_cons_of_mem _ List.mem_cons_self)
    rw [tokensOf, tokensOf, tokensOf, arranged]
    cases sides : op.sides? with
    | some levels => exact .binary s sides first.placed second.placed
    | none =>
      cases op with
      | member =>
        obtain ⟨_, text, place, heq⟩ := hmember rfl
        cases heq
        exact .member text s place first.placed
      | item => exact .item s first.placed (second.looser (Nat.zero_le _))
      | not | positive | negative => cases two
      | _ => cases sides

mutual

/-- The printed tokens are the expression, written at its own level. -/
theorem tokens_written : ∀ {e : Expr}, e.MadeOf .printable → e.WellFormed most → Written e.level e e.tokens
  | .literal (.integer n) s, made, _ => by
    rw [tokens, level]
    split
    · next whole => exact .integer s whole
    · next below => exact .negative s (Int.not_le.mp below) (toInt_ofInt_neg made.1)
  | .literal (.float _) _, made, _ => made.1.elim
  | .literal (.string text) s, _, _ => .string text s
  | .name text s, _, _ => .name text s
  | .operator op operands s, made, h => by
    have inner : WellFormedAll most operands := by
      rw [WellFormed] at h
      exact h.2.2
    exact arranged_written h made (tokensOf_written made.2.1 inner)
  | .call callee arguments s, made, h => by
    rw [WellFormed] at h
    exact .call s (tokens_written made.1 h.1).placed (.of_forall (tokensOf_written made.2.1 h.2.2))
  | .lambda ps body s, made, h => by
    rw [WellFormed] at h
    exact .lambda s h.1 (.head ps) (statementTokens_written made.2.1 h.2).bodied

theorem tokensOf_written : ∀ {es : List Expr}, AllMadeOf .printable es → WellFormedAll most es →
    ∀ e ∈ es, Written e.level e e.tokens
  | [], _, _ => nofun
  | e :: es, made, h => by
    rw [WellFormedAll] at h
    exact List.forall_mem_cons.mpr ⟨tokens_written made.1 h.1, tokensOf_written made.2 h.2⟩

theorem statementTokens_written : ∀ {body : List Statement}, BodyMadeOf .printable body → WellFormedBody most body →
    WrittenStatements body (statementTokens body)
  | [], _, h => by
    rw [WellFormedBody] at h
    exact h.elim
  | .result e s :: rest, made, h => by
    rw [WellFormedBody] at h
    obtain ⟨h, rfl⟩ := h
    rw [statementTokens, statementTokens, List.append_nil]
    exact .result s ((tokens_written made.1 h).looser (Nat.zero_le _))
  | .define x e s :: rest, made, h => by
    rw [WellFormedBody] at h
    have target : Written .function (.name x.text x.span) [.name x.text] :=
      .looser (.name x.text x.span) (Nat.zero_le _)
    have value : Written .function e e.tokens := (tokens_written made.2.1 h.1).looser (Nat.zero_le _)
    exact .define s target value (statementTokens_written made.2.2.2 h.2)
  | .function f ps body s :: rest, made, h => by
    rw [WellFormedBody] at h
    obtain ⟨-, -, inner, -, others⟩ := made
    exact .function s s h.1 (.of_call f ps s) (statementTokens_written inner h.2.1).bodied
      (statementTokens_written others h.2.2)
  | .collect _ _ :: _, _, h | .loop _ _ _ :: _, _, h | .vary _ _ _ :: _, _, h | .region _ _ _ _ _ :: _, _, h
  | .source _ _ _ _ :: _, _, h => by
    rw [WellFormedBody] at h
    · exact h.elim
    all_goals nofun

end

end Expr

/-! ### No way of writing has fewer tokens -/

/-- At its own level an expression has no parentheses. -/
theorem Expr.placed_le {n : Nat} (h : e.level = l) (le : ts.length ≤ n) : (e.placed l ts).length ≤ n := by
  rw [placed, if_neg (by rw [h]; exact Nat.lt_irrefl _)]
  exact le

theorem Expr.placed_function (e : Expr) (ts : List Token) : e.placed .function ts = ts :=
  if_neg (Nat.not_lt_zero _)

theorem Expr.length_placed_le (e : Expr) (ts : List Token) (le : l.rank ≤ m.rank) :
    (e.placed l ts).length ≤ (e.placed m ts).length := by
  unfold Expr.placed
  split
  · rw [if_pos (by omega)]
  · split
    · simp only [Token.bracketed, List.length_cons, List.length_append]
      omega
    · exact Nat.le_refl _

theorem Expr.length_placed (e : Expr) (l : Level) (ts : List Token) : (e.placed l ts).length ≤ ts.length + 2 := by
  unfold Expr.placed
  split
  · simp [Token.bracketed]
  · omega

/-- The printed head of a function in a body. -/
theorem Expr.tokens_call_name (f : Name) (ps : List Name) (s : Span) :
    (Expr.call (.name f.text f.span) (ps.map fun p => .name p.text p.span) s).tokens =
      .name f.text :: Token.bracketed (Token.listed (Token.names ps)) := by
  have parameters : tokensOf (ps.map fun p => .name p.text p.span) = Token.names ps := by
    induction ps with
    | nil => rfl
    | cons p ps ih =>
      rw [List.map_cons, tokensOf, ih]
      rfl
  rw [tokens, parameters]
  rfl

theorem Token.length_bracketed (ts : List Token) : (bracketed ts).length = ts.length + 2 := by
  simp [bracketed]

theorem WrittenHead.shortest {ps : List Name} (h : WrittenHead ps ts) : (Token.head ps).length ≤ ts.length := by
  cases h with
  | single p => exact Nat.le_refl _
  | several ps =>
    unfold Token.head
    split
    · rw [Token.length_bracketed, List.length_singleton]
      omega
    · exact Nat.le_refl _

theorem Token.length_bodied (body : List Statement) (ts : List Token) : (bodied body ts).length ≤ ts.length + 2 := by
  unfold bodied
  split
  · omega
  · simp

theorem Token.length_listed_cons (ts us : List Token) {tss uss : List (List Token)} (first : us.length ≤ ts.length)
    (rest : (listed uss).length ≤ (listed tss).length) (h : uss = [] ↔ tss = []) :
    (listed (us :: uss)).length ≤ (listed (ts :: tss)).length := by
  rw [listed_cons, listed_cons, List.length_append, List.length_append]
  by_cases none : tss = []
  · rw [if_pos none, if_pos (h.mpr none)]
    omega
  · rw [if_neg none, if_neg (mt h.mp none), List.length_cons, List.length_cons]
    omega

mutual

/-- The printed tokens, with parentheses where the place needs them, are as few as possible. -/
theorem Written.shortest : ∀ {l : Level} {e : Expr} {ts : List Token}, Written l e ts →
    (e.placed l e.tokens).length ≤ ts.length
  | _, e, _, .looser h le => Nat.le_trans (e.length_placed_le _ le) h.shortest
  | _, e, _, .bracketed h => by
    have inner := h.shortest
    have outer := e.length_placed .atom e.tokens
    rw [Expr.placed_function] at inner
    rw [Token.length_bracketed]
    omega
  | _, .literal (.integer n) s, _, .integer _ whole => by
    refine Expr.placed_le (by rw [Expr.level, if_pos whole]) ?_
    rw [Expr.tokens, if_pos whole]
  | _, .literal (.integer n) s, _, .negative _ below _ => by
    refine Expr.placed_le (by rw [Expr.level, if_neg (Int.not_le.mpr below)]) ?_
    rw [Expr.tokens, if_neg (Int.not_le.mpr below)]
    exact Nat.le_refl _
  | _, _, _, .string _ _ => Nat.le_refl _
  | _, _, _, .name _ _ => Nat.le_refl _
  | _, .operator .member [a, .name text t] s, _, .member _ _ _ receiver => by
    have first := receiver.shortest
    refine Expr.placed_le rfl ?_
    show (a.placed .operand a.tokens ++ [Token.symbol .dot, Token.name text]).length ≤ _
    rw [List.length_append, List.length_append]
    exact Nat.add_le_add_right first _
  | _, .operator .item [a, i] s, _, .item _ receiver index => by
    have first := receiver.shortest
    have second := index.shortest
    rw [Expr.placed_function] at second
    refine Expr.placed_le rfl ?_
    show (a.placed .operand a.tokens ++ Token.symbol .leftBracket :: (i.tokens ++ [.symbol .rightBracket])).length ≤ _
    simp only [List.length_append, List.length_cons]
    omega
  | _, .call f es s, _, .call _ callee arguments => by
    have first := callee.shortest
    have rest := arguments.shortest
    refine Expr.placed_le rfl ?_
    rw [Expr.tokens, List.length_append, List.length_append, Token.length_bracketed,
      Token.length_bracketed]
    omega
  | _, .operator op [a] s, _, .unary _ _ _ operand => by
    have inner := operand.shortest
    refine Expr.placed_le rfl ?_
    exact Nat.succ_le_succ inner
  | _, .operator op [a, b] s, _, .binary _ sides first second => by
    have first := first.shortest
    have second := second.shortest
    refine Expr.placed_le rfl ?_
    rw [Expr.tokens, Expr.tokensOf, Expr.tokensOf, Expr.tokensOf, Expr.arranged, sides]
    simp only [List.length_append, List.length_cons]
    omega
  | _, .lambda ps body s, _, .lambda _ _ parameters inner => by
    have head := parameters.shortest
    have body := inner.shortest
    rw [Expr.placed_function, Expr.tokens]
    simp only [List.length_append, List.length_cons]
    omega

theorem WrittenAll.shortest : ∀ {es : List Expr} {tss : List (List Token)}, WrittenAll es tss →
    (Token.listed (Expr.tokensOf es)).length ≤ (Token.listed tss).length
  | _, _, .nil => Nat.le_refl _
  | _, _, .cons first rest => by
    have shorter := first.shortest
    rw [Expr.placed_function] at shorter
    exact Token.length_listed_cons _ _ shorter rest.shortest (by cases rest <;> simp [Expr.tokensOf])

theorem WrittenBody.shortest : ∀ {body : List Statement} {ts : List Token}, WrittenBody body ts →
    (Token.bodied body (Expr.statementTokens body)).length ≤ ts.length
  | _, _, .result s h => by
    have shorter := h.shortest
    rw [Expr.placed_function] at shorter
    rw [Token.bodied, Expr.statementTokens, Expr.statementTokens, List.append_nil]
    exact shorter
  | body, _, .braced h => by
    have inner := h.shortest
    have outer := Token.length_bodied body (Expr.statementTokens body)
    simp only [List.length_cons, List.length_append, List.length_nil]
    omega

theorem WrittenStatements.shortest : ∀ {body : List Statement} {ts : List Token}, WrittenStatements body ts →
    (Expr.statementTokens body).length ≤ ts.length
  | _, _, .result s h => by
    have shorter := h.shortest
    rw [Expr.placed_function] at shorter
    rw [Expr.statementTokens, Expr.statementTokens, List.append_nil]
    exact shorter
  | _, _, .define s target value others => by
    have first := target.length_pos
    have second := value.shortest
    have rest := others.shortest
    rw [Expr.placed_function] at second
    rw [Expr.statementTokens]
    simp only [List.length_cons, List.length_append]
    omega
  | _, _, .function s t _ target inner others => by
    have first := target.shortest
    have second := inner.shortest
    have rest := others.shortest
    rw [Expr.placed_function, Expr.tokens_call_name] at first
    rw [Expr.statementTokens]
    simp only [List.length_cons, List.length_append] at first ⊢
    omega

end

end RecordStats
