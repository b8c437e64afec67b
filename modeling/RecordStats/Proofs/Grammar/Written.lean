import RecordStats.Grammar.Expression

/-! How expressions are written. Every operator has a level of its own and levels for its operands; an expression of a
    looser level than its place has needs parentheses, and any expression may have them. -/

namespace RecordStats

/-! ### Precedence -/

/-- The levels of expressions, from the loosest to the tightest. -/
inductive Level where
  | function | disjunction | conjunction | negation | comparison | sum | product | sign | power | operand | atom
deriving DecidableEq

namespace Level

def rank : Level → Nat
  | function => 0
  | disjunction => 1
  | conjunction => 2
  | negation => 3
  | comparison => 4
  | sum => 5
  | product => 6
  | sign => 7
  | power => 8
  | operand => 9
  | atom => 10

theorem rank_injective {l m : Level} (h : l.rank = m.rank) : l = m := by
  cases l <;> cases m <;> first | rfl | cases h

theorem exists_tighter {l m : Level} (h : l.rank < m.rank) : ∃ n : Level, n.rank = l.rank + 1 := by
  cases l with
  | function => exact ⟨disjunction, rfl⟩
  | disjunction => exact ⟨conjunction, rfl⟩
  | conjunction => exact ⟨negation, rfl⟩
  | negation => exact ⟨comparison, rfl⟩
  | comparison => exact ⟨sum, rfl⟩
  | sum => exact ⟨product, rfl⟩
  | product => exact ⟨sign, rfl⟩
  | sign => exact ⟨power, rfl⟩
  | power => exact ⟨operand, rfl⟩
  | operand => exact ⟨atom, rfl⟩
  | atom => cases m <;> exact absurd h (by decide)

end Level

namespace Operator

/-- The level of an operator with its operands. -/
def level : Operator → Level
  | or => .disjunction
  | and => .conjunction
  | not => .negation
  | equal | notEqual | lessEqual | less | greaterEqual | greater => .comparison
  | plus | minus => .sum
  | times | divide | modulo => .product
  | positive | negative => .sign
  | power => .power
  | member | item => .operand

/-- The levels on the two sides of an operator that stands between its operands. All but the power group to the left;
    an exponent may have a sign. -/
def sides? : Operator → Option (Level × Level)
  | or => some (.disjunction, .conjunction)
  | and => some (.conjunction, .negation)
  | equal | notEqual | lessEqual | less | greaterEqual | greater => some (.sum, .sum)
  | plus | minus => some (.sum, .product)
  | times | divide | modulo => some (.product, .sign)
  | power => some (.operand, .sign)
  | not | positive | negative | member | item => none

/-- The word or mark of an operator. -/
def mark : Operator → Symbol
  | member => .dot
  | item => .leftBracket
  | or => .or
  | and => .and
  | not => .not
  | equal => .equal
  | notEqual => .notEqual
  | lessEqual => .lessEqual
  | less => .less
  | greaterEqual => .greaterEqual
  | greater => .greater
  | plus | positive => .plus
  | minus | negative => .minus
  | times => .star
  | divide => .slash
  | modulo => .percent
  | power => .power

/-- The operator stands before an operand without becoming part of it. A sign becomes part of a number. -/
def Apart (op : Operator) (operand : Expr) : Prop :=
  op.level = .sign → operand.literal?.bind Literal.number? = none

theorem Apart.unsigned {op : Operator} {operand : Expr} (h : op.Apart operand) :
    operand.literal?.bind (Parser.signed? op) = none := by
  cases hliteral : operand.literal? with
  | none => rfl
  | some l =>
    rw [Apart, hliteral] at h
    cases op with
    | positive | negative =>
      cases l with
      | integer n => cases h rfl
      | float x => cases h rfl
      | string text => rfl
    | _ => rfl

theorem level_le_of_sides? {op : Operator} {left right : Level} (h : op.sides? = some (left, right)) :
    op.level.rank ≤ left.rank := by
  cases op <;> cases h <;> decide

end Operator

/-! ### Written expressions -/

namespace Token

/-- Tokens in parentheses. -/
def bracketed (ts : List Token) : List Token := symbol .leftParen :: (ts ++ [symbol .rightParen])

/-- Tokens with commas between them. -/
def listed (tss : List (List Token)) : List Token := [symbol .comma].intercalate tss

def names (ps : List Name) : List (List Token) := ps.map fun p => [name p.text]

theorem listed_cons (ts : List Token) (tss : List (List Token)) :
    listed (ts :: tss) = ts ++ if tss = [] then [] else .symbol .comma :: listed tss := by
  cases tss with
  | nil => simp [listed]
  | cons us tss => simp [listed]

theorem length_le_listed {ts : List Token} {tss : List (List Token)} (h : ts ∈ tss) :
    ts.length ≤ (listed tss).length := by
  induction tss with
  | nil => cases h
  | cons us tss ih =>
    rw [listed_cons, List.length_append]
    rcases List.mem_cons.mp h with rfl | h
    · exact Nat.le_add_right _ _
    · rw [if_neg (List.ne_nil_of_mem h), List.length_cons]
      have := ih h
      omega

end Token

/-- The head of a function: one parameter, or any number in parentheses. -/
inductive WrittenHead : List Name → List Token → Prop where
  | single (p : Name) : WrittenHead [p] [.name p.text]
  | several (ps : List Name) : WrittenHead ps (Token.bracketed (Token.listed (Token.names ps)))

mutual

/-- The tokens are the expression, written where an expression of the level may stand. -/
inductive Written : Level → Expr → List Token → Prop where
  | looser {l m : Level} {e : Expr} {ts : List Token} (h : Written m e ts) (le : l.rank ≤ m.rank) : Written l e ts
  | bracketed {e : Expr} {ts : List Token} (h : Written .function e ts) : Written .atom e (Token.bracketed ts)
  | integer {n : Int64} (s : Span) (h : 0 ≤ n.toInt) : Written .atom (.literal (.integer n) s) [.integer n]
  | negative {n m : Int64} (s : Span) (below : n.toInt < 0) (h : m.toInt = -n.toInt) :
      Written .sign (.literal (.integer n) s) [.symbol .minus, .integer m]
  | string (text : String) (s : Span) : Written .atom (.literal (.string text) s) [.string text]
  | name (text : String) (s : Span) : Written .atom (.name text s) [.name text]
  | member {a : Expr} {ts : List Token} (text : String) (s t : Span) (receiver : Written .operand a ts) :
      Written .operand (.operator .member [a, .name text t] s) (ts ++ [.symbol .dot, .name text])
  | item {a i : Expr} {ts us : List Token} (s : Span) (receiver : Written .operand a ts)
      (index : Written .function i us) :
      Written .operand (.operator .item [a, i] s) (ts ++ .symbol .leftBracket :: (us ++ [.symbol .rightBracket]))
  | call {f : Expr} {es : List Expr} {ts : List Token} {tss : List (List Token)} (s : Span)
      (callee : Written .operand f ts) (arguments : WrittenAll es tss) :
      Written .operand (.call f es s) (ts ++ Token.bracketed (Token.listed tss))
  | unary {op : Operator} {a : Expr} {ts : List Token} (s : Span) (one : op.arity = 1)
      (apart : op.Apart a) (operand : Written op.level a ts) :
      Written op.level (.operator op [a] s) (.symbol op.mark :: ts)
  | binary {op : Operator} {left right : Level} {a b : Expr} {ts us : List Token} (s : Span)
      (sides : op.sides? = some (left, right)) (first : Written left a ts) (second : Written right b us) :
      Written op.level (.operator op [a, b] s) (ts ++ .symbol op.mark :: us)
  | lambda {ps : List Name} {body : List Statement} {head ts : List Token} (s : Span)
      (distinct : (ps.map Name.text).Nodup) (parameters : WrittenHead ps head) (inner : WrittenBody body ts) :
      Written .function (.lambda ps body s) (head ++ .symbol .rightArrow :: ts)

/-- The expressions are written one by one, each where any expression may stand. -/
inductive WrittenAll : List Expr → List (List Token) → Prop where
  | nil : WrittenAll [] []
  | cons {e : Expr} {es : List Expr} {ts : List Token} {tss : List (List Token)} (first : Written .function e ts)
      (rest : WrittenAll es tss) : WrittenAll (e :: es) (ts :: tss)

/-- A function's body, which needs no braces if it is only a result. -/
inductive WrittenBody : List Statement → List Token → Prop where
  | result {e : Expr} {ts : List Token} (s : Span) (h : Written .function e ts) : WrittenBody [.result e s] ts
  | braced {body : List Statement} {ts : List Token} (h : WrittenStatements body ts) :
      WrittenBody body (.symbol .leftBrace :: (ts ++ [.symbol .rightBrace]))

/-- Definitions with semicolons after them, and then a result. What is defined is written as an expression: a name, or
    a call of the name with the parameters. -/
inductive WrittenStatements : List Statement → List Token → Prop where
  | result {e : Expr} {ts : List Token} (s : Span) (h : Written .function e ts) : WrittenStatements [.result e s] ts
  | define {x : Name} {e : Expr} {rest : List Statement} {ts us vs : List Token} (s : Span)
      (target : Written .function (.name x.text x.span) ts) (value : Written .function e us)
      (others : WrittenStatements rest vs) : WrittenStatements (.define x e s :: rest)
        (ts ++ .symbol .define :: (us ++ .symbol .semicolon :: vs))
  | function {f : Name} {ps : List Name} {body rest : List Statement} {ts us vs : List Token} (s t : Span)
      (distinct : (ps.map Name.text).Nodup)
      (target : Written .function (.call (.name f.text f.span) (ps.map fun p => .name p.text p.span) t) ts)
      (inner : WrittenBody body us) (others : WrittenStatements rest vs) : WrittenStatements
        (.function f ps body s :: rest) (ts ++ .symbol .define :: (us ++ .symbol .semicolon :: vs))

end

/-! ### How written expressions begin -/

/-- The token may begin an expression of the level. -/
def Token.Opens (l : Level) : Token → Prop
  | integer _ | string _ | name _ => True
  | symbol .leftParen => True
  | symbol .plus | symbol .minus => l.rank ≤ Level.sign.rank
  | symbol .not => l.rank ≤ Level.negation.rank
  | _ => False

theorem Token.Opens.looser {l m : Level} {t : Token} (h : t.Opens m) (le : l.rank ≤ m.rank) : t.Opens l := by
  unfold Opens at h ⊢
  split at h
  all_goals first | trivial | exact Nat.le_trans le h

theorem Operator.opens_of_arity {op : Operator} (h : op.arity = 1) : (Token.symbol op.mark).Opens op.level := by
  cases op with
  | not | positive | negative => exact Nat.le_refl _
  | _ => cases h

/-- A written expression begins with a token that may begin one. -/
theorem Written.opens : ∀ {l : Level} {e : Expr} {ts : List Token}, Written l e ts →
    ∃ t more, ts = t :: more ∧ t.Opens l
  | _, _, _, .looser h le => by
    obtain ⟨t, more, rfl, ht⟩ := h.opens
    exact ⟨t, more, rfl, ht.looser le⟩
  | _, _, _, .bracketed _ => ⟨_, _, rfl, trivial⟩
  | _, _, _, .integer _ _ => ⟨_, _, rfl, trivial⟩
  | _, _, _, .negative _ _ _ => ⟨_, _, rfl, Nat.le_refl _⟩
  | _, _, _, .string _ _ => ⟨_, _, rfl, trivial⟩
  | _, _, _, .name _ _ => ⟨_, _, rfl, trivial⟩
  | _, _, _, .member _ _ _ receiver => by
    obtain ⟨t, more, rfl, ht⟩ := receiver.opens
    exact ⟨t, _, rfl, ht⟩
  | _, _, _, .item _ receiver _ => by
    obtain ⟨t, more, rfl, ht⟩ := receiver.opens
    exact ⟨t, _, rfl, ht⟩
  | _, _, _, .call _ callee _ => by
    obtain ⟨t, more, rfl, ht⟩ := callee.opens
    exact ⟨t, _, rfl, ht⟩
  | _, _, _, .unary _ one _ _ => ⟨_, _, rfl, Operator.opens_of_arity one⟩
  | _, _, _, .binary _ sides first _ => by
    obtain ⟨t, more, rfl, ht⟩ := first.opens
    exact ⟨t, _, rfl, ht.looser (Operator.level_le_of_sides? sides)⟩
  | _, _, _, .lambda _ _ parameters _ => by
    cases parameters with
    | single p => exact ⟨_, _, rfl, trivial⟩
    | several ps => exact ⟨_, _, rfl, trivial⟩

theorem Written.length_pos {l : Level} {e : Expr} {ts : List Token} (h : Written l e ts) : 0 < ts.length := by
  obtain ⟨t, more, rfl, -⟩ := h.opens
  exact Nat.succ_pos _

theorem Written.front_ne {l : Level} {e : Expr} {ts : List Token} {s rest : List Lexeme} {x : Symbol}
    (h : Written l e ts) (hs : s.map Lexeme.token = ts) (hx : ¬(Token.symbol x).Opens l) :
    (Parser.front (s ++ rest)).isSymbol x = false := by
  obtain ⟨t, more, rfl, opens⟩ := h.opens
  obtain ⟨k, s, rfl, rfl, -⟩ := List.map_eq_cons_iff.mp hs
  show k.token.isSymbol x = false
  cases htoken : k.token with
  | symbol y =>
    refine decide_eq_false fun heq => ?_
    subst heq
    exact hx (htoken ▸ opens)
  | _ => rfl

/-! ### Looking ahead for a function -/

namespace Written

variable {s rest : List Lexeme}

open RecordStats.Parser

/-- No parameters stand ahead where a token stands that is no part of their list. -/
theorem parametersAhead_symbol {x : Symbol} {ts : List Token} (h : s.map Lexeme.token = .symbol x :: ts)
    (hx : x ≠ .comma ∧ x ≠ .rightParen) : parametersAhead (s ++ rest) = false := by
  obtain ⟨l, s, rfl, hl, -⟩ := List.map_eq_cons_iff.mp h
  rw [List.cons_append, parametersAhead, hl]
  split
  · next heq => cases heq
  · next heq => exact absurd (Token.symbol.inj heq) hx.1
  · next heq => exact absurd (Token.symbol.inj heq) hx.2
  · rfl

/-- No function stands ahead where a token stands that begins none. -/
theorem functionAhead_symbol {x : Symbol} {ts : List Token} (h : s.map Lexeme.token = .symbol x :: ts)
    (hx : x ≠ .leftParen) : functionAhead (s ++ rest) = false := by
  obtain ⟨l, s, rfl, hl, -⟩ := List.map_eq_cons_iff.mp h
  rw [List.cons_append, functionAhead, front, hl]
  split
  · next heq => cases heq
  · next heq => exact absurd (Token.symbol.inj heq) hx
  · rfl

theorem front_symbol {x : Symbol} {ts : List Token} (h : s.map Lexeme.token = .symbol x :: ts)
    (hx : x ≠ .rightArrow) : (front (s ++ rest)).isSymbol .rightArrow = false := by
  obtain ⟨l, s, rfl, hl, -⟩ := List.map_eq_cons_iff.mp h
  simp [front, hl, Token.isSymbol, hx.symm]

theorem mark_ne (op : Operator) :
    (op.mark ≠ .comma ∧ op.mark ≠ .rightParen) ∧ op.mark ≠ .leftParen ∧ op.mark ≠ .rightArrow := by
  cases op <;> decide

mutual

/-- A written expression is no part of a list of parameters, unless it is one name. -/
theorem parametersAhead : ∀ {l : Level} {e : Expr} {ts : List Token} {s rest : List Lexeme}, Written l e ts →
    s.map Lexeme.token = ts → Parser.parametersAhead rest = false → Parser.parametersAhead (s ++ rest) = false
  | _, _, _, _, _, .looser h _, hs, hrest => h.parametersAhead hs hrest
  | _, _, _, _, _, .bracketed _, hs, _ => parametersAhead_symbol hs (by decide)
  | _, _, _, _, _, .negative _ _ _, hs, _ => parametersAhead_symbol hs (by decide)
  | _, _, _, _, _, .integer _ _, hs, _ => by
    obtain ⟨l, rfl, hl⟩ := List.map_eq_singleton_iff.mp hs
    rw [List.singleton_append, Parser.parametersAhead, hl]
  | _, _, _, _, _, .string _ _, hs, _ => by
    obtain ⟨l, rfl, hl⟩ := List.map_eq_singleton_iff.mp hs
    rw [List.singleton_append, Parser.parametersAhead, hl]
  | _, _, _, _, _, .name _ _, hs, hrest => by
    obtain ⟨l, rfl, hl⟩ := List.map_eq_singleton_iff.mp hs
    rw [List.singleton_append, Parser.parametersAhead, hl]
    exact hrest
  | _, _, _, _, _, .member _ _ _ receiver, hs, _ => by
    obtain ⟨s, t, rfl, hs, ht⟩ := List.map_eq_append_iff.mp hs
    rw [List.append_assoc]
    exact receiver.parametersAhead hs (parametersAhead_symbol ht (by decide))
  | _, _, _, _, _, .item _ receiver _, hs, _ => by
    obtain ⟨s, t, rfl, hs, ht⟩ := List.map_eq_append_iff.mp hs
    rw [List.append_assoc]
    exact receiver.parametersAhead hs (parametersAhead_symbol ht (by decide))
  | _, _, _, _, _, .call _ callee _, hs, _ => by
    obtain ⟨s, t, rfl, hs, ht⟩ := List.map_eq_append_iff.mp hs
    rw [List.append_assoc]
    exact callee.parametersAhead hs (parametersAhead_symbol ht (by decide))
  | _, _, _, _, _, .unary _ _ _ _, hs, _ => parametersAhead_symbol hs (mark_ne _).1
  | _, _, _, _, _, .binary _ _ first _, hs, _ => by
    obtain ⟨s, t, rfl, hs, ht⟩ := List.map_eq_append_iff.mp hs
    rw [List.append_assoc]
    exact first.parametersAhead hs (parametersAhead_symbol ht (mark_ne _).1)
  | _, _, _, _, _, .lambda _ _ parameters _, hs, _ => by
    cases parameters with
    | single p =>
      obtain ⟨l, s, rfl, hl, hs⟩ := List.map_eq_cons_iff.mp hs
      rw [List.cons_append, Parser.parametersAhead, hl]
      exact parametersAhead_symbol hs (by decide)
    | several ps => exact parametersAhead_symbol hs (by decide)

/-- No function stands ahead where something else is written, if no arrow follows it. -/
theorem functionAhead : ∀ {l : Level} {e : Expr} {ts : List Token} {s rest : List Lexeme}, Written l e ts →
    Level.disjunction.rank ≤ l.rank → s.map Lexeme.token = ts → (front rest).isSymbol .rightArrow = false →
      Parser.functionAhead (s ++ rest) = false
  | _, _, _, _, _, .looser h le, hl, hs, hrest => h.functionAhead (Nat.le_trans hl le) hs hrest
  | _, _, _, _, rest, .bracketed h, _, hs, hrest => by
    obtain ⟨l, t, rfl, hl, ht⟩ := List.map_eq_cons_iff.mp hs
    obtain ⟨s, t, rfl, hinner, ht⟩ := List.map_eq_append_iff.mp ht
    obtain ⟨m, rfl, hm⟩ := List.map_eq_singleton_iff.mp ht
    have inside : Parser.parametersAhead (s ++ ([m] ++ rest)) = false :=
      h.parametersAhead hinner (by rw [List.singleton_append, Parser.parametersAhead, hm]; exact hrest)
    simp only [List.cons_append, Parser.functionAhead, front, hl, List.drop_succ_cons, List.drop_zero,
      List.append_assoc]
    exact inside
  | _, _, _, _, _, .negative _ _ _, _, hs, _ => functionAhead_symbol hs (by decide)
  | _, _, _, _, _, .integer _ _, _, hs, _ => by
    obtain ⟨l, rfl, hl⟩ := List.map_eq_singleton_iff.mp hs
    simp only [List.singleton_append, Parser.functionAhead, front, hl]
  | _, _, _, _, _, .string _ _, _, hs, _ => by
    obtain ⟨l, rfl, hl⟩ := List.map_eq_singleton_iff.mp hs
    simp only [List.singleton_append, Parser.functionAhead, front, hl]
  | _, _, _, _, rest, .name _ _, _, hs, hrest => by
    obtain ⟨l, rfl, hl⟩ := List.map_eq_singleton_iff.mp hs
    simp only [List.singleton_append, Parser.functionAhead, front, hl]
    cases rest with
    | nil => rfl
    | cons m rest => exact hrest
  | _, _, _, _, _, .member _ _ _ receiver, _, hs, _ => by
    obtain ⟨s, t, rfl, hs, ht⟩ := List.map_eq_append_iff.mp hs
    rw [List.append_assoc]
    exact receiver.functionAhead (by decide) hs (front_symbol ht (by decide))
  | _, _, _, _, _, .item _ receiver _, _, hs, _ => by
    obtain ⟨s, t, rfl, hs, ht⟩ := List.map_eq_append_iff.mp hs
    rw [List.append_assoc]
    exact receiver.functionAhead (by decide) hs (front_symbol ht (by decide))
  | _, _, _, _, _, .call _ callee _, _, hs, _ => by
    obtain ⟨s, t, rfl, hs, ht⟩ := List.map_eq_append_iff.mp hs
    rw [List.append_assoc]
    exact callee.functionAhead (by decide) hs (front_symbol ht (by decide))
  | _, _, _, _, _, .unary _ _ _ _, _, hs, _ => functionAhead_symbol hs (mark_ne _).2.1
  | _, _, _, _, _, .binary _ sides first _, hl, hs, _ => by
    obtain ⟨s, t, rfl, hs, ht⟩ := List.map_eq_append_iff.mp hs
    rw [List.append_assoc]
    exact first.functionAhead (Nat.le_trans hl (Operator.level_le_of_sides? sides)) hs
      (front_symbol ht (mark_ne _).2.2)
  | _, _, _, _, _, .lambda _ _ _ _, hl, _, _ => absurd hl (by decide)

end

end Written

end RecordStats
