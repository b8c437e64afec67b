import RecordStats.Proofs.Grammar.Written
import RecordStats.Proofs.Grammar.Yields
import RecordStats.Proofs.Program.Unplaced

/-! Reading an expression at a level. The parser of a level reads the tokens of an expression that is written there, and
    leaves the token after them if that token does not go on with the expression. An operator that groups to the left
    is read in a loop: what is left of it has already been read when the loop finds it, so a level whose operators
    group is told by what its loop makes of the rest. -/

namespace RecordStats

open RecordStats.Parser

/-- Lexemes whose tokens have a mark among them. -/
theorem Lexeme.split {s : List Lexeme} {ts us : List Token} {t : Token} (h : s.map Lexeme.token = ts ++ t :: us) :
    ∃ u l v, s = u ++ l :: v ∧ u.map Lexeme.token = ts ∧ l.token = t ∧ v.map Lexeme.token = us := by
  obtain ⟨u, w, rfl, hu, hw⟩ := List.map_eq_append_iff.mp h
  obtain ⟨l, v, rfl, hl, hv⟩ := List.map_eq_cons_iff.mp hw
  exact ⟨u, l, v, rfl, hu, hl, hv⟩

namespace Parser

/-! ### Known lexemes -/

/-- From these lexemes the parser gives such a thing and leaves such lexemes. -/
abbrev Gives {α : Type} (p : Parser α) (s : List Lexeme) (Q : α → List Lexeme → Prop) : Prop :=
  Yields (fun _ => False) p s Q

theorem Gives.exists_ok {α : Type} {p : Parser α} {s : List Lexeme} {Q : α → List Lexeme → Prop} (h : Gives p s Q) :
    ∃ a rest, p s = .ok (a, rest) ∧ Q a rest := by
  unfold Gives Yields at h
  split at h
  · next a rest hrun => exact ⟨a, rest, hrun, h⟩
  · exact h.elim

theorem behind_append {s more : List Lexeme} {l r : Lexeme} : behind (l :: (s ++ r :: more)) = s ++ r :: more := by
  cases s <;> rfl

namespace Yields

variable {α : Type} {H : Halt → Prop} {s more : List Lexeme} {l r : Lexeme} {S : α → List Lexeme → Prop}

theorem skip {f : Span → Parser α} (h : Yields H (f l.span) (s ++ r :: more) S) :
    Yields H (Parser.advance >>= f) (l :: (s ++ r :: more)) S :=
  advance (by rw [behind_append]; exact h)

theorem skipSymbol {f : Span → Parser α} {x : Symbol} {expected : String} (hl : l.token = .symbol x)
    (h : Yields H (f l.span) (s ++ r :: more) S) :
    Yields H (Parser.expect x expected >>= f) (l :: (s ++ r :: more)) S := by
  have hfront : (front (l :: (s ++ r :: more))).isSymbol x = true := by simp [front, hl, Token.isSymbol]
  refine bind (Q := fun span t => span = l.span ∧ t = s ++ r :: more) ?_ ?_
  · exact sees (by rw [hfront]; exact advance (pure ⟨rfl, behind_append⟩))
  · rintro _ _ ⟨rfl, rfl⟩
    exact h

theorem named {text : String} (hl : l.token = .name text) :
    Yields H Parser.identifier (l :: (s ++ r :: more)) fun name t => name = ⟨text, l.span⟩ ∧ t = s ++ r :: more := by
  have hfront : front (l :: (s ++ r :: more)) = .name text := hl
  refine current ?_
  rw [hfront]
  exact advance (pure ⟨rfl, behind_append⟩)

theorem skipName {f : Name → Parser α} {text : String} (hl : l.token = .name text)
    (h : Yields H (f ⟨text, l.span⟩) (s ++ r :: more) S) :
    Yields H (Parser.identifier >>= f) (l :: (s ++ r :: more)) S := by
  refine bind (named hl) ?_
  rintro _ _ ⟨rfl, rfl⟩
  exact h

variable {β : Type} {step : β → Parser (Option β)} {a : β} {steps : Nat} {Q R : β → List Lexeme → Prop}

/-- A repetition ends where a step gives nothing. -/
theorem stop (h : Yields H (step a) s fun o t => o = none ∧ t = s) :
    Yields H (Parser.repeatWithin step (steps + 1) a) s fun b t => b = a ∧ t = s := by
  refine bind h ?_
  rintro _ _ ⟨rfl, rfl⟩
  exact pure ⟨rfl, rfl⟩

/-- A repetition goes on with what a step gives. -/
theorem again (h : Yields H (step a) s fun o t => ∃ b, o = some b ∧ R b t)
    (hR : ∀ b t, R b t → Yields H (Parser.repeatWithin step steps b) t Q) :
    Yields H (Parser.repeatWithin step (steps + 1) a) s Q := by
  refine bind h ?_
  rintro _ t ⟨b, rfl, hb⟩
  exact hR b t hb

end Yields

/-- One more operator of a level whose operators group to the left, with its operand. -/
def groupStep (operators : List (Symbol × Operator)) (operand : Parser Expr) (left : Expr) :
    Parser (Option Expr) := do
  let token ← current
  match operators.find? fun o => token.isSymbol o.1 with
  | none => return none
  | some (_, op) =>
    let mark ← advance
    let right ← operand
    return some (.apply op [left, right] mark)

theorem leftGrouped_eq (operators : List (Symbol × Operator)) (operand : Parser Expr) :
    leftGrouped operators operand = (do repeating (groupStep operators operand) (← operand)) := rfl

end Parser

/-! ### Tokens after an expression -/

namespace Token

/-- The level at which the token goes on with an expression before it. -/
def level? : Token → Option Level
  | symbol .rightArrow => some .function
  | symbol .or => some .disjunction
  | symbol .and => some .conjunction
  | symbol .equal | symbol .notEqual | symbol .less | symbol .lessEqual | symbol .greater | symbol .greaterEqual =>
    some .comparison
  | symbol .plus | symbol .minus => some .sum
  | symbol .star | symbol .slash | symbol .percent => some .product
  | symbol .power => some .power
  | symbol .dot | symbol .leftBracket | symbol .leftParen => some .operand
  | _ => none

/-- The token does not go on with an expression of the level. -/
def Closes (l : Level) (t : Token) : Prop := ∀ m ∈ t.level?, m.rank < l.rank

instance (l : Level) (t : Token) : Decidable (t.Closes l) :=
  inferInstanceAs (Decidable (∀ m ∈ t.level?, m.rank < l.rank))

theorem Closes.tighter {l m : Level} {t : Token} (h : t.Closes l) (le : l.rank ≤ m.rank) : t.Closes m :=
  fun k hk => Nat.lt_of_lt_of_le (h k hk) le

/-- No token goes on with an expression just because it is one with a sign. -/
theorem Closes.sign {t : Token} (h : t.Closes .power) : t.Closes .sign := by
  intro m hm
  have hrank : m.rank < Level.power.rank := h m hm
  have hsign : m ≠ .sign := by
    rintro rfl
    unfold level? at hm
    split at hm <;> cases hm
  exact Nat.lt_of_le_of_ne (Nat.le_of_lt_succ hrank) fun heq => hsign (Level.rank_injective heq)

/-- A token that goes on with an expression of no level. -/
theorem closes_of_level? {l : Level} {t : Token} (h : t.level? = none) : t.Closes l := by
  rintro m hm
  rw [h] at hm
  cases hm

theorem Closes.not_isSymbol {l : Level} {t : Token} {x : Symbol} (h : t.Closes l)
    (hx : (symbol x).level? = some l) : t.isSymbol x = false := by
  cases t with
  | symbol y =>
    simp only [isSymbol, decide_eq_false_iff_not]
    rintro rfl
    exact Nat.lt_irrefl _ (h l hx)
  | _ => rfl

end Token

/-! ### Levels and their parsers -/

namespace Level

/-- The parser of a level; signs, `not` and exponents are nested at most as deep as allowed. -/
def parser (inner : Parser Expr) (allowed : Nat) : Level → Parser Expr
  | function => do
    if functionAhead (← get) then Parser.function inner else Parser.disjunction inner
  | disjunction => Parser.disjunction inner
  | conjunction => Parser.conjunction inner
  | negation => negationWithin inner allowed
  | comparison => Parser.comparison inner
  | sum => Parser.sum inner
  | product => Parser.product inner
  | sign => factorWithin inner allowed
  | power => factorWithin inner allowed
  | operand => Parser.operand inner
  | atom => Parser.atom inner

/-- What the parser of a level goes on with after its first part. -/
def resume (inner : Parser Expr) (allowed : Nat) (e : Expr) : Level → Parser Expr
  | disjunction => repeatWithin (groupStep [(.or, .or)] (Parser.conjunction inner)) allowed e
  | conjunction => repeatWithin (groupStep [(.and, .and)] (Parser.negation inner)) allowed e
  | sum => repeatWithin (groupStep [(.plus, .plus), (.minus, .minus)] (Parser.product inner)) allowed e
  | product =>
    repeatWithin (groupStep [(.star, .times), (.slash, .divide), (.percent, .modulo)] (Parser.factor inner)) allowed e
  | operand => repeatWithin (postfixStep inner) allowed e
  | _ => return e

/-- The level of the first part. -/
def inside : Level → Level
  | disjunction => conjunction
  | conjunction => negation
  | sum => product
  | product => sign
  | operand => atom
  | l => l

theorem inside_rank (l : Level) : l.rank ≤ l.inside.rank := by
  cases l <;> decide

/-- The operators of the first level group to the left, and their operands are of the second level. -/
structure Groups (l m : Level) (operators : List (Symbol × Operator)) (operand : Parser Expr → Parser Expr) : Prop where
  parser : ∀ inner allowed, l.parser inner allowed = leftGrouped operators (operand inner)
  resume : ∀ inner allowed e, l.resume inner allowed e = repeatWithin (groupStep operators (operand inner)) allowed e
  operand : ∀ inner s (Q : Expr → List Lexeme → Prop),
    Gives (m.parser inner (s.length + 1)) s Q → Gives (operand inner) s Q
  inside : l.inside = m
  tighter : l.rank < m.rank
  level : ∀ o ∈ operators, (Token.symbol o.1).level? = some l

theorem groups_disjunction : Groups disjunction conjunction [(.or, .or)] Parser.conjunction :=
  ⟨fun _ _ => rfl, fun _ _ _ => rfl, fun _ _ _ h => h, rfl, by decide, by decide⟩

theorem groups_conjunction : Groups conjunction negation [(.and, .and)] Parser.negation :=
  ⟨fun _ _ => rfl, fun _ _ _ => rfl, fun _ _ _ h => h, rfl, by decide, by decide⟩

theorem groups_sum : Groups sum product [(.plus, .plus), (.minus, .minus)] Parser.product :=
  ⟨fun _ _ => rfl, fun _ _ _ => rfl, fun _ _ _ h => h, rfl, by decide, by decide⟩

theorem groups_product :
    Groups product sign [(.star, .times), (.slash, .divide), (.percent, .modulo)] Parser.factor :=
  ⟨fun _ _ => rfl, fun _ _ _ => rfl, fun _ _ _ h => h, rfl, by decide, by decide⟩

end Level

/-- The parser of the level reads the tokens as the expression: whatever the level makes of an expression like it and
    the lexemes that follow, the parser makes of the tokens and the lexemes that follow. -/
def Reads (l : Level) (e : Expr) (ts : List Token) : Prop :=
  ∀ (depth allowed : Nat) (s : List Lexeme) (r : Lexeme) (more : List Lexeme) (Q : Expr → List Lexeme → Prop),
    s.map Lexeme.token = ts → ts.length ≤ depth + 1 → ts.length ≤ allowed → r.token.Closes l.inside →
    (∀ f steps, more.length + 1 < steps → f.unplaced = e.unplaced →
      Gives (l.resume (expressionWithin depth) steps f) (r :: more) Q) →
    Gives (l.parser (expressionWithin depth) allowed) (s ++ r :: more) Q

/-! ### Before a token that does not go on with an expression -/

variable {l m : Level} {e : Expr} {ts : List Token} {inner : Parser Expr} {s more : List Lexeme} {r : Lexeme}

theorem Level.Groups.resume_closed {operators : List (Symbol × Operator)} {operand : Parser Expr → Parser Expr}
    (g : l.Groups m operators operand) (closed : r.token.Closes l) {steps : Nat} :
    Gives (l.resume inner (steps + 1) e) (r :: more) fun f t => f = e ∧ t = r :: more := by
  rw [g.resume]
  refine .stop (.current ?_)
  have none : operators.find? (fun o => (front (r :: more)).isSymbol o.1) = none :=
    List.find?_eq_none.mpr fun o ho => by
      rw [show front (r :: more) = r.token from rfl, closed.not_isSymbol (g.level o ho)]
      exact Bool.false_ne_true
  rw [none]
  exact .pure ⟨rfl, rfl⟩

theorem chainStep_closed {operand : Parser Expr} {chain : Expr × Option Expr} (closed : r.token.Closes .comparison) :
    Gives (chainStep operand chain) (r :: more) fun o t => o = none ∧ t = r :: more := by
  have levels : ∀ o ∈ comparisons, (Token.symbol o.1).level? = some .comparison := by decide
  have none : comparisons.find? (fun o => (front (r :: more)).isSymbol o.1) = none :=
    List.find?_eq_none.mpr fun o ho => by
      rw [show front (r :: more) = r.token from rfl, closed.not_isSymbol (levels o ho)]
      exact Bool.false_ne_true
  refine .current ?_
  rw [none]
  exact .pure ⟨rfl, rfl⟩

theorem postfixStep_closed (closed : r.token.Closes .operand) :
    Gives (postfixStep inner e) (r :: more) fun o t => o = none ∧ t = r :: more := by
  have sees {x : Symbol} (hx : (Token.symbol x).level? = some .operand) : r.token ≠ .symbol x := fun h => by
    have := closed.not_isSymbol hx
    simp [h, Token.isSymbol] at this
  refine .current ?_
  rw [show front (r :: more) = r.token from rfl]
  split
  · next h => exact absurd h (sees rfl)
  · next h => exact absurd h (sees rfl)
  · next h => exact absurd h (sees rfl)
  · exact .pure ⟨rfl, rfl⟩

/-- A level makes nothing more of an expression before a token that does not go on with it. -/
theorem Level.resume_closed (closed : r.token.Closes l) {steps : Nat} (h : 0 < steps) :
    Gives (l.resume inner steps e) (r :: more) fun f t => f = e ∧ t = r :: more := by
  obtain ⟨steps, rfl⟩ : ∃ k, steps = k + 1 := ⟨steps - 1, by omega⟩
  cases l with
  | disjunction => exact groups_disjunction.resume_closed closed
  | conjunction => exact groups_conjunction.resume_closed closed
  | sum => exact groups_sum.resume_closed closed
  | product => exact groups_product.resume_closed closed
  | operand => exact .stop (postfixStep_closed closed)
  | function | negation | comparison | sign | power | atom => exact .pure ⟨rfl, rfl⟩

/-- The tokens are read, and the token after them is not. -/
theorem Reads.closed (h : Reads l e ts) {depth allowed : Nat} (hs : s.map Lexeme.token = ts)
    (deep : ts.length ≤ depth + 1) (many : ts.length ≤ allowed) (closed : r.token.Closes l) :
    Gives (l.parser (expressionWithin depth) allowed) (s ++ r :: more) fun f t =>
      f.unplaced = e.unplaced ∧ t = r :: more := by
  refine h depth allowed s r more _ hs deep many (closed.tighter l.inside_rank) fun f steps hsteps hf => ?_
  refine (Level.resume_closed closed (by omega)).mono ?_
  rintro _ _ ⟨rfl, rfl⟩
  exact ⟨hf, rfl⟩

/-! ### From one level to the next looser one -/

theorem Level.Groups.looser {operators : List (Symbol × Operator)} {operand : Parser Expr → Parser Expr}
    (g : l.Groups m operators operand) (h : Reads m e ts) : Reads l e ts := by
  intro depth allowed s r more Q hs deep many closed hQ
  rw [g.inside] at closed
  have long : ts.length ≤ (s ++ r :: more).length + 1 := by
    rw [← hs, List.length_map, List.length_append]
    omega
  rw [g.parser, leftGrouped_eq]
  refine .bind (g.operand _ _ _ (h.closed hs deep long closed)) ?_
  rintro f _ ⟨hf, rfl⟩
  refine .get ?_
  rw [← g.resume]
  exact hQ f _ (Nat.lt_succ_self _) hf

namespace Reads

theorem operand (h : Reads .atom e ts) : Reads .operand e ts := by
  intro depth allowed s r more Q hs deep many closed hQ
  refine .bind (h.closed hs deep many closed) ?_
  rintro f _ ⟨hf, rfl⟩
  exact .get (hQ f _ (Nat.lt_succ_self _) hf)

/-- Where an operand is written there is no sign, but a power may follow it. -/
theorem factorWithin {steps : Nat} {rest : List Lexeme} {Q : Expr → List Lexeme → Prop} (hw : Written .operand e ts)
    (hs : s.map Lexeme.token = ts)
    (h : Gives (do
      let base ← Parser.operand inner
      if ← sees .power then
        let mark ← advance
        let exponent ← Parser.factorWithin inner steps
        return .apply .power [base, exponent] mark
      return base) (s ++ rest) Q) : Gives (Parser.factorWithin inner (steps + 1)) (s ++ rest) Q := by
  obtain ⟨t, us, rfl, opens⟩ := hw.opens
  obtain ⟨l, s, rfl, rfl, -⟩ := List.map_eq_cons_iff.mp hs
  refine .current ?_
  rw [show front (l :: s ++ rest) = l.token from rfl]
  split
  · next hplus =>
    rw [hplus] at opens
    exact absurd (show Level.operand.rank ≤ Level.sign.rank from opens) (by decide)
  · next hminus =>
    rw [hminus] at opens
    exact absurd (show Level.operand.rank ≤ Level.sign.rank from opens) (by decide)
  · exact h

theorem power (hw : Written .operand e ts) (h : Reads .operand e ts) : Reads .power e ts := by
  intro depth allowed s r more Q hs deep many closed hQ
  obtain ⟨allowed, rfl⟩ : ∃ k, allowed = k + 1 := ⟨allowed - 1, by have := hw.length_pos; omega⟩
  refine factorWithin hw hs ((h.closed hs deep many (closed.tighter (by decide))).bind ?_)
  rintro f _ ⟨hf, rfl⟩
  refine .sees ?_
  rw [show front (r :: more) = r.token from rfl, closed.not_isSymbol rfl]
  exact hQ f _ (Nat.lt_succ_self _) hf

theorem sign (h : Reads .power e ts) : Reads .sign e ts := by
  intro depth allowed s r more Q hs deep many closed hQ
  exact h depth allowed s r more Q hs deep many (closed.tighter (by decide)) hQ

theorem comparison (h : Reads .sum e ts) : Reads .comparison e ts := by
  intro depth allowed s r more Q hs deep many closed hQ
  refine .bind (h.closed hs deep many (closed.tighter (by decide))) ?_
  rintro f _ ⟨hf, rfl⟩
  refine .bind (.get (Yields.stop (chainStep_closed closed))) ?_
  rintro _ _ ⟨rfl, rfl⟩
  exact hQ f _ (Nat.lt_succ_self _) hf

theorem negation (hw : Written .comparison e ts) (h : Reads .comparison e ts) : Reads .negation e ts := by
  intro depth allowed s r more Q hs deep many closed hQ
  obtain ⟨allowed, rfl⟩ : ∃ k, allowed = k + 1 := ⟨allowed - 1, by have := hw.length_pos; omega⟩
  have plain : (front (s ++ r :: more)).isSymbol .not = false := hw.front_ne hs (show ¬4 ≤ 3 by decide)
  refine .sees ?_
  rw [plain]
  refine (h.closed hs deep many (closed.tighter (by decide))).mono ?_
  rintro f _ ⟨hf, rfl⟩
  exact hQ f _ (Nat.lt_succ_self _) hf

theorem function (hw : Written .disjunction e ts) (h : Reads .disjunction e ts) : Reads .function e ts := by
  intro depth allowed s r more Q hs deep many closed hQ
  have noArrow : (front (r :: more)).isSymbol .rightArrow = false := closed.not_isSymbol rfl
  refine .get ?_
  rw [hw.functionAhead (Nat.le_refl _) hs noArrow]
  refine (h.closed hs deep many (closed.tighter (by decide))).mono ?_
  rintro f _ ⟨hf, rfl⟩
  exact hQ f _ (Nat.lt_succ_self _) hf

theorem adjacent (hw : Written m e ts) (h : Reads m e ts) (hm : m.rank = l.rank + 1) : Reads l e ts := by
  cases l with
  | function =>
    obtain rfl : m = .disjunction := Level.rank_injective hm
    exact h.function hw
  | disjunction =>
    obtain rfl : m = .conjunction := Level.rank_injective hm
    exact Level.groups_disjunction.looser h
  | conjunction =>
    obtain rfl : m = .negation := Level.rank_injective hm
    exact Level.groups_conjunction.looser h
  | negation =>
    obtain rfl : m = .comparison := Level.rank_injective hm
    exact h.negation hw
  | comparison =>
    obtain rfl : m = .sum := Level.rank_injective hm
    exact h.comparison
  | sum =>
    obtain rfl : m = .product := Level.rank_injective hm
    exact Level.groups_sum.looser h
  | product =>
    obtain rfl : m = .sign := Level.rank_injective hm
    exact Level.groups_product.looser h
  | sign =>
    obtain rfl : m = .power := Level.rank_injective hm
    exact h.sign
  | power =>
    obtain rfl : m = .operand := Level.rank_injective hm
    exact h.power hw
  | operand =>
    obtain rfl : m = .atom := Level.rank_injective hm
    exact h.operand
  | atom => cases m <;> cases hm

/-- What is read at a level is read at every looser one. -/
theorem looser (hw : Written m e ts) (h : Reads m e ts) (le : l.rank ≤ m.rank) : Reads l e ts := by
  obtain ⟨k, hk⟩ := Nat.exists_eq_add_of_le le
  induction k generalizing l with
  | zero =>
    obtain rfl : m = l := Level.rank_injective hk
    exact h
  | succ k ih =>
    obtain ⟨n, hn⟩ := Level.exists_tighter (show l.rank < m.rank by omega)
    exact (ih (by omega) (by omega)).adjacent (hw.looser (by omega)) hn

end Reads

end RecordStats
