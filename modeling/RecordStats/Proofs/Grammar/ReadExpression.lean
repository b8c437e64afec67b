import RecordStats.Proofs.Grammar.Reading
import RecordStats.Proofs.Source.Spelling

/-! Reading each kind of expression where it is written, functions apart. -/

namespace RecordStats

open RecordStats.Parser

/-! ### Expressions that differ in their places -/

namespace Expr

theorem literal?_of_unplaced {e f : Expr} (h : f.unplaced = e.unplaced) : f.literal? = e.literal? := by
  have unplaced (e : Expr) : e.unplaced.literal? = e.literal? := by cases e <;> rfl
  rw [← unplaced f, h, unplaced]

theorem name?_of_unplaced {e f : Expr} (h : f.unplaced = e.unplaced) : f.name? = e.name? := by
  have unplaced (e : Expr) : e.unplaced.name? = e.name? := by cases e <;> rfl
  rw [← unplaced f, h, unplaced]

theorem unplaced_apply {op : Operator} {es fs : List Expr} {mark s : Span} (h : fs.map unplaced = es.map unplaced) :
    (Expr.apply op fs mark).unplaced = (Expr.operator op es s).unplaced := by
  rw [Expr.apply, unplaced, unplaced, unplacedAll_eq_map, unplacedAll_eq_map, h]

end Expr

variable {l m : Level} {op : Operator} {a b e : Expr} {ts us : List Token} {s more : List Lexeme} {r : Lexeme}

/-- An expression inside brackets is read with one level of nesting less. -/
theorem Reads.within (h : Reads .function e ts) {depth : Nat} (hs : s.map Lexeme.token = ts)
    (deep : ts.length < depth) (closed : r.token.Closes .function) :
    Gives (expressionWithin depth) (s ++ r :: more) fun f t => f.unplaced = e.unplaced ∧ t = r :: more := by
  obtain ⟨depth, rfl⟩ : ∃ k, depth = k + 1 := ⟨depth - 1, by omega⟩
  exact h.closed hs (Nat.le_of_lt deep) (Nat.le_refl _) closed

/-! ### Operators -/

/-- The level of an operator between operands does not go on after the mark of a looser one. -/
theorem Operator.closes_mark {left right : Level} (h : op.sides? = some (left, right)) (le : op.level.rank < l.rank) :
    (Token.symbol op.mark).Closes l := by
  have level : (Token.symbol op.mark).level? = some op.level := by cases op <;> first | rfl | cases h
  rintro m hm
  rw [level] at hm
  cases hm
  exact le

theorem Level.Groups.binary {operators : List (Symbol × Operator)} {operand : Parser Expr → Parser Expr}
    {left right : Level} (g : l.Groups m operators operand) (sides : op.sides? = some (left, right))
    (hl : op.level = l) (hfind : operators.find? (fun o => (Token.symbol op.mark).isSymbol o.1) = some (op.mark, op))
    (ha : Reads l a ts) (hb : Reads m b us) (span : Span) :
    Reads l (.operator op [a, b] span) (ts ++ .symbol op.mark :: us) := by
  intro depth allowed w r more Q hw deep many closed hQ
  obtain ⟨s, k, t, rfl, hs, hk, ht⟩ := Lexeme.split hw
  rw [List.length_append, List.length_cons] at deep many
  have closes : k.token.Closes l.inside := by
    rw [hk, g.inside]
    exact Operator.closes_mark sides (by rw [hl]; exact g.tighter)
  rw [List.append_assoc, List.cons_append]
  -- The left operand is read, and the loop of the level is at the operator.
  refine ha depth allowed s k (t ++ r :: more) Q hs (by omega) (by omega) closes fun f steps hsteps hf => ?_
  obtain ⟨steps, rfl⟩ : ∃ n, steps = n + 1 := ⟨steps - 1, by omega⟩
  rw [g.resume]
  refine .again (R := fun d u => d.unplaced = (Expr.operator op [a, b] span).unplaced ∧ u = r :: more)
    (.current ?_) ?_
  · rw [show front (k :: (t ++ r :: more)) = k.token from rfl, hk, hfind]
    have long : us.length ≤ (t ++ r :: more).length + 1 := by
      rw [← ht, List.length_map, List.length_append]
      omega
    rw [g.inside] at closed
    refine .skip (.bind (g.operand _ _ _ (hb.closed ht (by omega) long closed)) ?_)
    rintro c _ ⟨hc, rfl⟩
    exact .pure ⟨_, rfl, Expr.unplaced_apply (by simp only [List.map_cons, List.map_nil, hf, hc]), rfl⟩
  · rintro d _ ⟨hd, rfl⟩
    rw [← g.resume]
    refine hQ d steps ?_ hd
    rw [List.length_append, List.length_cons] at hsteps
    omega

namespace Reads

theorem raised (written : Written .operand a ts) (h : Reads .operand a ts) (h' : Reads .sign b us) (span : Span) :
    Reads .power (.operator .power [a, b] span) (ts ++ .symbol .power :: us) := by
  intro depth allowed w r more Q hw deep many closed hQ
  obtain ⟨s, k, t, rfl, hs, hk, ht⟩ := Lexeme.split hw
  rw [List.length_append, List.length_cons] at deep many
  obtain ⟨allowed, rfl⟩ : ∃ n, allowed = n + 1 := ⟨allowed - 1, by omega⟩
  have closes : k.token.Closes .operand := by
    rw [hk]
    exact Operator.closes_mark (show Operator.power.sides? = some (.operand, .sign) from rfl) (by decide)
  rw [List.append_assoc, List.cons_append]
  refine factorWithin written hs (.bind (h.closed hs (by omega) (Nat.le_refl _) closes) ?_)
  rintro f _ ⟨hf, rfl⟩
  refine .sees ?_
  rw [show front (k :: (t ++ r :: more)) = k.token from rfl, hk]
  have many' : us.length ≤ allowed := by have := written.length_pos; omega
  refine .skip (.bind (h'.closed ht (by omega) many' closed.sign) ?_)
  rintro g _ ⟨hg, rfl⟩
  exact hQ _ _ (Nat.lt_succ_self _) (Expr.unplaced_apply (by simp only [List.map_cons, List.map_nil, hf, hg]))

theorem compared (sides : op.sides? = some (.sum, .sum)) (h : Reads .sum a ts) (h' : Reads .sum b us) (span : Span) :
    Reads .comparison (.operator op [a, b] span) (ts ++ .symbol op.mark :: us) := by
  intro depth allowed w r more Q hw deep many closed hQ
  obtain ⟨s, k, t, rfl, hs, hk, ht⟩ := Lexeme.split hw
  rw [List.length_append, List.length_cons] at deep many
  have level : op.level = .comparison := by cases op <;> first | rfl | cases sides
  have hfind : comparisons.find? (fun o => (Token.symbol op.mark).isSymbol o.1) = some (op.mark, op) := by
    cases op <;> first | rfl | cases sides
  have closes : k.token.Closes .sum := by
    rw [hk]
    exact Operator.closes_mark sides (by rw [level]; decide)
  rw [List.append_assoc, List.cons_append]
  refine .bind (h.closed hs (by omega) (Nat.le_refl _) closes) ?_
  rintro f _ ⟨hf, rfl⟩
  -- The loop takes this comparison and stops, since what follows compares nothing.
  refine .bind (Q := fun chain u => ∃ c, chain.2 = some c ∧ c.unplaced = (Expr.operator op [a, b] span).unplaced ∧
    u = r :: more) (.get ?_) ?_
  · refine .again (R := fun chain u => ∃ c, chain.2 = some c ∧ c.unplaced = (Expr.operator op [a, b] span).unplaced ∧
      u = r :: more) (.current ?_) ?_
    · rw [show front (k :: (t ++ r :: more)) = k.token from rfl, hk, hfind]
      refine .skip (.bind (h'.closed ht (by omega) (Nat.le_refl _) (closed.tighter (by decide))) ?_)
      rintro g _ ⟨hg, rfl⟩
      exact .pure ⟨_, rfl, _, rfl, Expr.unplaced_apply (by simp only [List.map_cons, List.map_nil, hf, hg]), rfl⟩
    · rintro chain _ ⟨c, hchain, hc, rfl⟩
      obtain ⟨n, hn⟩ : ∃ n, (k :: (t ++ r :: more)).length = n + 1 := ⟨_, rfl⟩
      rw [hn]
      refine (Yields.stop (chainStep_closed closed)).mono ?_
      rintro _ _ ⟨rfl, rfl⟩
      exact ⟨c, hchain, hc, rfl⟩
  · rintro chain _ ⟨c, hchain, hc, rfl⟩
    rw [hchain]
    exact hQ c _ (Nat.lt_succ_self _) hc

theorem binary {left right : Level} (sides : op.sides? = some (left, right)) (first : Written left a ts)
    (h : Reads left a ts) (h' : Reads right b us) (span : Span) :
    Reads op.level (.operator op [a, b] span) (ts ++ .symbol op.mark :: us) := by
  cases op with
  | or => cases sides; exact Level.groups_disjunction.binary rfl rfl rfl h h' span
  | and => cases sides; exact Level.groups_conjunction.binary rfl rfl rfl h h' span
  | plus => cases sides; exact Level.groups_sum.binary rfl rfl rfl h h' span
  | minus => cases sides; exact Level.groups_sum.binary rfl rfl rfl h h' span
  | times => cases sides; exact Level.groups_product.binary rfl rfl rfl h h' span
  | divide => cases sides; exact Level.groups_product.binary rfl rfl rfl h h' span
  | modulo => cases sides; exact Level.groups_product.binary rfl rfl rfl h h' span
  | power => cases sides; exact raised first h h' span
  | equal => cases sides; exact compared rfl h h' span
  | notEqual => cases sides; exact compared rfl h h' span
  | lessEqual => cases sides; exact compared rfl h h' span
  | less => cases sides; exact compared rfl h h' span
  | greaterEqual => cases sides; exact compared rfl h h' span
  | greater => cases sides; exact compared rfl h h' span
  | member | item | not | positive | negative => cases sides

theorem negated (h : Reads .negation a ts) (span : Span) :
    Reads .negation (.operator .not [a] span) (.symbol .not :: ts) := by
  intro depth allowed w r more Q hw deep many closed hQ
  obtain ⟨k, s, rfl, hk, hs⟩ := List.map_eq_cons_iff.mp hw
  rw [List.length_cons] at deep many
  obtain ⟨allowed, rfl⟩ : ∃ n, allowed = n + 1 := ⟨allowed - 1, by omega⟩
  refine .sees ?_
  rw [show front (k :: s ++ r :: more) = k.token from rfl, hk]
  refine .skip (.bind (h.closed hs (by omega) (by omega) closed) ?_)
  rintro f _ ⟨hf, rfl⟩
  exact hQ _ _ (Nat.lt_succ_self _) (Expr.unplaced_apply (by simp only [List.map_cons, List.map_nil, hf]))

/-- A sign before what is read as an operand of a sign. -/
theorem applied (hop : op.level = .sign) (h : Reads .sign a ts)
    (he : ∀ f mark, f.unplaced = a.unplaced → (applySign op f mark).unplaced = e.unplaced) :
    Reads .sign e (.symbol op.mark :: ts) := by
  intro depth allowed w r more Q hw deep many closed hQ
  obtain ⟨k, s, rfl, hk, hs⟩ := List.map_eq_cons_iff.mp hw
  rw [List.length_cons] at deep many
  obtain ⟨allowed, rfl⟩ : ∃ n, allowed = n + 1 := ⟨allowed - 1, by omega⟩
  have signed : Gives (do
      let mark ← advance
      return applySign op (← Parser.factorWithin (expressionWithin depth) allowed) mark) (k :: s ++ r :: more) Q := by
    refine .skip (.bind (h.closed hs (by omega) (by omega) closed) ?_)
    rintro f _ ⟨hf, rfl⟩
    exact hQ _ _ (Nat.lt_succ_self _) (he f _ hf)
  refine .current ?_
  rw [show front (k :: s ++ r :: more) = k.token from rfl, hk]
  cases op with
  | positive | negative => exact signed
  | _ => cases hop

theorem unary (one : op.arity = 1) (apart : op.Apart a) (h : Reads op.level a ts) (span : Span) :
    Reads op.level (.operator op [a] span) (.symbol op.mark :: ts) := by
  have signed (hop : op.level = .sign) : Reads .sign (.operator op [a] span) (.symbol op.mark :: ts) := by
    refine applied hop (hop ▸ h) fun f mark hf => ?_
    rw [applySign, Expr.literal?_of_unplaced hf, apart.unsigned]
    exact Expr.unplaced_apply (by simp only [List.map_cons, List.map_nil, hf])
  cases op with
  | not => exact negated h span
  | positive | negative => exact signed rfl
  | _ => cases one

/-! ### Operands -/

/-- A token that is an expression by itself. -/
theorem single {t : Token} (h : ∀ (inner : Parser Expr) (k r : Lexeme) (more : List Lexeme), k.token = t →
    Gives (Parser.atom inner) (k :: r :: more) fun f u => f.unplaced = e.unplaced ∧ u = r :: more) :
    Reads .atom e [t] := by
  intro depth allowed s r more Q hs deep many closed hQ
  obtain ⟨k, rfl, hk⟩ := List.map_eq_singleton_iff.mp hs
  refine (h _ k r more hk).mono ?_
  rintro f _ ⟨hf, rfl⟩
  exact hQ f _ (Nat.lt_succ_self _) hf

theorem integer (n : Int64) (span : Span) : Reads .atom (.literal (.integer n) span) [.integer n] :=
  single fun inner k r more hk => .currentSpan (.current (by
    rw [show front (k :: r :: more) = k.token from rfl, hk]
    exact .skip (s := []) (.pure ⟨rfl, rfl⟩)))

theorem string (text : String) (span : Span) : Reads .atom (.literal (.string text) span) [.string text] :=
  single fun inner k r more hk => .currentSpan (.current (by
    rw [show front (k :: r :: more) = k.token from rfl, hk]
    exact .skip (s := []) (.pure ⟨rfl, rfl⟩)))

theorem name (text : String) (span : Span) : Reads .atom (.name text span) [.name text] :=
  single fun inner k r more hk => .currentSpan (.current (by
    rw [show front (k :: r :: more) = k.token from rfl, hk]
    exact .skip (s := []) (.pure ⟨rfl, rfl⟩)))

theorem negative {n i : Int64} (below : n.toInt < 0) (hi : i.toInt = -n.toInt) (span : Span) :
    Reads .sign (.literal (.integer n) span) [.symbol .minus, .integer i] := by
  have whole : Written .atom (.literal (.integer i) span) [.integer i] := .integer span (by omega)
  have read : Reads .sign (.literal (.integer i) span) [.integer i] := (integer i span).looser whole (by decide)
  refine applied (show Operator.negative.level = .sign from rfl) read fun f mark hf => ?_
  have signed : signed? .negative (.integer i) = some (.integer n) := by
    rw [signed?, hi, Int.neg_neg, Lexeme.word?_toInt]
    rfl
  rw [applySign, Expr.literal?_of_unplaced hf, Expr.literal?, Option.bind_some, signed]
  rfl

theorem bracketed (h : Reads .function e ts) : Reads .atom e (Token.bracketed ts) := by
  intro depth allowed w r more Q hw deep many closed hQ
  obtain ⟨k, w, rfl, hk, hw⟩ := List.map_eq_cons_iff.mp hw
  obtain ⟨s, c, t, rfl, hs, hc, ht⟩ := Lexeme.split hw
  obtain rfl := List.map_eq_nil_iff.mp ht
  simp only [Token.bracketed, List.length_append, List.length_cons, List.length_nil] at deep
  have hfront : front (k :: (s ++ [c]) ++ r :: more) = .symbol .leftParen := hk
  refine .currentSpan (.current ?_)
  rw [hfront, List.cons_append, List.append_assoc]
  refine .skip (.bind (h.within hs (by omega) (by rw [hc]; exact Token.closes_of_level? rfl)) ?_)
  rintro f _ ⟨hf, rfl⟩
  refine .skipSymbol (s := []) hc (hQ _ _ (Nat.lt_succ_self _) ?_)
  rw [Expr.unplaced_withSpan, hf]

/-- What goes on with an operand. -/
theorem followed {x : Symbol} (hx : (Token.symbol x).Closes .atom) (h : Reads .operand a ts)
    (hstep : ∀ (depth : Nat) (f : Expr) (k : Lexeme) (w : List Lexeme) (r : Lexeme) (more : List Lexeme),
      us.length ≤ depth → f.unplaced = a.unplaced → k.token = .symbol x → w.map Lexeme.token = us →
      Gives (postfixStep (expressionWithin depth) f) (k :: (w ++ r :: more)) fun o u =>
        ∃ d, o = some d ∧ d.unplaced = e.unplaced ∧ u = r :: more) :
    Reads .operand e (ts ++ .symbol x :: us) := by
  intro depth allowed w r more Q hw deep many closed hQ
  obtain ⟨s, k, t, rfl, hs, hk, ht⟩ := Lexeme.split hw
  rw [List.length_append, List.length_cons] at deep many
  rw [List.append_assoc, List.cons_append]
  refine h depth allowed s k _ Q hs (by omega) (by omega) (by rw [hk]; exact hx) fun f steps hsteps hf => ?_
  obtain ⟨steps, rfl⟩ : ∃ n, steps = n + 1 := ⟨steps - 1, by omega⟩
  refine .again (hstep depth f k t r more (by omega) hf hk ht) ?_
  rintro d _ ⟨hd, rfl⟩
  exact hQ d steps (by rw [List.length_append, List.length_cons] at hsteps; omega) hd

theorem member (h : Reads .operand a ts) (text : String) (span place : Span) :
    Reads .operand (.operator .member [a, .name text place] span) (ts ++ [.symbol .dot, .name text]) := by
  refine followed (by decide) h fun depth f k w r more _ hf hk hw => .current ?_
  obtain ⟨n, rfl, hn⟩ := List.map_eq_singleton_iff.mp hw
  rw [show front (k :: ([n] ++ r :: more)) = k.token from rfl, hk]
  refine .skip (.skipName (s := []) hn (.pure ⟨_, rfl, Expr.unplaced_apply ?_, rfl⟩))
  simp only [List.map_cons, List.map_nil, hf, Expr.unplaced]

theorem item (h : Reads .operand a ts) (h' : Reads .function b us) (span : Span) :
    Reads .operand (.operator .item [a, b] span) (ts ++ .symbol .leftBracket :: (us ++ [.symbol .rightBracket])) := by
  refine followed (by decide) h fun depth f k w r more deep hf hk hw => .current ?_
  obtain ⟨t, c, v, rfl, ht, hc, hv⟩ := Lexeme.split hw
  obtain rfl := List.map_eq_nil_iff.mp hv
  rw [List.length_append, List.length_singleton] at deep
  rw [show front (k :: (t ++ [c] ++ r :: more)) = k.token from rfl, hk, List.append_assoc]
  refine .skip (.bind (h'.within ht deep (by rw [hc]; decide)) ?_)
  rintro g _ ⟨hg, rfl⟩
  refine .skipSymbol (s := []) hc (.pure ⟨_, rfl, ?_, rfl⟩)
  rw [Expr.unplaced_withSpan]
  exact Expr.unplaced_apply (by simp only [List.map_cons, List.map_nil, hf, hg])

end Reads

/-! ### Lists in parentheses -/

/-- One more item of a list that a parenthesis closes; those so far are in reverse. -/
def Parser.listStep {α : Type} (item : Parser α) (expected : String) (sofar : List α) : Parser (Option (List α)) := do
  if ← sees .rightParen then return none
  let a ← item
  unless ← sees .rightParen do
    let _ ← expect .comma expected
  return some (a :: sofar)

theorem Parser.arguments_eq (inner : Parser Expr) : arguments inner = (do
    let reversed ← repeating (listStep inner "',' or ')'") []
    return reversed.reverse) := rfl

/-- The parser of the items reads the tokens as an item of the form `c`. -/
structure ReadsItem {α γ : Type} (item : Parser α) (form : α → γ) (c : γ) (ts : List Token) : Prop where
  opens : ∃ t us, ts = t :: us ∧ t.isSymbol .rightParen = false
  reads : ∀ {s more : List Lexeme} {r : Lexeme}, s.map Lexeme.token = ts →
    r.token = .symbol .comma ∨ r.token = .symbol .rightParen →
      Gives item (s ++ r :: more) fun a t => form a = c ∧ t = r :: more

theorem ReadsItem.listed {α γ : Type} {item : Parser α} {form : α → γ} {expected : String} {cs : List γ}
    {tss : List (List Token)} (h : List.Forall₂ (ReadsItem item form) cs tss) {steps : Nat} {sofar : List α}
    {s more : List Lexeme} {r : Lexeme} (hs : s.map Lexeme.token = Token.listed tss) (many : s.length < steps)
    (hr : r.token = .symbol .rightParen) :
    Gives (repeatWithin (listStep item expected) steps sofar) (s ++ r :: more) fun as t =>
      as.reverse.map form = sofar.reverse.map form ++ cs ∧ t = r :: more := by
  induction h generalizing steps sofar s with
  | nil =>
    obtain ⟨steps, rfl⟩ : ∃ n, steps = n + 1 := ⟨steps - 1, by omega⟩
    obtain rfl := List.map_eq_nil_iff.mp hs
    refine .mono (.stop (.sees ?_)) ?_
    · rw [show front ([] ++ r :: more) = r.token from rfl, hr]
      exact .pure ⟨rfl, rfl⟩
    · rintro _ _ ⟨rfl, rfl⟩
      exact ⟨by rw [List.append_nil], rfl⟩
  | @cons c ts cs tss first rest ih =>
    obtain ⟨steps, rfl⟩ : ∃ n, steps = n + 1 := ⟨steps - 1, by omega⟩
    rw [Token.listed_cons] at hs
    obtain ⟨s, t, rfl, hfirst, ht⟩ := List.map_eq_append_iff.mp hs
    obtain ⟨head, us, rfl, hhead⟩ := first.opens
    have hne : s ≠ [] := by
      rintro rfl
      cases hfirst
    have hpos : 0 < s.length := List.length_pos_iff.mpr hne
    rw [List.length_append] at many
    rw [List.append_assoc]
    -- The item is read, and then a comma if another item follows.
    refine .again (R := fun as u => ∃ a w, as = a :: sofar ∧ form a = c ∧ u = w ++ r :: more ∧
      w.map Lexeme.token = Token.listed tss ∧ w.length ≤ t.length) (.sees (.ite (fun hclosed => ?_) fun _ => ?_)) ?_
    · obtain ⟨k, v, rfl, rfl, -⟩ := List.map_eq_cons_iff.mp hfirst
      rw [show front (k :: v ++ (t ++ r :: more)) = k.token from rfl, hhead] at hclosed
      cases hclosed
    · cases tss with
      | nil =>
        obtain rfl := List.map_eq_nil_iff.mp ht
        refine .bind (first.reads hfirst (.inr hr)) ?_
        rintro a _ ⟨ha, rfl⟩
        refine .sees ?_
        rw [show front (r :: more) = r.token from rfl, hr]
        exact .pure ⟨_, rfl, a, [], rfl, ha, rfl, rfl, Nat.le_refl _⟩
      | cons us tss =>
        obtain ⟨k, w, rfl, hk, hw⟩ := List.map_eq_cons_iff.mp ht
        rw [List.cons_append]
        refine .bind (first.reads hfirst (.inl hk)) ?_
        rintro a _ ⟨ha, rfl⟩
        refine .sees ?_
        rw [show front (k :: (w ++ r :: more)) = k.token from rfl, hk]
        exact .skipSymbol hk (.pure ⟨_, rfl, a, w, rfl, ha, rfl, hw, Nat.le_succ _⟩)
    · rintro _ _ ⟨a, w, rfl, ha, rfl, hw, hlen⟩
      refine (ih hw (by omega)).mono ?_
      rintro as _ ⟨has, rfl⟩
      exact ⟨by rw [has, List.reverse_cons, List.map_append, List.append_assoc, List.map_singleton, ha,
        List.singleton_append], rfl⟩

theorem ReadsItem.expressions {es : List Expr} {tss : List (List Token)} {depth : Nat}
    (h : List.Forall₂ (fun e us => Written .function e us ∧ Reads .function e us) es tss)
    (deep : (Token.listed tss).length < depth) :
    List.Forall₂ (ReadsItem (expressionWithin depth) Expr.unplaced) (es.map Expr.unplaced) tss := by
  have deep (us : List Token) (hus : us ∈ tss) : us.length < depth :=
    Nat.lt_of_le_of_lt (Token.length_le_listed hus) deep
  clear * - h deep
  induction h with
  | nil => exact .nil
  | @cons e us es tss first rest ih =>
    refine .cons ⟨?_, fun hs hr => ?_⟩ (ih fun vs hvs => deep vs (List.mem_cons_of_mem _ hvs))
    · obtain ⟨t, more, rfl, opens⟩ := first.1.opens
      refine ⟨t, more, rfl, ?_⟩
      cases t with
      | symbol x => cases x <;> first | rfl | exact opens.elim
      | _ => rfl
    · refine first.2.within hs (deep us List.mem_cons_self) ?_
      rcases hr with hr | hr <;> rw [hr] <;> decide

namespace Reads

theorem call {es : List Expr} {tss : List (List Token)} (h : Reads .operand a ts)
    (hs : List.Forall₂ (fun e us => Written .function e us ∧ Reads .function e us) es tss) (span : Span) :
    Reads .operand (.call a es span) (ts ++ Token.bracketed (Token.listed tss)) := by
  refine followed (by decide) h fun depth f k w r more deep hf hk hw => .current ?_
  obtain ⟨t, c, v, rfl, ht, hc, hv⟩ := Lexeme.split hw
  obtain rfl := List.map_eq_nil_iff.mp hv
  rw [List.length_append, List.length_singleton] at deep
  have items := ReadsItem.expressions hs (by rw [← ht, List.length_map]; rw [← ht, List.length_map] at deep; exact deep)
  rw [show front (k :: (t ++ [c] ++ r :: more)) = k.token from rfl, hk, List.append_assoc]
  refine .skip (.bind (Q := fun fs u => fs.map Expr.unplaced = es.map Expr.unplaced ∧ u = c :: r :: more) ?_ ?_)
  · rw [arguments_eq]
    refine .bind (.get (ReadsItem.listed items ht ?_ hc)) ?_
    · rw [List.length_append]
      omega
    · rintro fs _ ⟨hfs, rfl⟩
      exact .pure ⟨hfs, rfl⟩
  · rintro fs _ ⟨hfs, rfl⟩
    refine .skipSymbol (s := []) hc (.pure ⟨_, rfl, ?_, rfl⟩)
    rw [Expr.callUpTo, Expr.unplaced, Expr.unplaced, hf, Expr.unplacedAll_eq_map, hfs, Expr.unplacedAll_eq_map]

end Reads

end RecordStats
