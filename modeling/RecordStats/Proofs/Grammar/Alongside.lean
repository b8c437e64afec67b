import RecordStats.Proofs.Grammar.Phrase
import RecordStats.Proofs.Grammar.Reading
import RecordStats.Proofs.Grammar.Stream
import RecordStats.Proofs.Source.NextLine

/-! A parser on lexemes, and on the same ones where others stand instead of the mark of the end. It reads the same,
    unless what it has read ends with the lexemes and goes on with what stands behind them. -/

namespace RecordStats

/-- The symbols that a statement or a result can begin with, and those that can stand behind a statement. -/
def Symbol.begins : Symbol → Bool
  | count | sum | profile | fraction | source | not | region | vary | each => true
  | leftParen | plus | minus => true
  | semicolon | rightBrace => true
  | _ => false

/-- The symbols that can stand behind an operand of a comparison as well. -/
def Symbol.follows (x : Symbol) : Bool :=
  x.begins || (Parser.comparisons.map Prod.fst).contains x

theorem Symbol.follows_of_begins {x : Symbol} (h : x.begins = true) : x.follows = true := by
  rw [follows, h, Bool.true_or]

/-- The token begins something, and goes on with an operand or a sum that stands before it. -/
def Token.goesOn : Token → Bool
  | symbol .leftParen | symbol .plus | symbol .minus => true
  | _ => false

namespace Parser

/-! ### Lexemes with others behind them -/

/-- What stands behind other lexemes instead of the mark of their end. -/
structure Tail where
  lexemes : List Lexeme
  some : lexemes ≠ []
  follows : ∀ x, front lexemes = .symbol x → x.follows = true
  /-- How many lexemes stand before it at most. -/
  most : Nat

/-- The tail does not begin with a comparison. -/
class Tail.Begins (tail : Tail) : Prop where
  begins : ∀ x, front tail.lexemes = .symbol x → x.begins = true

theorem Tail.sees (tail : Tail) {x : Symbol} (hx : x.follows = false) : (front tail.lexemes).isSymbol x = false := by
  refine Bool.eq_false_iff.mpr fun hsees => ?_
  rw [tail.follows x (Token.eq_of_isSymbol hsees)] at hx
  cases hx

theorem Tail.Begins.sees {tail : Tail} (h : tail.Begins) {x : Symbol} (hx : x.begins = false) :
    (front tail.lexemes).isSymbol x = false := by
  refine Bool.eq_false_iff.mpr fun hsees => ?_
  rw [h.begins x (Token.eq_of_isSymbol hsees)] at hx
  cases hx

/-- The second lexemes are alike to the first, with others instead of the mark of the end. -/
inductive Joins (more : List Lexeme) : List Lexeme → List Lexeme → Prop
  | finish {l : Lexeme} (token : l.token = .finish) : Joins more [l] more
  | token {l m : Lexeme} {s s' : List Lexeme} (token : l.token ≠ .finish) (alike : l.Alike m) (later : Joins more s s') :
      Joins more (l :: s) (m :: s')

/-- Each parenthesis that opens is closed. -/
def Balanced (s : List Lexeme) : Prop :=
  ∀ before l rest, s = before ++ l :: rest → l.token = .symbol .leftParen →
    ∃ inside m more, rest = inside ++ m :: more ∧ Lexeme.Matched inside ∧ m.token = .symbol .rightParen

theorem Balanced.finish {l : Lexeme} (token : l.token = .finish) : Balanced [l] := by
  intro before m rest hsplit hm
  cases before with
  | nil =>
    cases hsplit
    rw [token] at hm
    cases hm
  | cons _ before => cases before <;> cases hsplit

/-- What stands before the mark of the end, if anything does, is a closing brace or a semicolon. -/
def Shut (s : List Lexeme) : Prop :=
  ∀ before l m, s = before ++ [l, m] → l.token.isSymbol .rightBrace = true ∨ l.token.isSymbol .semicolon = true

/-- The first lexemes are some of a text, from one of them to its end; the second ones are alike, with a tail. Where
    `free`, a sum that ends with the text does not go on with the tail. -/
structure Joined (tail : Tail) (free : Prop) (s s' : List Lexeme) : Prop where
  joins : Joins tail.lexemes s s'
  ordered : InOrder s
  balanced : Balanced s
  few : s.length ≤ tail.most + 1
  apart : free → (front tail.lexemes).goesOn = false ∨ Shut s

variable {tail : Tail} {free : Prop} {s s' t t' u u' : List Lexeme}

theorem InOrder.eq_singleton (h : InOrder s) (hfront : front s = .finish) : ∃ l, s = [l] ∧ l.token = .finish := by
  cases h with
  | finish token => exact ⟨_, rfl, token⟩
  | token token => exact absurd hfront token

theorem InOrder.ne_nil (h : InOrder s) : s ≠ [] := by
  cases h <;> exact List.cons_ne_nil _ _

/-- Nothing that ends like an operand is read where nothing is left. -/
theorem EndsOperand.front_ne (h : EndsOperand s t) (hs : InOrder s) (ht : InOrder t) : Parser.front s ≠ .finish := by
  intro hfront
  obtain ⟨l, rfl, -⟩ := hs.eq_singleton hfront
  obtain ⟨run, m, hrun, -⟩ := h
  have length := congrArg List.length hrun
  have := List.length_pos_iff.mpr ht.ne_nil
  simp only [List.length_append, List.length_cons, List.length_nil] at length
  omega

namespace Joins

variable {more : List Lexeme}

theorem ne_nil (h : Joins more s s') (some : more ≠ []) : s' ≠ [] := by
  cases h with
  | finish => exact some
  | token => exact List.cons_ne_nil _ _

theorem length_le (h : Joins more s s') (some : more ≠ []) : s.length ≤ s'.length := by
  induction h with
  | finish => exact List.length_pos_iff.mpr some
  | token _ _ _ ih => exact Nat.succ_le_succ ih

theorem behind (h : Joins more s s') (some : more ≠ []) (ordered : InOrder s) (hfront : front s ≠ .finish) :
    Joins more (behind s) (behind s') := by
  cases h with
  | finish token => exact absurd token hfront
  | @token _ _ _ s' token _ later =>
    cases ordered with
    | finish finish => exact absurd finish token
    | token =>
      cases s' with
      | nil => exact absurd rfl (later.ne_nil some)
      | cons => exact later

/-- Lexemes that are alike, the second ones with others instead of the mark of their end. -/
theorem of_alike {run : List Lexeme} (h : InOrder s) (alike : List.Forall₂ Lexeme.Alike s.dropLast run)
    (more : List Lexeme) : Joins more s (run ++ more) := by
  induction h generalizing run with
  | finish token =>
    obtain rfl := List.forall₂_nil_left_iff.mp alike
    exact .finish token
  | token token _ _ later ih =>
    rw [List.dropLast_cons_of_ne_nil later.ne_nil] at alike
    obtain ⟨l, run, hl, hlater, rfl⟩ := List.forall₂_cons_left_iff.mp alike
    exact .token token hl (ih hlater)

theorem length_eq {more : List Lexeme} (h : Joins more s s') : s'.length + 1 = s.length + more.length := by
  induction h with
  | finish => simp [Nat.add_comm]
  | token _ _ _ ih =>
    rw [List.length_cons, List.length_cons]
    omega

/-- A symbol that no tail begins with is seen in both or in none. -/
theorem sees (h : Joins tail.lexemes s s') {x : Symbol} (hx : x.follows = false) :
    (front s').isSymbol x = (front s).isSymbol x := by
  cases h with
  | finish token =>
    rw [tail.sees hx, show front [_] = _ from token]
    rfl
  | token _ alike => exact congrArg _ alike.token.symm

end Joins

namespace Joined

theorem front_eq (h : Joined tail free s s') (hfront : front s ≠ .finish) : front s' = front s := by
  cases h.joins with
  | finish token => exact absurd token hfront
  | token _ alike => exact alike.token.symm

/-- Where the first lexemes end, the tail is left. -/
theorem eq_tail (h : Joined tail free s s') (hfront : front s = .finish) : s' = tail.lexemes := by
  cases h.joins with
  | finish => rfl
  | token token => exact absurd hfront token

/-- The mark of the end and a tail. -/
theorem finish {l : Lexeme} (hs : InOrder [l]) (token : l.token = .finish) : Joined tail free [l] tail.lexemes where
  joins := .finish token
  ordered := hs
  balanced := .finish token
  few := Nat.succ_le_succ (Nat.zero_le _)
  apart := fun _ => .inr fun before _ _ hsplit => by
    cases before with
    | nil => cases hsplit
    | cons _ before => cases before <;> cases hsplit

theorem behind (h : Joined tail free s s') (hfront : front s ≠ .finish) :
    Joined tail free (behind s) (behind s') := by
  obtain ⟨l, hs, hl⟩ := h.ordered.eq_cons hfront
  have suffix {before rest : List Lexeme} (hsplit : Parser.behind s = before ++ rest) : s = (l :: before) ++ rest := by
    rw [hs, hsplit]
    rfl
  refine ⟨?_, h.ordered.behind, fun before m rest hsplit => h.balanced (l :: before) m rest (suffix hsplit), ?_,
    fun hfree => (h.apart hfree).imp_right fun shut before m k hsplit => shut (l :: before) m k (suffix hsplit)⟩
  · exact h.joins.behind tail.some h.ordered hfront
  · exact Nat.le_trans (Stream.length_behind s) h.few

/-- A symbol that no tail begins with is seen in both or in none. -/
theorem sees (h : Joined tail free s s') {x : Symbol} (hx : x.follows = false) :
    (front s').isSymbol x = (front s).isSymbol x := h.joins.sees hx

/-- So is one that begins nothing, where something is left or the tail does not begin with a comparison. -/
theorem sees_unless (h : Joined tail free s s') (hlast : front s = .finish → tail.Begins) {x : Symbol}
    (hx : x.begins = false) : (front s').isSymbol x = (front s).isSymbol x := by
  by_cases hfront : front s = .finish
  · rw [h.eq_tail hfront, (hlast hfront).sees hx, hfront]
    rfl
  · rw [h.front_eq hfront]

/-- Behind what ends like an operand, a symbol that no tail begins with but for a sum is seen in both or in none. -/
theorem sees_after (h : Joined tail free s s') (ht : Joined tail free t t') (ends : EndsOperand s t)
    (hfree : front t = .finish → free) {x : Symbol} (hx : x.follows = false ∨ (Token.symbol x).goesOn = true) :
    (front t').isSymbol x = (front t).isSymbol x := by
  rcases hx with hx | hx
  · exact ht.sees hx
  by_cases hfront : front t = .finish
  · rw [ht.eq_tail hfront, hfront]
    refine Bool.eq_false_iff.mpr fun hsees => ?_
    rcases h.apart (hfree hfront) with apart | shut
    · rw [Token.eq_of_isSymbol hsees, hx] at apart
      cases apart
    · obtain ⟨l, rfl, -⟩ := ht.ordered.eq_singleton hfront
      obtain ⟨run, m, hrun, hbrace, hsemicolon⟩ := ends
      rcases shut run m l hrun with h | h
      · rw [hbrace] at h
        cases h
      · rw [hsemicolon] at h
        cases h
  · rw [ht.front_eq hfront]

theorem length_le (h : Joined tail free s s') : s.length ≤ s'.length := h.joins.length_le tail.some

end Joined

/-! ### Looking ahead -/

/-- Where a parenthesis closes, parameters are looked for no farther. -/
theorem Joins.parametersAhead (h : Joins tail.lexemes s s') {l : Lexeme} (hl : l ∈ s)
    (closes : l.token = .symbol .rightParen) : parametersAhead s' = Parser.parametersAhead s := by
  induction h with
  | finish token =>
    obtain rfl := List.mem_singleton.mp hl
    rw [token] at closes
    cases closes
  | @token k m s s' _ alike later ih =>
    have inside (hk : k.token ≠ .symbol .rightParen) : Parser.parametersAhead s' = Parser.parametersAhead s := by
      rcases List.mem_cons.mp hl with rfl | hl
      · exact absurd closes hk
      · exact ih hl
    rw [Parser.parametersAhead, Parser.parametersAhead, ← alike.token]
    split
    · next hk => exact inside fun closing => by cases hk.symm.trans closing
    · next hk => exact inside fun closing => by cases hk.symm.trans closing
    · exact later.sees rfl
    · rfl

theorem Joins.eq_cons {more : List Lexeme} {l : Lexeme} (h : Joins more (l :: s) s') (hs : s ≠ []) :
    ∃ m t', s' = m :: t' ∧ l.Alike m ∧ Joins more s t' := by
  cases h with
  | finish => exact absurd rfl hs
  | token _ alike later => exact ⟨_, _, rfl, alike, later⟩

/-- Behind parentheses that are all closed, what is left is left with the tail. -/
theorem Joins.matched {more run rest : List Lexeme} (hrun : Lexeme.Matched run) (h : Joins more (run ++ rest) s')
    (hrest : rest ≠ []) : ∃ run' rest', s' = run' ++ rest' ∧ Lexeme.Matched run' ∧ Joins more rest rest' := by
  induction hrun generalizing rest s' with
  | nil => exact ⟨[], s', rfl, .nil, h⟩
  | token plain _ ih =>
    obtain ⟨m, _, rfl, alike, later⟩ := h.eq_cons (List.append_ne_nil_of_right_ne_nil _ hrest)
    obtain ⟨run', rest', rfl, hrun, hrest⟩ := ih later hrest
    exact ⟨m :: run', rest', rfl, .token (alike.token ▸ plain) hrun, hrest⟩
  | @group _ k inside run opens _ closes _ inner later =>
    rw [List.cons_append, List.append_assoc, List.cons_append] at h
    have hmore := List.append_ne_nil_of_right_ne_nil run hrest
    obtain ⟨m, _, rfl, alike, h⟩ := h.eq_cons (List.append_ne_nil_of_right_ne_nil inside (List.cons_ne_nil _ _))
    obtain ⟨inside', _, rfl, hinside, h⟩ := inner h (List.cons_ne_nil _ _)
    obtain ⟨m', _, rfl, alike', h⟩ := h.eq_cons hmore
    obtain ⟨run', rest', rfl, hrun, hrest⟩ := later h hrest
    refine ⟨m :: (inside' ++ m' :: run'), rest', by simp, ?_, hrest⟩
    exact .group (alike.token ▸ opens) hinside (alike'.token ▸ closes) hrun

namespace Joined

theorem second_eq (h : Joined tail free s s') (hfront : front s ≠ .finish) : second s' = front (Parser.behind s') := by
  cases h.joins with
  | finish token => exact absurd token hfront
  | @token _ _ _ s' _ _ later =>
    cases s' with
    | nil => exact absurd rfl (later.ne_nil tail.some)
    | cons => rfl

theorem drop_eq (h : Joined tail free s s') (hfront : front s ≠ .finish) :
    s.drop 1 = Parser.behind s ∧ s'.drop 1 = Parser.behind s' := by
  refine ⟨h.ordered.drop_one hfront, ?_⟩
  cases h.joins with
  | finish token => exact absurd token hfront
  | @token _ _ _ s' _ _ later =>
    cases s' with
    | nil => exact absurd rfl (later.ne_nil tail.some)
    | cons => rfl

/-- A function is ahead of both or of none. -/
theorem functionAhead (h : Joined tail free s s') (hfront : front s ≠ .finish) :
    functionAhead s' = Parser.functionAhead s := by
  have hbehind := h.behind hfront
  rw [Parser.functionAhead, Parser.functionAhead, h.front_eq hfront]
  split
  · rw [h.second_eq hfront, ← h.ordered.front_behind hfront]
    exact hbehind.sees rfl
  · next hopens =>
    obtain ⟨l, hs, hl⟩ := h.ordered.eq_cons hfront
    obtain ⟨inside, m, rest, hsplit, -, closes⟩ := h.balanced [] l _ hs (hl.trans hopens)
    obtain ⟨hdrop, hdrop'⟩ := h.drop_eq hfront
    rw [hdrop, hdrop']
    exact hbehind.joins.parametersAhead (hsplit ▸ List.mem_append_right _ List.mem_cons_self) closes
  · rfl

end Joined

/-! ### Parsers side by side -/

/-- If the first parser gives something, then the second one gives something like it and leaves what is left with the
    tail. Where nothing of the first lexemes is left, this holds only if `last`. -/
def Alongside {α : Type} (tail : Tail) (free last : Prop) (p q : Parser α) (s s' : List Lexeme) (R : α → α → Prop) :
    Prop :=
  ∀ a t, p s = .ok (a, t) → InOrder t ∧ (front s = .finish → front t = .finish) ∧
    ((front t = .finish → last) → ∃ b t', q s' = .ok (b, t') ∧ R a b ∧ Joined tail free t t')

theorem bind_eq_ok {α β : Type} {p : Parser α} {f : α → Parser β} {b : β} (h : (p >>= f) s = .ok (b, u)) :
    ∃ a t, p s = .ok (a, t) ∧ f a t = .ok (b, u) := by
  have run : (p >>= f) s = p s >>= fun r => f r.1 r.2 := rfl
  rw [run] at h
  cases hp : p s with
  | error e =>
    rw [hp] at h
    cases h
  | ok r =>
    rw [hp] at h
    exact ⟨r.1, r.2, rfl, h⟩

theorem bind_run {α β : Type} {p : Parser α} {f : α → Parser β} {a : α} (h : p s = .ok (a, t)) :
    (p >>= f) s = f a t := by
  have run : (p >>= f) s = p s >>= fun r => f r.1 r.2 := rfl
  rw [run, h]
  rfl

theorem requireSeparator_cons (separated : Bool) (l : Lexeme) (rest : List Lexeme) :
    requireSeparator separated (l :: rest) = if (separated || l.afterNewline) = true then .ok ((), l :: rest)
      else .error (.fault (.grammatical .missingSeparator l.span)) := by
  obtain ⟨token, span, flag⟩ := l
  cases separated <;> cases flag <;> rfl

namespace Alongside

variable {α β : Type} {last : Prop} {p q : Parser α} {f g : α → Parser β} {R : α → α → Prop} {T : β → β → Prop}

theorem pure (h : Joined tail free s s') {a b : α} (hab : R a b) :
    Alongside tail free last (Pure.pure a) (Pure.pure b) s s' R := by
  intro c t hrun
  cases hrun
  exact ⟨h.ordered, id, fun _ => ⟨b, s', rfl, hab, h⟩⟩

/-- A first parser that gives nothing. -/
theorem stops (h : Yields (fun _ => True) p s fun _ _ => False) : Alongside tail free last p q s s' R :=
  fun _ _ hrun => (h.of_eq hrun).elim

theorem mono {R' : α → α → Prop} (h : Alongside tail free last p q s s' R) (hR : ∀ a b, R a b → R' a b) :
    Alongside tail free last p q s s' R' := by
  intro a t hrun
  obtain ⟨ordered, stays, gives⟩ := h a t hrun
  refine ⟨ordered, stays, fun hlast => ?_⟩
  obtain ⟨b, t', hq, hab, ht⟩ := gives hlast
  exact ⟨b, t', hq, hR a b hab, ht⟩

/-- What is read first is like itself, so that the rest is known where nothing is left for it. -/
theorem bind (hp : Alongside tail free last p q s s' R) (refl : ∀ a, R a a)
    (hf : ∀ a b t t', p s = .ok (a, t) → R a b → Joined tail free t t' →
      Alongside tail free last (f a) (g b) t t' T) : Alongside tail free last (p >>= f) (q >>= g) s s' T := by
  intro c u hrun
  obtain ⟨a, t, hfirst, hrest⟩ := bind_eq_ok hrun
  obtain ⟨ordered, stays, gives⟩ := hp a t hfirst
  by_cases hfront : front t = .finish
  · obtain ⟨l, rfl, hl⟩ := ordered.eq_singleton hfront
    obtain ⟨hu, ends, -⟩ := hf a a _ _ hfirst (refl a) (.finish ordered hl) c u hrest
    refine ⟨hu, fun _ => ends hfront, fun hlast => ?_⟩
    obtain ⟨b, t', hq, hab, ht⟩ := gives fun _ => hlast (ends hfront)
    rw [bind_run hq]
    exact (hf a b _ t' hfirst hab ht c u hrest).2.2 hlast
  · obtain ⟨b, t', hq, hab, ht⟩ := gives fun h => absurd h hfront
    obtain ⟨hu, -, more⟩ := hf a b t t' hfirst hab ht c u hrest
    refine ⟨hu, fun hs => absurd (stays hs) hfront, fun hlast => ?_⟩
    rw [bind_run hq]
    exact more hlast

/-- Nothing is given where nothing is left for the rest. -/
theorem bind_of_stops (hp : Alongside tail free False p q s s' R)
    (stops : ∀ a t, InOrder t → front t = .finish → Yields (fun _ => True) (f a) t fun _ _ => False)
    (hf : ∀ a b t t', front t ≠ .finish → R a b → Joined tail free t t' →
      Alongside tail free last (f a) (g b) t t' T) : Alongside tail free last (p >>= f) (q >>= g) s s' T := by
  intro c u hrun
  obtain ⟨a, t, hfirst, hrest⟩ := bind_eq_ok hrun
  obtain ⟨ordered, stays, gives⟩ := hp a t hfirst
  have hfront : front t ≠ .finish := fun hfront => (stops a t ordered hfront).of_eq hrest
  obtain ⟨b, t', hq, hab, ht⟩ := gives hfront
  obtain ⟨hu, -, more⟩ := hf a b t t' hfront hab ht c u hrest
  refine ⟨hu, fun hs => absurd (stays hs) hfront, fun hlast => ?_⟩
  rw [bind_run hq]
  exact more hlast

theorem weaken {less : Prop} (h : Alongside tail free last p q s s' R) (hless : less → last) :
    Alongside tail free less p q s s' R := by
  intro a t hrun
  obtain ⟨ordered, stays, gives⟩ := h a t hrun
  exact ⟨ordered, stays, fun hfront => gives fun h => hless (hfront h)⟩

/-- It may be supposed that something is left, or that the end is no matter. -/
theorem unless_finish (hs : Joined tail free s s') (h : (front s = .finish → last) → Alongside tail free last p q s s' R)
    (stays : front s = .finish → Yields (fun _ => True) p s fun _ t => t = s) : Alongside tail free last p q s s' R := by
  by_cases hlast : front s = .finish → last
  · exact h hlast
  · obtain ⟨hfront, -⟩ := Classical.not_imp.mp hlast
    intro a t hrun
    obtain rfl := (stays hfront).of_eq hrun
    exact ⟨hs.ordered, id, fun h => absurd h hlast⟩

theorem ite {c : Prop} [Decidable c] {p' q' : Parser α} (hp : c → Alongside tail free last p q s s' R)
    (hp' : ¬c → Alongside tail free last p' q' s s' R) :
    Alongside tail free last (if c then p else p') (if c then q else q') s s' R := by
  split
  · next h => exact hp h
  · next h => exact hp' h

/-! ### Tokens -/

section Tokens

variable {k l : α → Parser β}

theorem get {f g : List Lexeme → Parser α} (h : Alongside tail free last (f s) (g s') s s' R) :
    Alongside tail free last (MonadState.get >>= f) (MonadState.get >>= g) s s' R := h

theorem current {f g : Token → Parser α} (h : Alongside tail free last (f (front s)) (g (front s')) s s' R) :
    Alongside tail free last (Parser.current >>= f) (Parser.current >>= g) s s' R := h

theorem currentSpan {f g : Span → Parser α} (h : Alongside tail free last (f (frontSpan s)) (g (frontSpan s')) s s' R) :
    Alongside tail free last (Parser.currentSpan >>= f) (Parser.currentSpan >>= g) s s' R := h

/-- A symbol that both see or none. -/
theorem sees {x : Symbol} {f g : Bool → Parser α} (hx : (front s').isSymbol x = (front s).isSymbol x)
    (h : Alongside tail free last (f ((front s).isSymbol x)) (g ((front s).isSymbol x)) s s' R) :
    Alongside tail free last (Parser.sees x >>= f) (Parser.sees x >>= g) s s' R := by
  intro a t hrun
  obtain ⟨ordered, stays, gives⟩ := h a t hrun
  refine ⟨ordered, stays, fun hlast => ?_⟩
  obtain ⟨b, t', hq, hab⟩ := gives hlast
  refine ⟨b, t', ?_, hab⟩
  rw [← hx] at hq
  exact hq

theorem advance {f g : Span → Parser α} (hfront : front s ≠ .finish)
    (h : Alongside tail free last (f (frontSpan s)) (g (frontSpan s')) (behind s) (behind s') R) :
    Alongside tail free last (Parser.advance >>= f) (Parser.advance >>= g) s s' R := by
  intro a t hrun
  obtain ⟨ordered, -, gives⟩ := h a t hrun
  exact ⟨ordered, fun hs => absurd hs hfront, gives⟩

theorem expect (hs : Joined tail free s s') (x : Symbol) (expected : String) :
    Alongside tail free last (Parser.expect x expected) (Parser.expect x expected) s s' fun _ _ => True := by
  by_cases hfront : front s = .finish
  · refine .stops (.sees (.ite (fun hx => ?_) fun _ => .anyUnexpected _))
    rw [hfront] at hx
    cases hx
  · refine .sees (congrArg _ (hs.front_eq hfront)) (.ite (fun _ => ?_) fun _ => .stops (.anyUnexpected _))
    exact .advance (f := Pure.pure) (g := Pure.pure) hfront (.pure (hs.behind hfront) trivial)

theorem identifier (hs : Joined tail free s s') :
    Alongside tail free last Parser.identifier Parser.identifier s s' fun n m => n.unplaced = m.unplaced := by
  refine .current ?_
  split
  · next text htoken =>
    have hfront : front s ≠ .finish := by rw [htoken]; nofun
    rw [hs.front_eq hfront, htoken]
    exact .advance hfront (.pure (hs.behind hfront) rfl)
  · exact .stops (.anyUnexpected _)

theorem label (hs : Joined tail free s s') :
    Alongside tail free last Parser.label Parser.label s s' fun n m => n.unplaced = m.unplaced := by
  refine .current ?_
  split
  · next text htoken =>
    have hfront : front s ≠ .finish := by rw [htoken]; nofun
    rw [hs.front_eq hfront, htoken]
    exact .advance hfront (.pure (hs.behind hfront) rfl)
  · exact .stops (.anyUnexpected _)

theorem requireSeparator (hs : Joined tail free s s') (hfront : front s ≠ .finish) {separated separated' : Bool}
    (hsep : separated = true → separated' = true) :
    Alongside tail free last (Parser.requireSeparator separated) (Parser.requireSeparator separated') s s'
      fun _ _ => True := by
  intro a t hrun
  cases hs.joins with
  | finish token => exact absurd token hfront
  | @token l m _ _ _ alike =>
    rw [requireSeparator_cons] at hrun ⊢
    split at hrun
    · next h =>
      cases hrun
      have h' : (separated' || m.afterNewline) = true := by
        rw [Bool.or_eq_true] at h ⊢
        exact h.imp hsep alike.newline
      exact ⟨hs.ordered, id, fun _ => ⟨_, _, if_pos h', trivial, hs⟩⟩
    · cases hrun

end Tokens

/-! ### Repetition -/

section Repetition

variable {I : α → α → Prop} {L : α → List Lexeme → Prop} {step step' : α → Parser (Option α)}

/-- Steps side by side. Something may be known of the first run alone. -/
theorem repeatWithin (refl : ∀ a, I a a)
    (hstep : ∀ a b t t', L a t → I a b → Joined tail free t t' →
      Alongside tail free last (step a) (step' b) t t' (Option.Rel I))
    (hleft : ∀ a t c u, L a t → InOrder t → step a t = .ok (some c, u) → L c u)
    {few many : Nat} (hmany : few ≤ many) {a b : α} (ha : L a s) (hab : I a b) (hs : Joined tail free s s') :
    Alongside tail free last (Parser.repeatWithin step few a) (Parser.repeatWithin step' many b) s s' I := by
  induction few generalizing many a b s s' with
  | zero => exact .stops (.stops _)
  | succ few ih =>
    obtain ⟨many, rfl⟩ : ∃ n, many = n + 1 := ⟨many - 1, by omega⟩
    refine (hstep a b s s' ha hab hs).bind (fun r => ?_) fun r r' t t' hrun hr ht => ?_
    · cases r with
      | none => exact .none
      | some c => exact .some (refl c)
    · cases hr with
      | none => exact .pure ht hab
      | some hcd => exact ih (by omega) (hleft a s _ t ha hs.ordered hrun) hcd ht

theorem repeating (refl : ∀ a, I a a)
    (hstep : ∀ a b t t', L a t → I a b → Joined tail free t t' →
      Alongside tail free last (step a) (step' b) t t' (Option.Rel I))
    (hleft : ∀ a t c u, L a t → InOrder t → step a t = .ok (some c, u) → L c u)
    {a b : α} (ha : L a s) (hab : I a b) (hs : Joined tail free s s') :
    Alongside tail free last (Parser.repeating step a) (Parser.repeating step' b) s s' I :=
  .get (repeatWithin refl hstep hleft (Nat.succ_le_succ hs.length_le) ha hab hs)

/-- Steps side by side of which nothing more is known. -/
theorem repeatingSteps (refl : ∀ a, I a a)
    (hstep : ∀ a b t t', I a b → Joined tail free t t' →
      Alongside tail free last (step a) (step' b) t t' (Option.Rel I))
    {a b : α} (hab : I a b) (hs : Joined tail free s s') :
    Alongside tail free last (Parser.repeating step a) (Parser.repeating step' b) s s' I :=
  repeating (L := fun _ _ => True) refl (fun a b t t' _ => hstep a b t t')
    (fun _ _ _ _ _ _ _ => trivial) trivial hab hs

end Repetition

/-- Semicolons where something is left after them. -/
theorem semicolons (hs : Joined tail free s s') :
    Alongside tail free False Parser.semicolons Parser.semicolons s s' Eq := by
  refine repeatingSteps (fun _ => rfl) (fun a b t t' hab ht => ?_) rfl hs
  subst hab
  refine .unless_finish ht (fun hfront => .sees (congrArg _ (ht.front_eq hfront)) (.ite (fun hx => ?_) fun _ => ?_)) ?_
  · exact .advance hfront (.pure (ht.behind hfront) (.some rfl))
  · exact .pure ht .none
  · intro hfront
    refine .sees ?_
    rw [hfront]
    exact .pure rfl

end Alongside

end Parser

end RecordStats
