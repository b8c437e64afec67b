import RecordStats.Grammar.Expression
import RecordStats.Proofs.Grammar.Yields
import RecordStats.Proofs.Program.Outline
import RecordStats.Proofs.Source.Tokenized

/-! Phrases: what a parser takes off the front of lexemes that stand in the order of a text. The lexemes left begin
    where the phrase has ended or later, and each parenthesis of a phrase is closed within it. -/

namespace RecordStats

/-! ### Parentheses -/

namespace Token

/-- The token is neither a parenthesis nor the mark of the end. -/
def isPlain : Token → Bool
  | symbol .leftParen | symbol .rightParen | finish => false
  | _ => true

theorem eq_of_isSymbol {t : Token} {x : Symbol} (h : t.isSymbol x = true) : t = symbol x := by
  cases t with
  | symbol y => exact congrArg symbol (of_decide_eq_true h).symm
  | _ => cases h

theorem ne_finish_of_isPlain {t : Token} (h : t.isPlain = true) : t ≠ finish := by
  rintro rfl
  cases h

end Token

/-- Each parenthesis is closed, and none is closed that is not open. -/
inductive Lexeme.Matched : List Lexeme → Prop
  | nil : Matched []
  | token {l : Lexeme} {rest : List Lexeme} (plain : l.token.isPlain = true) (later : Matched rest) :
      Matched (l :: rest)
  | group {l m : Lexeme} {inside rest : List Lexeme} (opens : l.token = .symbol .leftParen) (inner : Matched inside)
      (closes : m.token = .symbol .rightParen) (later : Matched rest) : Matched (l :: (inside ++ m :: rest))

theorem Lexeme.Matched.append {run more : List Lexeme} (h : Matched run) (h' : Matched more) :
    Matched (run ++ more) := by
  induction h with
  | nil => exact h'
  | token plain _ ih => exact .token plain ih
  | group opens inner closes _ _ ih =>
    rw [List.cons_append, List.append_assoc, List.cons_append]
    exact .group opens inner closes ih

namespace Parser

variable {s t u v : List Lexeme}

/-! ### Lexemes in order -/

/-- The lexemes stand in the order of a text, and only the last one marks the end. -/
inductive InOrder : List Lexeme → Prop
  | finish {l : Lexeme} (token : l.token = .finish) (ordered : l.span.first.offset ≤ l.span.last.offset) : InOrder [l]
  | token {l m : Lexeme} {rest : List Lexeme} (token : l.token ≠ .finish)
      (ordered : l.span.first.offset ≤ l.span.last.offset) (apart : l.span.last.offset ≤ m.span.first.offset)
      (later : InOrder (m :: rest)) : InOrder (l :: m :: rest)

theorem inOrder_of_follow {text : List Char} {start : Nat} (h : Lexeme.Follow text start s) : InOrder s := by
  induction h with
  | finish here token => exact .finish token here.first_le
  | @token _ l rest here token _ later ih =>
    cases rest with
    | nil => cases later
    | cons m rest => exact .token token here.first_le (later.start_le m List.mem_cons_self) ih

/-- Where the lexemes begin. -/
def here (s : List Lexeme) : Nat := (frontSpan s).first.offset

namespace InOrder

theorem behind (h : InOrder s) : InOrder (behind s) := by
  cases h with
  | finish token ordered => exact .finish token ordered
  | token _ _ _ later => exact later

/-- What stands at the front ends before the lexemes behind it. -/
theorem inside (h : InOrder s) (hfront : front s ≠ .finish) :
    (frontSpan s).Inside (here s) (here (Parser.behind s)) := by
  cases h with
  | finish token => exact absurd token hfront
  | token _ ordered apart => exact ⟨Nat.le_refl _, ordered, apart⟩

theorem eq_cons (h : InOrder s) (hfront : front s ≠ .finish) :
    ∃ l, s = l :: Parser.behind s ∧ l.token = front s := by
  cases h with
  | finish token => exact absurd token hfront
  | token => exact ⟨_, rfl, rfl⟩

theorem front_behind (h : InOrder s) (hfront : front s ≠ .finish) : front (Parser.behind s) = second s := by
  cases h with
  | finish token => exact absurd token hfront
  | token => rfl

theorem drop_one (h : InOrder s) (hfront : front s ≠ .finish) : s.drop 1 = Parser.behind s := by
  cases h with
  | finish token => exact absurd token hfront
  | token => rfl

theorem here_le (h : InOrder s) : here s ≤ here (Parser.behind s) := by
  cases h with
  | finish => exact Nat.le_refl _
  | token _ ordered apart => exact Nat.le_trans ordered apart

/-- The last ones of some lexemes in order are in order. -/
theorem append_right (run : List Lexeme) (ht : t ≠ []) (h : InOrder (run ++ t)) : InOrder t := by
  induction run with
  | nil => exact h
  | cons l run ih =>
    refine ih ?_
    have hrest : run ++ t ≠ [] := List.append_ne_nil_of_right_ne_nil run ht
    rw [List.cons_append] at h
    generalize run ++ t = rest at h hrest
    cases h with
    | finish => exact absurd rfl hrest
    | token _ _ _ later => exact later

end InOrder

/-! ### Phrases -/

/-- The second lexemes are what is left of the first when a phrase has been taken. -/
structure Phrase (s t : List Lexeme) : Prop where
  ordered : InOrder t
  forward : here s ≤ here t
  taken : ∃ run, s = run ++ t ∧ Lexeme.Matched run

namespace Phrase

theorem refl (h : InOrder s) : Phrase s s := ⟨h, Nat.le_refl _, [], rfl, .nil⟩

theorem trans (h : Phrase s t) (h' : Phrase t u) : Phrase s u := by
  obtain ⟨run, rfl, hrun⟩ := h.taken
  obtain ⟨more, rfl, hmore⟩ := h'.taken
  exact ⟨h'.ordered, Nat.le_trans h.forward h'.forward, run ++ more, (List.append_assoc _ _ _).symm, hrun.append hmore⟩

/-- One token that is no parenthesis. -/
theorem single (h : InOrder s) {k : Token} (hfront : front s = k) (plain : k.isPlain = true) :
    Phrase s (behind s) ∧ (frontSpan s).Inside (here s) (here (behind s)) := by
  have hfinish := Token.ne_finish_of_isPlain plain
  obtain ⟨l, hl, htoken⟩ := h.eq_cons (hfront ▸ hfinish)
  refine ⟨⟨h.behind, h.here_le, [l], hl, .token ?_ .nil⟩, h.inside (hfront ▸ hfinish)⟩
  rwa [htoken, hfront]

/-- A phrase between parentheses. -/
theorem group (h : InOrder s) (hopens : front s = .symbol .leftParen) (inner : Phrase (behind s) t)
    (hcloses : front t = .symbol .rightParen) : Phrase s (behind t) := by
  obtain ⟨l, hs, hl⟩ := h.eq_cons (by rw [hopens]; nofun)
  obtain ⟨m, ht, hm⟩ := inner.ordered.eq_cons (by rw [hcloses]; nofun)
  obtain ⟨run, hrun, matched⟩ := inner.taken
  refine ⟨inner.ordered.behind, ?_, l :: (run ++ [m]), ?_, .group (hl.trans hopens) matched (hm.trans hcloses) .nil⟩
  · exact Nat.le_trans h.here_le (Nat.le_trans inner.forward inner.ordered.here_le)
  · rw [List.cons_append, List.append_assoc, List.singleton_append, ← ht, ← hrun]
    exact hs

end Phrase

/-- The last lexeme that is taken can end an operand: it is neither a closing brace nor a semicolon. -/
def EndsOperand (s t : List Lexeme) : Prop :=
  ∃ run l, s = run ++ l :: t ∧ l.token.isSymbol .rightBrace = false ∧ l.token.isSymbol .semicolon = false

theorem EndsOperand.after (h : Phrase s t) (h' : EndsOperand t u) : EndsOperand s u := by
  obtain ⟨run, rfl, -⟩ := h.taken
  obtain ⟨more, l, rfl, hl⟩ := h'
  exact ⟨run ++ more, l, (List.append_assoc _ _ _).symm, hl⟩

/-- A last lexeme that stands at the front. -/
theorem EndsOperand.front (h : InOrder s) {k : Token} (hfront : front s = k) (hfinish : k ≠ .finish)
    (hbrace : k.isSymbol .rightBrace = false) (hsemicolon : k.isSymbol .semicolon = false) :
    EndsOperand s (behind s) := by
  subst hfront
  obtain ⟨l, hl, htoken⟩ := h.eq_cons hfinish
  exact ⟨[], l, hl, htoken ▸ hbrace, htoken ▸ hsemicolon⟩

/-- A last lexeme behind a parenthesis and a phrase. -/
theorem EndsOperand.cons {k : Token} (h : InOrder s) (hfront : Parser.front s = k) (hfinish : k ≠ .finish)
    (h' : EndsOperand (behind s) t) : EndsOperand s t := by
  subst hfront
  obtain ⟨l, hl, -⟩ := h.eq_cons hfinish
  obtain ⟨run, m, hrun, hm⟩ := h'
  exact ⟨l :: run, m, hl.trans (congrArg _ hrun), hm⟩

/-! ### Parsers that take phrases -/

/-- If the parser gives something, it has taken a phrase. -/
def TakesPhrase {α : Type} (p : Parser α) (M : List Lexeme → List Lexeme → α → Prop) : Prop :=
  ∀ s, InOrder s → Yields (fun _ => True) p s fun a t => Phrase s t ∧ M s t a

section Tokens

variable {α : Type} {Q : α → List Lexeme → Prop}

namespace Yields

theorem stops (e : Halt) : Yields (fun _ => True) (MonadExcept.throw e : Parser α) s Q := throw trivial

theorem anyFault {cause : ParseCause} {span : Span} : Yields (fun _ => True) (Parser.fault cause span : Parser α) s Q :=
  trivial

theorem anyUnexpected (expected : String) : Yields (fun _ => True) (Parser.unexpected expected : Parser α) s Q :=
  current (currentSpan anyFault)

/-- Whatever a parser does, it gives something or stops. -/
theorem anything {p : Parser α} : Yields (fun _ => True) p s fun _ _ => True := by
  unfold Yields
  split <;> trivial

theorem run {p : Parser α} : Yields (fun _ => True) p s fun a t => p s = .ok (a, t) := by
  unfold Yields
  split
  · next h => exact h
  · trivial

/-- Nothing follows a fault. -/
theorem anyUnexpected_bind {β : Type} {f : β → Parser α} (expected : String) :
    Yields (fun _ => True) (Parser.unexpected expected >>= f) s Q :=
  bind (Q := fun _ _ => False) (anyUnexpected expected) fun _ _ h => h.elim

/-- A repetition that spends its allowance gives nothing. -/
theorem repeatWithinAny {I : α → List Lexeme → Prop} {step : α → Parser (Option α)}
    (hstep : ∀ a t, I a t → Yields (fun _ => True) (step a) t fun r u => (∀ b ∈ r, I b u) ∧ (r = none → Q a u))
    {allowed : Nat} {a : α} (ha : I a s) : Yields (fun _ => True) (Parser.repeatWithin step allowed a) s Q := by
  induction allowed generalizing a s with
  | zero => exact stops _
  | succ allowed ih =>
    refine (hstep a s ha).bind fun r t hr => ?_
    cases r with
    | none => exact hr.2 rfl
    | some b => exact ih (hr.1 b rfl)

theorem repeatingAny {I : α → List Lexeme → Prop} {step : α → Parser (Option α)}
    (hstep : ∀ a t, I a t → Yields (fun _ => True) (step a) t fun r u => (∀ b ∈ r, I b u) ∧ (r = none → Q a u))
    {a : α} (ha : I a s) : Yields (fun _ => True) (Parser.repeating step a) s Q :=
  get (repeatWithinAny hstep ha)

/-- An invariant of what has been read and of the lexemes left holds when a repetition ends. -/
theorem repeatingKeeps {I : α → List Lexeme → Prop} {step : α → Parser (Option α)}
    (hstep : ∀ a t, I a t → Yields (fun _ => True) (step a) t fun r u => (∀ b ∈ r, I b u) ∧ (r = none → I a u))
    {a : α} (ha : I a s) : Yields (fun _ => True) (Parser.repeating step a) s I :=
  repeatingAny hstep ha

/-- The token at the front is the expected one, and it is taken. -/
theorem expectAny (x : Symbol) (expected : String) : Yields (fun _ => True) (Parser.expect x expected) s fun span t =>
    front s = .symbol x ∧ span = frontSpan s ∧ t = behind s :=
  sees (ite (fun hx => ⟨Token.eq_of_isSymbol hx, rfl, rfl⟩) fun _ => anyUnexpected _)

theorem identifierAny : Yields (fun _ => True) Parser.identifier s fun name t =>
    front s = .name name.text ∧ name.span = frontSpan s ∧ t = behind s := by
  refine current ?_
  split
  · next text htoken => exact advance (pure ⟨htoken, rfl, rfl⟩)
  · exact anyUnexpected _

theorem labelAny : Yields (fun _ => True) Parser.label s fun name t =>
    front s = .string name.text ∧ name.span = frontSpan s ∧ t = behind s := by
  refine current ?_
  split
  · next text htoken => exact advance (pure ⟨htoken, rfl, rfl⟩)
  · exact anyUnexpected _

theorem expectFinishAny : Yields (fun _ => True) Parser.expectFinish s fun _ t => front s = .finish ∧ t = s := by
  refine current ?_
  split
  · next htoken => exact pure ⟨htoken, rfl⟩
  · exact anyUnexpected _

theorem requireSeparatorAny (separated : Bool) :
    Yields (fun _ => True) (Parser.requireSeparator separated) s fun _ t => t = s :=
  onNewLine fun _ => ite (fun _ => pure rfl) fun _ => currentSpan anyFault

theorem semicolonsAny (hs : InOrder s) :
    Yields (fun _ => True) Parser.semicolons s fun _ t => Phrase s t := by
  refine repeatingAny (I := fun _ t => Phrase s t) (fun _ t ht => ?_) (.refl hs)
  refine sees (ite (fun hx => advance (pure ⟨fun _ _ => ?_, nofun⟩)) fun _ => pure ⟨nofun, fun _ => ht⟩)
  exact ht.trans (Phrase.single ht.ordered (Token.eq_of_isSymbol hx) rfl).1

end Yields

end Tokens

end Parser

end RecordStats
