import RecordStats.Grammar.Parser

/-! What parsers ensure. A parser that begins with few lexemes leaves the last ones of them, and what it reads
    has some property. Such facts are put together along the parsers; a repetition keeps an invariant, and takes
    no more steps than there are lexemes. -/

namespace RecordStats.Parser

variable {α β : Type} {most : Nat}

/-- From at most so many lexemes the parser leaves the last ones of them, and what it reads has the property. -/
def Ensures (most : Nat) (p : Parser α) (P : α → Prop) : Prop :=
  ∀ ⦃lexemes a rest⦄, lexemes.length ≤ most → p lexemes = .ok (a, rest) → rest <:+ lexemes ∧ P a

namespace Ensures

variable {p : Parser α} {f : α → Parser β} {P Q : α → Prop} {R : β → Prop}

theorem mono (h : Ensures most p P) (hPQ : ∀ a, P a → Q a) : Ensures most p Q := by
  intro lexemes a rest few hrun
  obtain ⟨left, ha⟩ := h few hrun
  exact ⟨left, hPQ a ha⟩

theorem pure {a : α} (ha : P a) : Ensures most (Pure.pure a) P := by
  intro lexemes b rest _ hrun
  cases hrun
  exact ⟨List.suffix_rfl, ha⟩

theorem bind (h : Ensures most p P) (hf : ∀ a, P a → Ensures most (f a) R) : Ensures most (p >>= f) R := by
  intro lexemes b rest few hrun
  have hrun : (p lexemes >>= fun r => f r.1 r.2) = .ok (b, rest) := hrun
  cases hp : p lexemes with
  | error e =>
    rw [hp] at hrun
    cases hrun
  | ok r =>
    obtain ⟨a, middle⟩ := r
    rw [hp] at hrun
    obtain ⟨left, ha⟩ := h few hp
    obtain ⟨left', hb⟩ := hf a ha (Nat.le_trans left.length_le few) hrun
    exact ⟨left'.trans left, hb⟩

theorem throw (e : Halt) : Ensures most (MonadExcept.throw e : Parser α) P := by
  intro lexemes a rest _ hrun
  cases hrun

theorem get : Ensures most (MonadState.get : Parser (List Lexeme)) fun lexemes => lexemes.length ≤ most := by
  intro lexemes a rest few hrun
  cases hrun
  exact ⟨List.suffix_rfl, few⟩

theorem ite {c : Prop} [Decidable c] {q : Parser α} (hp : c → Ensures most p P) (hq : ¬c → Ensures most q P) :
    Ensures most (if c then p else q) P := by
  split
  · next h => exact hp h
  · next h => exact hq h

theorem mapM (h : ∀ a, Ensures most (f a) R) (as : List α) : Ensures most (as.mapM f) fun _ => True := by
  induction as with
  | nil =>
    rw [List.mapM_nil]
    exact pure trivial
  | cons a rest ih =>
    rw [List.mapM_cons]
    exact (h a).bind fun _ _ => ih.bind fun _ _ => pure trivial

/-! ### Single tokens -/

theorem fault (cause : ParseCause) (span : Span) : Ensures most (Parser.fault cause span : Parser α) P :=
  throw _

theorem current : Ensures most Parser.current fun _ => True :=
  get.bind fun _ _ => pure trivial

theorem currentSpan : Ensures most Parser.currentSpan fun _ => True :=
  get.bind fun _ _ => pure trivial

theorem sees (s : Symbol) : Ensures most (Parser.sees s) fun _ => True :=
  get.bind fun _ _ => pure trivial

theorem onNewLine : Ensures most Parser.onNewLine fun _ => True := by
  refine get.bind fun lexemes _ => ?_
  split
  · exact pure trivial
  · exact pure trivial

theorem behind_suffix (lexemes : List Lexeme) : behind lexemes <:+ lexemes := by
  unfold behind
  split
  · exact List.suffix_cons _ _
  · exact List.suffix_rfl

theorem modify_behind : Ensures most (modify behind : Parser Unit) fun _ => True := by
  intro lexemes a rest _ hrun
  cases hrun
  exact ⟨behind_suffix lexemes, trivial⟩

theorem advance : Ensures most Parser.advance fun _ => True :=
  currentSpan.bind fun _ _ => modify_behind.bind fun _ _ => pure trivial

theorem unexpected (expected : String) : Ensures most (Parser.unexpected expected : Parser α) P :=
  current.bind fun _ _ => currentSpan.bind fun _ _ => fault _ _

theorem expect (s : Symbol) (expected : String) : Ensures most (Parser.expect s expected) fun _ => True :=
  (sees s).bind fun _ _ => ite (fun _ => advance) fun _ => unexpected expected

theorem expectFinish : Ensures most Parser.expectFinish fun _ => True := by
  refine current.bind fun token _ => ?_
  split
  · exact pure trivial
  · exact unexpected _

theorem identifier : Ensures most Parser.identifier fun _ => True := by
  refine current.bind fun token _ => ?_
  split
  · exact advance.bind fun _ _ => pure trivial
  · exact unexpected _

theorem label : Ensures most Parser.label fun _ => True := by
  refine current.bind fun token _ => ?_
  split
  · exact advance.bind fun _ _ => pure trivial
  · exact unexpected _

/-! ### Repetition -/

/-- An invariant that counts the steps. -/
theorem repeatWithin {I : Nat → α → Prop} {step : α → Parser (Option α)}
    (hstep : ∀ k a, I k a → Ensures most (step a) fun r => ∀ b ∈ r, I (k + 1) b) (allowed : Nat) {k : Nat} {a : α}
    (ha : I k a) : Ensures most (Parser.repeatWithin step allowed a) fun b => ∃ j, j < k + allowed ∧ I j b := by
  induction allowed generalizing k a with
  | zero => exact throw _
  | succ allowed ih =>
    refine (hstep k a ha).bind fun r hr => ?_
    split
    · exact pure ⟨k, by omega, ha⟩
    · next b =>
      refine (ih (hr b rfl)).mono fun c hc => ?_
      obtain ⟨j, hj, hc⟩ := hc
      exact ⟨j, by omega, hc⟩

/-- A repetition takes at most one step for each lexeme. -/
theorem repeatingCounted {I : Nat → α → Prop} {step : α → Parser (Option α)}
    (hstep : ∀ k a, I k a → Ensures most (step a) fun r => ∀ b ∈ r, I (k + 1) b) {a : α} (ha : I 0 a) :
    Ensures most (Parser.repeating step a) fun b => ∃ j, j ≤ most ∧ I j b := by
  refine get.bind fun lexemes few => (repeatWithin hstep (lexemes.length + 1) ha).mono fun b hb => ?_
  obtain ⟨j, hj, hb⟩ := hb
  exact ⟨j, by omega, hb⟩

/-- A repetition keeps an invariant. -/
theorem repeating {I : α → Prop} {step : α → Parser (Option α)}
    (hstep : ∀ a, I a → Ensures most (step a) fun r => ∀ b ∈ r, I b) {a : α} (ha : I a) :
    Ensures most (Parser.repeating step a) I := by
  refine (repeatingCounted (I := fun _ => I) (fun _ => hstep) ha).mono fun b hb => ?_
  obtain ⟨-, -, hb⟩ := hb
  exact hb

theorem semicolons : Ensures most Parser.semicolons fun _ => True := by
  refine repeating (fun _ _ => ?_) trivial
  refine (sees _).bind fun _ _ => ite (fun _ => advance.bind fun _ _ => ?_) fun _ => ?_
  · exact pure fun _ _ => trivial
  · exact pure fun _ _ => trivial

theorem requireSeparator (separated : Bool) : Ensures most (Parser.requireSeparator separated) fun _ => True := by
  refine onNewLine.bind fun _ _ => ite (fun _ => pure trivial) fun _ => ?_
  exact currentSpan.bind fun _ _ => fault _ _

end Ensures

end RecordStats.Parser
