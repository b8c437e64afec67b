import RecordStats.Grammar.Parser

/-! What a parser does with given lexemes. It gives something and leaves the lexemes after it, or it stops; both are
    told along the parser, from its first step to its last. A repetition whose steps take lexemes does not spend its
    allowance. -/

namespace RecordStats.Parser

/-- From these lexemes the parser gives such a thing and leaves such lexemes, or it stops in such a way. -/
def Yields {α : Type} (H : Halt → Prop) (p : Parser α) (s : List Lexeme) (Q : α → List Lexeme → Prop) : Prop :=
  match p s with
  | .ok (a, rest) => Q a rest
  | .error e => H e

namespace Yields

variable {α β : Type} {H : Halt → Prop} {s : List Lexeme} {p q : Parser α} {f : α → Parser β}
variable {Q R : α → List Lexeme → Prop} {T : β → List Lexeme → Prop}

theorem pure {a : α} (h : Q a s) : Yields H (Pure.pure a) s Q := h

theorem throw {e : Halt} (h : H e) : Yields H (MonadExcept.throw e : Parser α) s Q := h

theorem bind (hp : Yields H p s Q) (hf : ∀ a t, Q a t → Yields H (f a) t T) : Yields H (p >>= f) s T := by
  show match p s >>= fun r => f r.1 r.2 with
    | .ok (b, rest) => T b rest
    | .error e => H e
  unfold Yields at hp
  split at hp
  · next a rest hrun =>
    rw [hrun]
    exact hf a rest hp
  · next e hrun =>
    rw [hrun]
    exact hp

theorem mono (hp : Yields H p s Q) (hQ : ∀ a t, Q a t → R a t) : Yields H p s R := by
  unfold Yields at hp ⊢
  split
  · next a rest hrun =>
    rw [hrun] at hp
    exact hQ a rest hp
  · next e hrun =>
    rw [hrun] at hp
    exact hp

theorem congr (hp : Yields H p s Q) (hrun : q s = p s) : Yields H q s Q := by
  unfold Yields at hp ⊢
  rwa [hrun]

theorem of_eq {a : α} {t : List Lexeme} (hp : Yields H p s Q) (hrun : p s = .ok (a, t)) : Q a t := by
  unfold Yields at hp
  rwa [hrun] at hp

theorem of_error {e : Halt} (hp : Yields H p s Q) (hrun : p s = .error e) : H e := by
  unfold Yields at hp
  rwa [hrun] at hp

theorem ite {c : Prop} [Decidable c] (hp : c → Yields H p s Q) (hq : ¬c → Yields H q s Q) :
    Yields H (if c then p else q) s Q := by
  split
  · next h => exact hp h
  · next h => exact hq h

/-! ### Looking ahead -/

section Looking

variable {S : α → List Lexeme → Prop}

theorem get {f : List Lexeme → Parser α} (h : Yields H (f s) s S) : Yields H (MonadState.get >>= f) s S := h

theorem current {f : Token → Parser α} (h : Yields H (f (front s)) s S) : Yields H (Parser.current >>= f) s S := h

theorem currentSpan {f : Span → Parser α} (h : Yields H (f (frontSpan s)) s S) :
    Yields H (Parser.currentSpan >>= f) s S := h

theorem sees {x : Symbol} {f : Bool → Parser α} (h : Yields H (f ((front s).isSymbol x)) s S) :
    Yields H (Parser.sees x >>= f) s S := h

theorem onNewLine {f : Bool → Parser α} (h : ∀ b, Yields H (f b) s S) : Yields H (Parser.onNewLine >>= f) s S := by
  cases s with
  | nil => exact h false
  | cons l rest => exact h l.afterNewline

theorem advance {f : Span → Parser α} (h : Yields H (f (frontSpan s)) (behind s) S) :
    Yields H (Parser.advance >>= f) s S := h

end Looking

/-! ### Repetition -/

/-- An invariant that holds of what has been read and of the lexemes left. -/
theorem repeatWithin {I : α → List Lexeme → Prop} {step : α → Parser (Option α)}
    (hstep : ∀ a t, I a t → Yields H (step a) t fun r u =>
      (∀ b ∈ r, u.length < t.length ∧ I b u) ∧ (r = none → Q a u))
    {allowed : Nat} {a : α} (ha : I a s) (few : s.length < allowed) :
    Yields H (Parser.repeatWithin step allowed a) s Q := by
  induction allowed generalizing a s with
  | zero => exact absurd few (Nat.not_lt_zero _)
  | succ allowed ih =>
    refine (hstep a s ha).bind fun r t hr => ?_
    cases r with
    | none => exact hr.2 rfl
    | some b =>
      obtain ⟨shorter, hb⟩ := hr.1 b rfl
      exact ih hb (by omega)

theorem repeating {I : α → List Lexeme → Prop} {step : α → Parser (Option α)}
    (hstep : ∀ a t, I a t → Yields H (step a) t fun r u =>
      (∀ b ∈ r, u.length < t.length ∧ I b u) ∧ (r = none → Q a u)) {a : α} (ha : I a s) :
    Yields H (Parser.repeating step a) s Q :=
  get (repeatWithin hstep ha (Nat.lt_succ_self _))

end Yields

end RecordStats.Parser
