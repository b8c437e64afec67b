import RecordStats.Grammar.Statement
import RecordStats.Proofs.Grammar.Stream

/-! Looking ahead. A lookahead goes from lexeme to lexeme by their distance from the current one; behind the last one it
    would meet that one again and again. It has its answer before, and closes no parenthesis that is not open. -/

namespace RecordStats.Parser

/-- The token so many lexemes ahead. Behind the last one it is the last one. -/
def ahead (s : List Lexeme) (offset : Nat) : Token :=
  match s[offset]? <|> s.getLast? with
  | some l => l.token
  | none => .finish

/-- What a lookahead comes to by a step. -/
inductive Glance (σ : Type) where
  | on (state : σ)
  | answer (b : Bool)
  /-- A parenthesis would be closed that is not open. -/
  | underflow

/-- Within so many steps a lookahead goes on to the answer. -/
inductive Glance.Ends {σ : Type} (step : σ → Glance σ) : Nat → Glance σ → Bool → Prop
  | answer {n : Nat} {b : Bool} : Ends step n (.answer b) b
  | on {n : Nat} {state : σ} {b : Bool} (later : Ends step n (step state) b) : Ends step (n + 1) (.on state) b

theorem Glance.Ends.more {σ : Type} {step : σ → Glance σ} {n m : Nat} {g : Glance σ} {b : Bool} (h : g.Ends step n b)
    (hle : n ≤ m) : g.Ends step m b := by
  induction h generalizing m with
  | answer => exact .answer
  | on _ ih =>
    cases m with
    | zero => exact absurd hle (Nat.not_succ_le_zero _)
    | succ m => exact .on (ih (Nat.le_of_succ_le_succ hle))

/-- A step of the lookahead for an axis, from a token and the one behind it. The state is the depth of open parentheses
    and the distance of the token. -/
def axisStep (token behind : Token) (depth offset : Nat) : Glance (Nat × Nat) :=
  match token with
  | .symbol .leftParen => .on (depth + 1, offset + 1)
  | .symbol .rightParen =>
    match depth with
    | 0 => .underflow
    | 1 => .answer (behind.isSymbol .leftArrow)
    | depth + 2 => .on (depth + 1, offset + 1)
  | .finish => .answer false
  | _ => .on (depth, offset + 1)

def axisGlance (s : List Lexeme) : Nat × Nat → Glance (Nat × Nat)
  | (depth, offset) => axisStep (ahead s offset) (ahead s (offset + 1)) depth offset

def axisStart (s : List Lexeme) : Glance (Nat × Nat) :=
  match ahead s 0, ahead s 1 with
  | .name _, .symbol .leftParen => .on (0, 1)
  | _, _ => .answer false

/-- A step of the lookahead for a function's parameters, from a token and the one behind it. -/
def functionStep (token behind : Token) (offset : Nat) : Glance Nat :=
  match token with
  | .symbol .rightParen => .answer (behind.isSymbol .rightArrow)
  | .name _ => .on (offset + 1)
  | .symbol .comma => .on (offset + 1)
  | _ => .answer false

def functionGlance (s : List Lexeme) (offset : Nat) : Glance Nat :=
  functionStep (ahead s offset) (ahead s (offset + 1)) offset

def functionStart (s : List Lexeme) : Glance Nat :=
  match ahead s 0 with
  | .name _ => .answer ((ahead s 1).isSymbol .rightArrow)
  | .symbol .leftParen => .on 1
  | _ => .answer false

variable {P : Pieces} {s before t : List Lexeme} {l : Lexeme}

theorem ahead_append (before t : List Lexeme) (l : Lexeme) : ahead (before ++ l :: t) before.length = l.token := by
  simp [ahead]

/-- Behind a lexeme that is not the last. -/
theorem ahead_succ (before : List Lexeme) (l : Lexeme) (ht : t ≠ []) :
    ahead (before ++ l :: t) (before.length + 1) = front t := by
  obtain ⟨m, rest, rfl⟩ := List.exists_cons_of_ne_nil ht
  have next := ahead_append (before ++ [l]) rest m
  rwa [List.append_assoc, List.length_append] at next

/-- Behind a lexeme that does not mark the end there are others. -/
theorem Stream.later (h : Stream P (l :: t)) (hl : l.token ≠ .finish) : Stream P t := by
  cases t with
  | nil =>
    obtain ⟨m, hm, hfinish⟩ := h.ends
    cases hm
    exact absurd hfinish hl
  | cons m rest => exact h.tail

theorem Stream.ne_nil (h : Stream P s) : s ≠ [] := by
  obtain ⟨l, rest, rfl⟩ := h.exists_cons
  exact List.cons_ne_nil l rest

/-- Where a parenthesis is open or opens, the lookahead for an axis comes to its answer. -/
theorem arrowAfterClosing_ends (ht : Stream P t) {depth : Nat} (before : List Lexeme)
    (opened : 0 < depth ∨ front t = .symbol .leftParen) :
    (Glance.on (depth, before.length)).Ends (axisGlance (before ++ t)) t.length (arrowAfterClosing depth t) := by
  induction t generalizing depth before with
  | nil => exact absurd rfl ht.ne_nil
  | cons l rest ih =>
    -- The lookahead goes on behind the lexeme with as many parentheses open as it leaves.
    have here := ahead_append before rest l
    have on : ∀ {next : Nat}, l.token ≠ .finish → (0 < next ∨ front rest = .symbol .leftParen) →
        (Glance.on (next, before.length + 1)).Ends (axisGlance (before ++ l :: rest)) rest.length
          (arrowAfterClosing next rest) := by
      intro next hl opened
      have ends := ih (ht.later hl) (before ++ [l]) opened
      rwa [List.append_assoc, List.length_append] at ends
    refine .on ?_
    rw [arrowAfterClosing, axisGlance, here]
    split
    · next hl =>
      rw [hl]
      exact on (by simp [hl]) (.inl (Nat.succ_pos depth))
    · next hl =>
      have hrest := (ht.later (by simp [hl])).ne_nil
      rw [hl, ahead_succ before l hrest]
      cases depth with
      | zero =>
        rcases opened with opened | opens
        · exact absurd opened (Nat.lt_irrefl 0)
        · cases hl.symm.trans opens
      | succ depth =>
        cases depth with
        | zero => exact .answer
        | succ depth => exact on (by simp [hl]) (.inl (Nat.succ_pos depth))
    · next hl =>
      rw [hl]
      exact .answer
    · next hopen hclose hfinish =>
      have passed : axisStep l.token (ahead (before ++ l :: rest) (before.length + 1)) depth before.length =
          .on (depth, before.length + 1) := by
        unfold axisStep
        split
        · next hl => exact absurd hl hopen
        · next hl => exact absurd hl hclose
        · next hl => exact absurd hl hfinish
        · rfl
      rw [passed]
      exact on hfinish (opened.imp_right fun opens => absurd opens hopen)

/-- Names and commas are passed over by the lookahead for a function. -/
theorem parametersAhead_ends (ht : Stream P t) (before : List Lexeme) :
    (Glance.on before.length).Ends (functionGlance (before ++ t)) t.length (parametersAhead t) := by
  induction t generalizing before with
  | nil => exact absurd rfl ht.ne_nil
  | cons l rest ih =>
    have here := ahead_append before rest l
    have on : l.token ≠ .finish →
        (Glance.on (before.length + 1)).Ends (functionGlance (before ++ l :: rest)) rest.length
          (parametersAhead rest) := by
      intro hl
      have ends := ih (ht.later hl) (before ++ [l])
      rwa [List.append_assoc, List.length_append] at ends
    refine .on ?_
    rw [parametersAhead, functionGlance, here]
    split
    · next hl =>
      rw [hl]
      exact on (by simp [hl])
    · next hl =>
      rw [hl]
      exact on (by simp [hl])
    · next hl =>
      rw [hl, ahead_succ before l (ht.later (by simp [hl])).ne_nil]
      exact .answer
    · next hname hcomma hclose =>
      have given : functionStep l.token (ahead (before ++ l :: rest) (before.length + 1)) before.length =
          .answer false := by
        unfold functionStep
        split
        · next hl => exact absurd hl hclose
        · next hl => exact absurd hl (hname _)
        · next hl => exact absurd hl hcomma
        · rfl
      rw [given]
      exact .answer

/-- The first two tokens ahead, where the first one does not mark the end. -/
theorem Stream.ahead_cons (hs : Stream P s) (hfront : Parser.front s ≠ .finish) :
    ∃ l, s = l :: s.drop 1 ∧ Stream P (s.drop 1) ∧ ahead s 1 = second s := by
  obtain ⟨l, rest, rfl⟩ := hs.exists_cons
  have later := hs.later hfront
  obtain ⟨m, rest, rfl⟩ := later.exists_cons
  exact ⟨l, rfl, later, rfl⟩

theorem Stream.ahead_zero (hs : Stream P s) : ahead s 0 = Parser.front s := by
  obtain ⟨l, rest, rfl⟩ := hs.exists_cons
  rfl

/-- The lookahead for an axis comes to its answer within as many steps as there are lexemes. -/
theorem axisAhead_ends (hs : Stream P s) : (axisStart s).Ends (axisGlance s) s.length (axisAhead s) := by
  rw [axisStart, axisAhead, hs.ahead_zero]
  cases hfront : front s with
  | name text =>
    obtain ⟨l, hl, later, next⟩ := hs.ahead_cons (by simp [hfront])
    rw [next]
    by_cases hopen : second s = .symbol .leftParen
    · have opens : front (s.drop 1) = .symbol .leftParen := by
        obtain ⟨m, rest, hrest⟩ := later.exists_cons
        rw [hl, hrest] at hopen
        rw [hrest]
        exact hopen
      have ends : (Glance.on (0, 1)).Ends (axisGlance ([l] ++ s.drop 1)) (s.drop 1).length
          (arrowAfterClosing 0 (s.drop 1)) := arrowAfterClosing_ends later [l] (.inr opens)
      rw [List.singleton_append, ← hl] at ends
      rw [hopen]
      exact ends.more (by rw [List.length_drop]; omega)
    · cases hsecond : second s with
      | symbol x => cases x <;> first | exact absurd hsecond hopen | exact .answer
      | _ => exact .answer
  | _ => exact .answer

/-- So does the lookahead for a function. -/
theorem functionAhead_ends (hs : Stream P s) :
    (functionStart s).Ends (functionGlance s) s.length (functionAhead s) := by
  rw [functionStart, functionAhead, hs.ahead_zero]
  cases hfront : front s with
  | name text =>
    obtain ⟨-, -, -, next⟩ := hs.ahead_cons (by simp [hfront])
    rw [next]
    exact .answer
  | symbol x =>
    by_cases hx : x = .leftParen
    · obtain ⟨l, hl, later, -⟩ := hs.ahead_cons (by simp [hfront])
      have ends : (Glance.on 1).Ends (functionGlance ([l] ++ s.drop 1)) (s.drop 1).length
          (parametersAhead (s.drop 1)) := parametersAhead_ends later [l]
      rw [List.singleton_append, ← hl] at ends
      rw [hx]
      exact ends.more (by rw [List.length_drop]; omega)
    · cases x <;> first | exact absurd rfl hx | exact .answer
  | _ => exact .answer

end RecordStats.Parser
