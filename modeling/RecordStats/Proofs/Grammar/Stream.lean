import RecordStats.Grammar.Expression
import RecordStats.Proofs.Grammar.Yields
import RecordStats.Proofs.Program.Pieces

/-! The lexemes of a text as what parsers read. They end with the mark of the end, and a parser that takes something
    leaves fewer of them. Every fault is at the place of a piece, and no allowance is ever spent. -/

namespace RecordStats

/-! ### Pieces that a parser puts together -/

/-- What parsers make of such pieces are such pieces. An operator that is no sign may stand before any operands; a sign
    stands before what it does not make another literal of. -/
structure Pieces.Closed (P : Pieces) : Prop where
  join : ∀ s t, P.span s → P.span t → P.span (s.join t)
  signed : ∀ op l l', P.literal l → Parser.signed? op l = some l' → P.literal l'
  plain : ∀ op operands, op ≠ .positive → op ≠ .negative → P.operator op operands
  sign : ∀ op e, e.MadeOf P → e.literal?.bind (Parser.signed? op) = none → P.operator op [e]

/-- A span that is joined with the spans of some parts. -/
theorem Pieces.Closed.foldl {P : Pieces} (hP : P.Closed) {α : Type} {f : α → Span} {as : List α}
    (has : ∀ a ∈ as, P.span (f a)) {s : Span} (hs : P.span s) : P.span (as.foldl (fun s a => s.join (f a)) s) := by
  induction as generalizing s with
  | nil => exact hs
  | cons a rest ih =>
    obtain ⟨ha, hrest⟩ := List.forall_mem_cons.mp has
    exact ih hrest (hP.join _ _ hs ha)

/-- Anything may be a piece. -/
def Pieces.any : Pieces := ⟨fun _ => True, fun _ => True, fun _ => True, fun _ _ => True⟩

theorem Pieces.any_closed : Pieces.any.Closed :=
  ⟨fun _ _ _ _ => trivial, fun _ _ _ _ _ => trivial, fun _ _ _ _ => trivial, fun _ _ _ _ => trivial⟩

def Token.MadeOf (P : Pieces) : Token → Prop
  | .integer n => P.literal (.integer n)
  | .float x => P.literal (.float x)
  | .string text => P.literal (.string text)
  | .name text => P.name text
  | .symbol _ => True
  | .finish => True

structure Lexeme.MadeOf (P : Pieces) (l : Lexeme) : Prop where
  token : l.token.MadeOf P
  place : P.span l.span

/-- The stop is a fault at the place of a piece. -/
def Halt.Placed (P : Pieces) : Halt → Prop
  | .fault (.grammatical _ span) => P.span span
  | _ => False

namespace Parser

variable {P : Pieces} {s t u : List Lexeme}

/-! ### Streams -/

/-- The lexemes are pieces, and the last one marks the end. -/
structure Stream (P : Pieces) (s : List Lexeme) : Prop where
  made : ∀ l ∈ s, l.MadeOf P
  ends : ∃ l, s.getLast? = some l ∧ l.token = .finish

/-- The second lexemes are a stream that is shorter than the first. -/
structure Past (P : Pieces) (s t : List Lexeme) : Prop where
  stream : Stream P t
  shorter : t.length < s.length

theorem Past.trans (h : Past P s t) (h' : Past P t u) : Past P s u :=
  ⟨h'.stream, Nat.lt_trans h'.shorter h.shorter⟩

namespace Stream

theorem exists_cons (h : Stream P s) : ∃ l rest, s = l :: rest := by
  obtain ⟨l, hl, -⟩ := h.ends
  cases s with
  | nil => cases hl
  | cons l rest => exact ⟨l, rest, rfl⟩

theorem length_pos (h : Stream P s) : 0 < s.length := by
  obtain ⟨l, rest, rfl⟩ := h.exists_cons
  exact Nat.succ_pos _

theorem front (h : Stream P s) : (front s).MadeOf P := by
  obtain ⟨l, rest, rfl⟩ := h.exists_cons
  exact (h.made l List.mem_cons_self).token

theorem frontSpan (h : Stream P s) : P.span (frontSpan s) := by
  obtain ⟨l, rest, rfl⟩ := h.exists_cons
  exact (h.made l List.mem_cons_self).place

theorem tail {l m : Lexeme} (h : Stream P (l :: m :: s)) : Stream P (m :: s) :=
  ⟨fun k hk => h.made k (List.mem_cons_of_mem _ hk), h.ends⟩

theorem behind (h : Stream P s) : Stream P (behind s) := by
  unfold Parser.behind
  split
  · exact h.tail
  · exact h

theorem length_behind (s : List Lexeme) : (Parser.behind s).length ≤ s.length := by
  unfold Parser.behind
  split
  · exact Nat.le_succ _
  · exact Nat.le_refl _

/-- Behind a lexeme that does not mark the end there are fewer. -/
theorem past (h : Stream P s) (hfront : Parser.front s ≠ .finish) : Past P s (Parser.behind s) := by
  refine ⟨h.behind, ?_⟩
  obtain ⟨l, hl, hfinish⟩ := h.ends
  match s, hl with
  | [m], hl =>
    cases hl
    exact absurd hfinish hfront
  | _ :: _ :: _, _ => exact Nat.lt_succ_self _

theorem past_of_sees (h : Stream P s) {x : Symbol} (hx : (Parser.front s).isSymbol x = true) :
    Past P s (Parser.behind s) :=
  h.past fun hfinish => by
    rw [hfinish] at hx
    cases hx

theorem past_of_find (h : Stream P s) {operators : List (Symbol × Operator)} {o : Symbol × Operator}
    (ho : operators.find? (fun o => (Parser.front s).isSymbol o.1) = some o) : Past P s (Parser.behind s) :=
  h.past_of_sees (x := o.1) (List.find?_some (p := fun o : Symbol × Operator => (Parser.front s).isSymbol o.1) ho)

end Stream

/-! ### Single tokens -/

/-- From a stream of at most so many lexemes the parser gives such a thing and leaves a shorter stream. -/
def Takes {α : Type} (P : Pieces) (most : Nat) (p : Parser α) (M : α → Prop) : Prop :=
  ∀ s, Stream P s → s.length ≤ most → Yields (Halt.Placed P) p s fun a t => Past P s t ∧ M a

section Tokens

variable {α β : Type} {most : Nat} {Q : α → List Lexeme → Prop} {M : α → Prop}

/-- From a stream of at most so many lexemes the parser gives a list of such things and leaves a stream, a shorter one
    unless the list is empty. -/
def TakesList {α : Type} (P : Pieces) (most : Nat) (p : Parser (List α)) (M : α → Prop) : Prop :=
  ∀ s, Stream P s → s.length ≤ most → Yields (Halt.Placed P) p s fun as t =>
    Stream P t ∧ t.length ≤ s.length ∧ (as ≠ [] → t.length < s.length) ∧ ∀ a ∈ as, M a

/-- Fewer lexemes will do too. -/
theorem Takes.fewer {few : Nat} {p : Parser α} (h : Takes P most p M) (hfew : few ≤ most) : Takes P few p M :=
  fun s hs hlen => h s hs (Nat.le_trans hlen hfew)

/-- There is no stream without a lexeme. -/
theorem Takes.empty {p : Parser α} : Takes P 0 p M := fun s hs hlen => by
  have := hs.length_pos
  omega

namespace Yields

theorem fault {cause : ParseCause} {span : Span} (h : P.span span) :
    Yields (Halt.Placed P) (Parser.fault cause span : Parser α) s Q := h

theorem unexpected (hs : Stream P s) (expected : String) :
    Yields (Halt.Placed P) (Parser.unexpected expected : Parser α) s Q :=
  current (currentSpan (fault hs.frontSpan))

/-- Nothing follows a fault. -/
theorem unexpected_bind {f : β → Parser α} (hs : Stream P s) (expected : String) :
    Yields (Halt.Placed P) (Parser.unexpected expected >>= f) s Q :=
  bind (Q := fun _ _ => False) (unexpected hs expected) fun _ _ h => h.elim

theorem expect (hs : Stream P s) (x : Symbol) (expected : String) :
    Yields (Halt.Placed P) (Parser.expect x expected) s fun span t => Past P s t ∧ P.span span := by
  refine sees (ite (fun hx => ?_) fun _ => unexpected hs expected)
  exact ⟨hs.past_of_sees hx, hs.frontSpan⟩

theorem identifier (hs : Stream P s) :
    Yields (Halt.Placed P) Parser.identifier s fun name t => Past P s t ∧ name.MadeOf P := by
  refine current ?_
  split
  · next text htoken =>
    have hname := hs.front
    rw [htoken] at hname
    refine advance (pure ⟨hs.past (by rw [htoken]; nofun), hname, hs.frontSpan⟩)
  · exact unexpected hs _

theorem label (hs : Stream P s) :
    Yields (Halt.Placed P) Parser.label s fun name t => Past P s t ∧ P.span name.span := by
  refine current ?_
  split
  · next text htoken => exact advance (pure ⟨hs.past (by rw [htoken]; nofun), hs.frontSpan⟩)
  · exact unexpected hs _

theorem expectFinish (hs : Stream P s) :
    Yields (Halt.Placed P) Parser.expectFinish s fun _ t => t = s := by
  refine current ?_
  split
  · exact pure rfl
  · exact unexpected hs _

/-! ### Repetition -/

/-- Each step leaves a shorter stream or ends the repetition. Where something has been read, the stream is shorter. -/
theorem repeatingMore {step : α → Parser (Option α)} (hs : Stream P s) {a : α} (ha : M a)
    (hstep : ∀ a t, M a → Stream P t → t.length ≤ s.length → Yields (Halt.Placed P) (step a) t fun r u =>
      (∀ b ∈ r, Past P t u ∧ M b) ∧ (r = none → Stream P u ∧ u.length ≤ t.length)) :
    Yields (Halt.Placed P) (Parser.repeating step a) s fun b t =>
      Stream P t ∧ t.length ≤ s.length ∧ (b ≠ a → t.length < s.length) ∧ M b := by
  refine repeating (I := fun b t => Stream P t ∧ t.length ≤ s.length ∧ (b ≠ a → t.length < s.length) ∧ M b)
    (fun b t hb => ?_) ⟨hs, Nat.le_refl _, fun h => absurd rfl h, ha⟩
  obtain ⟨ht, few, more, hb⟩ := hb
  refine (hstep b t hb ht few).mono fun r u hr => ⟨fun c hc => ?_, fun hnone => ?_⟩
  · obtain ⟨past, hc⟩ := hr.1 c hc
    have shorter := Nat.lt_of_lt_of_le past.shorter few
    exact ⟨past.shorter, past.stream, Nat.le_of_lt shorter, fun _ => shorter, hc⟩
  · obtain ⟨hu, fewer⟩ := hr.2 hnone
    exact ⟨hu, Nat.le_trans fewer few, fun hne => Nat.lt_of_le_of_lt fewer (more hne), hb⟩

theorem repeatingTakes {step : α → Parser (Option α)} (hs : Stream P s) {a : α} (ha : M a)
    (hstep : ∀ a t, M a → Stream P t → t.length ≤ s.length → Yields (Halt.Placed P) (step a) t fun r u =>
      (∀ b ∈ r, Past P t u ∧ M b) ∧ (r = none → Stream P u ∧ u.length ≤ t.length)) :
    Yields (Halt.Placed P) (Parser.repeating step a) s fun b t => Stream P t ∧ t.length ≤ s.length ∧ M b :=
  (repeatingMore hs ha hstep).mono fun _ _ ⟨ht, few, _, hb⟩ => ⟨ht, few, hb⟩

theorem semicolons (hs : Stream P s) :
    Yields (Halt.Placed P) Parser.semicolons s fun _ t => Stream P t ∧ t.length ≤ s.length := by
  refine (repeatingTakes (M := fun _ => True) hs trivial fun _ t _ ht _ => ?_).mono fun _ _ h => ⟨h.1, h.2.1⟩
  refine sees (ite (fun hx => advance (pure ⟨fun _ _ => ⟨ht.past_of_sees hx, trivial⟩, nofun⟩)) fun _ => ?_)
  exact pure ⟨nofun, fun _ => ⟨ht, Nat.le_refl _⟩⟩

theorem requireSeparator (hs : Stream P s) (separated : Bool) :
    Yields (Halt.Placed P) (Parser.requireSeparator separated) s fun _ t => t = s := by
  refine onNewLine fun b => ite (fun _ => pure rfl) fun _ => ?_
  exact currentSpan (fault hs.frontSpan)

end Yields

end Tokens

end Parser

end RecordStats
