import RecordStats.Proofs.Grammar.Lookahead
import RecordStats.Proofs.Grammar.Nesting
import RecordStats.Proofs.Grammar.Statement
import RecordStats.Proofs.Outcome

/-! Reading comes to an end. On the lexemes of a text every rule of the grammar gives something or ends with a fault;
    what it reads it takes off the front, and on its way only few calls are opened before a lexeme is taken. -/

namespace RecordStats.Parser

variable {s t : List Lexeme}

/-! ### The lexemes that are left -/

theorem Rule.parser_ensures (r : Rule) (most : Nat) : ∃ P, Ensures most r.parser P := by
  have inner : Ensures most Parser.expression (Expr.WellFormed most) := .expression
  have one : Ensures most Parser.statement (Statement.WellFormed most) := .statement
  cases r with
  | program => exact ⟨_, .program⟩
  | block closed => exact ⟨_, .block one closed⟩
  | braced => exact ⟨_, .braced one⟩
  | statement => exact ⟨_, one⟩
  | definition target => exact ⟨_, .definition inner (.functionBody inner) target⟩
  | functionBody => exact ⟨_, .functionBody inner⟩
  | collect statistic => exact ⟨_, .collect statistic⟩
  | axes => exact ⟨_, .axes⟩
  | axis => exact ⟨_, .axis⟩
  | source inclusive start => exact ⟨_, .source one inclusive start⟩
  | region => exact ⟨_, .region one⟩
  | vary => exact ⟨_, .vary one⟩
  | loop => exact ⟨_, .loop one⟩
  | expression => exact ⟨_, inner⟩
  | function => exact ⟨_, .function inner⟩
  | disjunction => exact ⟨_, .disjunction inner⟩
  | conjunction => exact ⟨_, .conjunction inner⟩
  | negation => exact ⟨_, .negation inner⟩
  | comparison => exact ⟨_, .comparison inner⟩
  | sum => exact ⟨_, .sum inner⟩
  | product => exact ⟨_, .product inner⟩
  | factor => exact ⟨_, .factor inner⟩
  | power => exact ⟨_, .openPower (.operand inner) (.factor inner)⟩
  | operand => exact ⟨_, .operand inner⟩
  | arguments => exact ⟨_, .arguments inner⟩
  | atom => exact ⟨_, .atom inner⟩

/-- What a rule leaves are the last ones of the lexemes that it finds. -/
theorem Rule.parser_suffix {r : Rule} {a : r.Result} (h : r.parser s = .ok (a, t)) : t <:+ s := by
  obtain ⟨P, ensures⟩ := r.parser_ensures s.length
  exact (ensures (Nat.le_refl _) h).1

/-- The last ones of a stream are a stream. -/
theorem Stream.suffix {P : Pieces} (h : Stream P s) (ht : t <:+ s) (some : t ≠ []) : Stream P t := by
  obtain ⟨before, rfl⟩ := ht
  refine ⟨fun l hl => h.made l (List.mem_append_right _ hl), ?_⟩
  obtain ⟨l, hl, hfinish⟩ := h.ends
  rw [List.getLast?_append_of_ne_nil _ some] at hl
  exact ⟨l, hl, hfinish⟩

/-! ### The whole -/

/-- What reading lexemes by the rules of the grammar comes to, from wherever among them. -/
structure Terminates (lexemes : List Lexeme) : Prop where
  /-- Something is read, or there is a fault. -/
  total : ∀ (r : Rule) (s : List Lexeme), s <:+ lexemes → s ≠ [] →
    (∃ a t, r.parser s = .ok (a, t)) ∨ ∃ cause span, r.parser s = .error (.fault (.grammatical cause span))
  /-- What has been read is taken off the front, but never the last lexeme. Where something is read something is
  taken. -/
  advances : ∀ (r : Rule) (s : List Lexeme) (a : r.Result) (t : List Lexeme), s <:+ lexemes → s ≠ [] →
    r.parser s = .ok (a, t) → ∃ taken, s = taken ++ t ∧ t ≠ [] ∧ (r.Nonempty a → taken ≠ [])
  /-- A rule does what its body says, however deep it is nested. -/
  unfolds : ∀ (r : Rule) (s : List Lexeme), s <:+ lexemes → s ≠ [] → r.parser s = r.body Rule.parser s
  /-- A call is made with fewer lexemes left, or with as many by a rule further down. -/
  nearer : ∀ c c' : Call, c.lexemes <:+ lexemes → c.lexemes ≠ [] → c.Opens c' →
    c'.lexemes ≠ [] ∧ c.rule.Nearer c.lexemes c'.rule c'.lexemes
  /-- Calls one within another, before a lexeme is taken. -/
  nesting : ∀ (c : Call) (cs : List Call), c.lexemes <:+ lexemes → c.lexemes ≠ [] → (c :: cs).IsChain Call.Opens →
    (∀ d ∈ cs, d.lexemes.length = c.lexemes.length) → (c :: cs).length ≤ 12
  /-- Calls one within another, to whatever depth. -/
  depth : ∀ (c : Call) (cs : List Call), c.lexemes <:+ lexemes → c.lexemes ≠ [] → (c :: cs).IsChain Call.Opens →
    (c :: cs).length ≤ 12 * c.lexemes.length
  /-- The lookahead for an axis ends, without closing a parenthesis that is not open, and takes nothing. -/
  axisLook : ∀ s : List Lexeme, s <:+ lexemes → s ≠ [] →
    (axisStart s).Ends (axisGlance s) s.length (axisAhead s) ∧
      (axisAhead <$> get : Parser Bool) s = .ok (axisAhead s, s)
  /-- The lookahead for a function ends and takes nothing. -/
  functionLook : ∀ s : List Lexeme, s <:+ lexemes → s ≠ [] →
    (functionStart s).Ends (functionGlance s) s.length (functionAhead s) ∧
      (functionAhead <$> get : Parser Bool) s = .ok (functionAhead s, s)

/-- Reading the lexemes of a text comes to an end. -/
theorem terminates_of_ofText {text : String} {lexemes : List Lexeme} (h : Lexeme.ofText text = .ok lexemes) :
    Terminates lexemes := by
  have anything : Pieces.any.Holds text := ⟨fun _ _ => trivial, fun token _ => by cases token <;> trivial⟩
  have stream : ∀ {s}, s <:+ lexemes → s ≠ [] → Stream .any s := fun hs some =>
    (Lexeme.stream_of_ofText anything h).suffix hs some
  refine {
    total := fun r s hs some => ?_
    advances := fun r s a t hs some run => ?_
    unfolds := fun r s hs some => r.parser_eq (stream hs some)
    nearer := fun c c' hs some opens => ?_
    nesting := fun c cs hs some chain still => Call.nesting (stream hs some) chain still
    depth := fun c cs hs some chain => Call.depth (stream hs some) chain
    axisLook := fun s hs some => ⟨axisAhead_ends (stream hs some), rfl⟩
    functionLook := fun s hs some => ⟨functionAhead_ends (stream hs some), rfl⟩ }
  · have reads := r.parser_reads (stream hs some)
    cases run : r.parser s with
    | ok result => exact .inl ⟨result.1, result.2, rfl⟩
    | error halt =>
      match halt, Yields.of_error reads run with
      | .fault (.grammatical cause span), _ => exact .inr ⟨cause, span, rfl⟩
  · have left := Yields.of_eq (r.parser_reads (stream hs some)) run
    obtain ⟨taken, rfl⟩ := Rule.parser_suffix run
    refine ⟨taken, rfl, left.stream.ne_nil, fun nonempty hnil => ?_⟩
    have shorter := left.shorter nonempty
    rw [hnil] at shorter
    exact absurd shorter (Nat.lt_irrefl _)
  · obtain ⟨left, near⟩ := opens.nearer (stream hs some)
    exact ⟨left.ne_nil, near⟩

theorem terminates_of_ofText_definition :
    ∃ lexemes, Lexeme.ofText "f(x) := \x7b -x ** 2 \x7d" = .ok lexemes ∧ Terminates lexemes := by
  have cut : (Lexeme.ofText "f(x) := \x7b -x ** 2 \x7d").toOption.any (fun _ => true) = true := by decide +kernel
  obtain ⟨lexemes, h, -⟩ := exists_of_any cut
  exact ⟨lexemes, h, terminates_of_ofText h⟩

end RecordStats.Parser
