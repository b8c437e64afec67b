import Mathlib.Data.List.Chain
import RecordStats.Proofs.Grammar.Knot

/-! Calls within calls. A rule is called with fewer lexemes than its caller was, or with as many and further down in the
    grammar. So a rule always ends, and only few calls are open one within another before a lexeme is taken. -/

namespace RecordStats

/-! ### Anything is made of any pieces -/

namespace Pieces

theorem expr_any (e : Expr) : e.MadeOf .any := expr_named fun _ _ => trivial

theorem statement_any (d : Statement) : d.MadeOf .any := statement_named fun _ _ => trivial

theorem body_any (r : List Statement × Span) : Parser.Takes.Body .any r := ⟨body_named fun _ _ => trivial, trivial⟩

theorem definition_any (d : Statement) : d.MadeOf .any ∧ Expr.BodyMadeOf .any [d] :=
  ⟨statement_any d, body_named fun _ _ => trivial⟩

theorem braced_any (r : List Statement × Span) : Parser.Takes.Braced .any r := ⟨block_named fun _ _ => trivial, trivial⟩

theorem axis_any (a : Axis Expr) : a.MadeOf .any := ⟨expr_any _, expr_any _, trivial⟩

end Pieces

namespace Parser

variable {s t : List Lexeme}

open Pieces

namespace Rule

/-! ### What a rule leaves -/

/-- The construct that has been read is not empty. Only lists and programs can be. -/
def Nonempty : ∀ r : Rule, r.Result → Prop
  | program, p => p.block ≠ []
  | block _, statements => statements ≠ []
  | axes, as => as ≠ []
  | arguments, es => es ≠ []
  | _, _ => True

/-- A stream is left that is no longer, and shorter unless nothing has been read. -/
structure Leaves (r : Rule) (s : List Lexeme) (a : r.Result) (t : List Lexeme) : Prop where
  stream : Stream .any t
  le : t.length ≤ s.length
  shorter : r.Nonempty a → t.length < s.length

/-- The parser reads as the rule should, or ends with a fault. -/
def Reads (r : Rule) (p : Parser r.Result) (s : List Lexeme) : Prop :=
  Yields (Halt.Placed .any) p s (r.Leaves s)

theorem reads_of_takes {r : Rule} {p : Parser r.Result} {M : r.Result → Prop} {most : Nat} (h : Takes .any most p M)
    (hs : Stream .any s) (few : s.length ≤ most) : r.Reads p s :=
  (h s hs few).mono fun _ _ ⟨past, _⟩ => ⟨past.stream, Nat.le_of_lt past.shorter, fun _ => past.shorter⟩

/-- A rule that always reads something takes lexemes. -/
theorem takes_of_reads {r : Rule} {p : Parser r.Result} {M : r.Result → Prop} {most : Nat}
    (h : ∀ t, Stream .any t → t.length ≤ most → r.Reads p t) (some : ∀ a, r.Nonempty a) (hM : ∀ a, M a) :
    Takes .any most p M := fun t ht few =>
  (h t ht few).mono fun a _ left => ⟨⟨left.stream, left.shorter (some a)⟩, hM a⟩

/-- A call of the second rule is nearer to the end than one of the first: fewer lexemes are left, or as many and the
    rule is lower. -/
def Nearer (r : Rule) (s : List Lexeme) (r' : Rule) (t : List Lexeme) : Prop :=
  t.length < s.length ∨ t.length = s.length ∧ r'.height < r.height

/-- The calls of a rule on `n + 1` lexemes read as they should: those of any rule on fewer lexemes, and those of lower
    rules on as many. -/
structure Served (call : ∀ r : Rule, Parser r.Result) (r : Rule) (n : Nat) : Prop where
  later : ∀ (r' : Rule) (t : List Lexeme), Stream .any t → t.length ≤ n → r'.Reads (call r') t
  lower : ∀ r' : Rule, r'.height < r.height → ∀ t, Stream .any t → t.length ≤ n + 1 → r'.Reads (call r') t

namespace Served

variable {call : ∀ r : Rule, Parser r.Result} {r : Rule} {n : Nat}

theorem of_nearer (hn : s.length = n + 1) (h : ∀ r' t, Stream .any t → r.Nearer s r' t → r'.Reads (call r') t) :
    Served call r n where
  later r' t ht hle := h r' t ht (.inl (by omega))
  lower r' lower t ht hle := by
    refine h r' t ht ?_
    rw [Nearer, hn]
    omega

theorem less (served : Served call r n) (r' : Rule) {M : r'.Result → Prop} (some : ∀ a, r'.Nonempty a)
    (hM : ∀ a, M a) : Takes .any n (call r') M := takes_of_reads (served.later r') some hM

theorem same (served : Served call r n) (r' : Rule) {M : r'.Result → Prop} (lower : r'.height < r.height)
    (some : ∀ a, r'.Nonempty a) (hM : ∀ a, M a) : Takes .any (n + 1) (call r') M :=
  takes_of_reads (served.lower r' lower) some hM

end Served

/-- A rule reads as it should if the rules that it calls do where they are nearer to the end. -/
theorem body_reads {call : ∀ r : Rule, Parser r.Result} (r : Rule) (hs : Stream .any s)
    (h : ∀ r' t, Stream .any t → r.Nearer s r' t → r'.Reads (call r') t) : r.Reads (r.body call) s := by
  obtain ⟨n, hn⟩ : ∃ n, s.length = n + 1 := ⟨s.length - 1, by have := hs.length_pos; omega⟩
  have few : s.length ≤ n + 1 := Nat.le_of_eq hn
  have served : Served call r n := .of_nearer hn h
  have always {α : Type} (_ : α) : True := trivial
  -- What is read behind a lexeme of the rule's own has fewer lexemes left, whatever rule it is read by.
  have inner : TakesExpr .any n (call expression) := served.less expression always expr_any
  have along : TakesList .any n (call axes) (Axis.MadeOf .any) := fun t ht hle =>
    (served.later axes t ht hle).mono fun _ _ left => ⟨left.stream, left.le, left.shorter, fun a _ => axis_any a⟩
  have within : Takes .any n (call braced) (Takes.Braced .any) := served.less braced always braced_any
  have defines : Takes.Defines .any n fun target => call (definition target) := fun target _ =>
    served.less (definition target) always definition_any
  cases r with
  | program =>
    have statements : TakesList .any (n + 1) (call (block false)) (Statement.MadeOf .any) := fun t ht hle =>
      (served.lower (block false) (by decide) t ht hle).mono fun _ _ left =>
        ⟨left.stream, left.le, left.shorter, fun d _ => statement_any d⟩
    exact (Takes.openProgram any_closed statements hs few).mono fun _ _ ⟨ht, hle, more, _⟩ => ⟨ht, hle, more⟩
  | block closed =>
    have one : Takes.TakesStatement .any (n + 1) (call statement) :=
      served.same statement (Nat.lt_succ_self 2) always statement_any
    exact (Takes.block one closed s hs few).mono fun _ _ ⟨ht, hle, more, _⟩ => ⟨ht, hle, more⟩
  | braced =>
    have statements : TakesList .any n (call (block true)) (Statement.MadeOf .any) := fun t ht hle =>
      (served.later (block true) t ht hle).mono fun _ _ left =>
        ⟨left.stream, left.le, left.shorter, fun d _ => statement_any d⟩
    exact reads_of_takes (Takes.openBraced statements) hs few
  | statement =>
    have lower : ∀ r' : Rule, r'.height = 0 → r'.height < height statement := fun r' h => by
      rw [h]
      decide
    have defined : Takes.TakesStatement .any (n + 1)
        (Open.define (call operand) fun target => call (definition target)) :=
      Takes.openDefine (served.same operand (by decide) always expr_any) defines
    exact reads_of_takes (Takes.openStatement
      (fun kind => served.same (collect kind) (lower _ rfl) always statement_any)
      (fun inclusive start _ => served.same (source inclusive start) (lower _ rfl) always statement_any)
      (served.same region (by decide) always statement_any) (served.same vary (by decide) always statement_any)
      (served.same loop (by decide) always statement_any) defined) hs few
  | definition target =>
    have body : Takes .any n (call functionBody) (Takes.Body .any) := served.less functionBody always body_any
    exact reads_of_takes (Takes.definition any_closed inner body (expr_any target)) hs few
  | functionBody =>
    exact reads_of_takes (Takes.openBody any_closed (served.same expression (by decide) always expr_any) defines) hs few
  | collect statistic => exact reads_of_takes (Takes.openCollect any_closed inner along statistic) hs few
  | axes =>
    have one : Takes .any n (call axis) (Axis.MadeOf .any) := served.less axis always axis_any
    exact (Takes.openAxes one s hs few).mono fun _ _ ⟨ht, hle, more, _⟩ => ⟨ht, hle, more⟩
  | axis =>
    exact reads_of_takes (Takes.openAxis any_closed (served.same operand (by decide) always expr_any) inner) hs few
  | source inclusive start => exact reads_of_takes (Takes.openSource any_closed within inclusive trivial) hs few
  | region => exact reads_of_takes (Takes.openRegion any_closed inner along within) hs few
  | vary => exact reads_of_takes (Takes.openVary any_closed inner within) hs few
  | loop => exact reads_of_takes (Takes.openLoop any_closed inner within) hs few
  | expression =>
    exact reads_of_takes (Takes.openExpression (served.same function (by decide) always expr_any)
      (served.same disjunction (by decide) always expr_any)) hs few
  | function =>
    exact reads_of_takes (Takes.openFunction any_closed (served.less functionBody always body_any)) hs few
  | disjunction =>
    have operands := served.same conjunction (by decide) always expr_any
    exact reads_of_takes (Takes.leftGrouped any_closed (by decide) operands) hs few
  | conjunction =>
    have operands := served.same negation (by decide) always expr_any
    exact reads_of_takes (Takes.leftGrouped any_closed (by decide) operands) hs few
  | negation =>
    have negated : TakesExpr .any n (call negation) := served.less negation always expr_any
    have compared : TakesExpr .any (n + 1) (call comparison) := served.same comparison (by decide) always expr_any
    exact reads_of_takes (Takes.openNegation any_closed negated compared) hs few
  | comparison =>
    exact reads_of_takes (Takes.chained any_closed (served.same sum (by decide) always expr_any)) hs few
  | sum =>
    have operands := served.same product (by decide) always expr_any
    exact reads_of_takes (Takes.leftGrouped any_closed (by decide) operands) hs few
  | product =>
    have operands := served.same factor (by decide) always expr_any
    exact reads_of_takes (Takes.leftGrouped any_closed (by decide) operands) hs few
  | factor =>
    have signed : TakesExpr .any n (call factor) := served.less factor always expr_any
    exact reads_of_takes (Takes.openFactor any_closed signed (served.same power (by decide) always expr_any)) hs few
  | power =>
    have raised : TakesExpr .any n (call factor) := served.less factor always expr_any
    exact reads_of_takes (Takes.openPower any_closed (served.same operand (by decide) always expr_any) raised) hs few
  | operand =>
    have listed : TakesList .any n (call arguments) (Expr.MadeOf .any) := fun t ht hle =>
      (served.later arguments t ht hle).mono fun _ _ left => ⟨left.stream, left.le, left.shorter, fun e _ => expr_any e⟩
    have first : TakesExpr .any (n + 1) (call atom) := served.same atom (by decide) always expr_any
    exact reads_of_takes (Takes.openOperand any_closed first inner listed) hs few
  | arguments =>
    have items : TakesExpr .any (n + 1) (call expression) := served.same expression (by decide) always expr_any
    exact (Takes.arguments items s hs few).mono fun _ _ ⟨ht, hle, more, _⟩ => ⟨ht, hle, more⟩
  | atom => exact reads_of_takes (Takes.atom any_closed inner) hs few

theorem height_le (r : Rule) : r.height ≤ 11 := by
  cases r <;> simp [height]

/-- Every rule reads as it should. It comes to its end because the rules that it calls are nearer to the end. -/
theorem parser_reads (r : Rule) {s : List Lexeme} (hs : Stream .any s) : r.Reads r.parser s :=
  Yields.congr (r.body_reads hs fun r' _ ht _ => r'.parser_reads ht) (r.parser_eq hs)
termination_by 12 * s.length + r.height
decreasing_by
  rename_i nearer
  have := r'.height_le
  unfold Nearer at nearer
  omega

end Rule

/-! ### Open calls -/

/-- A call of a rule, with the lexemes that are left then. -/
structure Call where
  rule : Rule
  lexemes : List Lexeme

namespace Call

open Classical in
/-- The parsers of the rules, except that this call ends at once. -/
noncomputable def barring (c : Call) (r : Rule) : Parser r.Result := fun s =>
  if c = ⟨r, s⟩ then .error .spent else r.parser s

/-- The first call makes the second: were that one to end at once, so would the first. -/
def Opens (c c' : Call) : Prop :=
  c.rule.body c'.barring c.lexemes = .error .spent

/-- How far a call is from the end: by the lexemes that are left, and then by its rule. -/
def distance (c : Call) : Nat := 12 * c.lexemes.length + c.rule.height

variable {c c' : Call} {cs : List Call}

/-- A call is made nearer to the end than the call that makes it. -/
theorem Opens.nearer (h : c.Opens c') (hs : Stream .any c.lexemes) :
    Stream .any c'.lexemes ∧ c.rule.Nearer c.lexemes c'.rule c'.lexemes := by
  by_contra far
  have reads : c.rule.Reads (c.rule.body c'.barring) c.lexemes := c.rule.body_reads hs fun r t ht nearer => by
    have other : c' ≠ ⟨r, t⟩ := by
      rintro rfl
      exact far ⟨ht, nearer⟩
    exact Yields.congr (r.parser_reads ht) (if_neg other)
  exact Yields.of_error reads h

theorem Opens.distance_lt (h : c.Opens c') (hs : Stream .any c.lexemes) : c'.distance < c.distance := by
  have nearer := (h.nearer hs).2
  have := c'.rule.height_le
  unfold Rule.Nearer at nearer
  unfold distance
  omega

/-- Calls that are open one within another while so many lexemes are left. -/
theorem length_chain {k : Nat} (hs : Stream .any c.lexemes) (h : (c :: cs).IsChain Opens)
    (many : ∀ d ∈ c :: cs, k ≤ d.lexemes.length) : cs.length + 12 * k ≤ c.distance := by
  induction cs generalizing c with
  | nil =>
    have := many c List.mem_cons_self
    simp only [List.length_nil, distance]
    omega
  | cons c' rest ih =>
    obtain ⟨first, later⟩ := List.isChain_cons_cons.mp h
    have nearer := first.distance_lt hs
    have := ih (first.nearer hs).1 later fun d hd => many d (List.mem_cons_of_mem _ hd)
    rw [List.length_cons]
    omega

theorem stream_chain (hs : Stream .any c.lexemes) (h : (c :: cs).IsChain Opens) :
    ∀ d ∈ c :: cs, Stream .any d.lexemes := by
  induction cs generalizing c with
  | nil => exact List.forall_mem_singleton.mpr hs
  | cons c' rest ih =>
    obtain ⟨first, later⟩ := List.isChain_cons_cons.mp h
    exact List.forall_mem_cons.mpr ⟨hs, ih (first.nearer hs).1 later⟩

/-- Before a lexeme is taken, at most twelve calls are opened one within another. -/
theorem nesting (hs : Stream .any c.lexemes) (h : (c :: cs).IsChain Opens)
    (still : ∀ d ∈ cs, d.lexemes.length = c.lexemes.length) : (c :: cs).length ≤ 12 := by
  have few := length_chain (k := c.lexemes.length) hs h
    (List.forall_mem_cons.mpr ⟨Nat.le_refl _, fun d hd => Nat.le_of_eq (still d hd).symm⟩)
  have := c.rule.height_le
  unfold distance at few
  rw [List.length_cons]
  omega

/-- The parser ends at once: an allowance is spent before anything else can be. -/
abbrev EndsAtOnce {α : Type} (p : Parser α) (s : List Lexeme) : Prop :=
  Yields (fun e => e = .spent) p s fun _ _ => False

theorem EndsAtOnce.bind {α β : Type} {p : Parser α} {f : α → Parser β} (h : EndsAtOnce p s) :
    EndsAtOnce (p >>= f) s := Yields.bind h fun _ _ h => h.elim

theorem barring_self (r : Rule) (s : List Lexeme) : EndsAtOnce ((Call.mk r s).barring r) s := by
  have run : (Call.mk r s).barring r s = (throw .spent : Parser r.Result) s := if_pos rfl
  have thrown : EndsAtOnce (throw .spent : Parser r.Result) s := Yields.throw rfl
  exact Yields.congr thrown run

theorem opens_of_endsAtOnce (h : EndsAtOnce (c.rule.body c'.barring) c.lexemes) : c.Opens c' := by
  unfold EndsAtOnce Yields at h
  split at h
  · exact h.elim
  · next e run =>
    subst h
    exact run

/-- Where a number stands, twelve calls are opened one within another: from a function's body down to an operand. -/
theorem nesting_integer {n : Int64} (hfront : front s = .integer n) :
    ([.functionBody, .expression, .disjunction, .conjunction, .negation, .comparison, .sum, .product, .factor, .power,
      .operand, .atom].map fun r => Call.mk r s).IsChain Opens := by
  have unseen : ∀ x, ¬(front s).isSymbol x = true := fun x hx => by
    rw [hfront] at hx
    cases hx
  have plain : ¬functionAhead s = true := fun h => by
    rw [functionAhead, hfront] at h
    cases h
  simp only [List.map_cons, List.map_nil, List.isChain_cons_cons, List.isChain_singleton, and_true]
  refine ⟨?body, ?expression, ?disjunction, ?conjunction, ?negation, ?comparison, ?sum, ?product, ?factor, ?power,
    ?operand⟩ <;> refine opens_of_endsAtOnce ?_
  case body => exact .sees (.ite (fun h => absurd h (unseen _)) fun _ => EndsAtOnce.bind (barring_self _ s))
  case expression => exact .get (.ite (fun h => absurd h plain) fun _ => barring_self _ s)
  case negation => exact .sees (.ite (fun h => absurd h (unseen _)) fun _ => barring_self _ s)
  case factor =>
    refine .current ?_
    rw [hfront]
    exact barring_self _ s
  all_goals exact EndsAtOnce.bind (barring_self _ s)

/-- At most twelve calls for each lexeme are open one within another. -/
theorem depth (hs : Stream .any c.lexemes) (h : (c :: cs).IsChain Opens) :
    (c :: cs).length ≤ 12 * c.lexemes.length := by
  have few := length_chain (k := 1) hs h fun d hd => (stream_chain hs h d hd).length_pos
  have := c.rule.height_le
  unfold distance at few
  rw [List.length_cons]
  omega

end Call

end Parser
end RecordStats
