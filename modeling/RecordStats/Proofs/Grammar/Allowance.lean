import RecordStats.Proofs.Grammar.MadeStatement

/-! Allowances. A parser does the same with a small one as with a large one, unless it spends it. So how much is allowed
    does not count where nothing is spent, and nothing that takes lexemes is spent on a stream. -/

namespace RecordStats.Parser

variable {α β : Type}

/-- The first parser does what the second one does, unless it spends an allowance. -/
def Below (p q : Parser α) : Prop :=
  ∀ s, p s = .error .spent ∨ p s = q s

namespace Below

variable {p p' q q' : Parser α} {f g : α → Parser β}

theorem refl (p : Parser α) : Below p p := fun _ => .inr rfl

theorem spent : Below (throw .spent) p := fun _ => .inl rfl

theorem bind (h : Below p q) (hf : ∀ a, Below (f a) (g a)) : Below (p >>= f) (q >>= g) := by
  intro s
  have run : (p >>= f) s = p s >>= fun r => f r.1 r.2 := rfl
  have run' : (q >>= g) s = q s >>= fun r => g r.1 r.2 := rfl
  rw [run, run']
  rcases h s with hspent | heq
  · rw [hspent]
    exact .inl rfl
  rw [heq]
  cases q s with
  | error e => exact .inr rfl
  | ok r => exact hf r.1 r.2

/-- What both do first. -/
theorem after (hf : ∀ a, Below (f a) (g a)) : Below (p >>= f) (p >>= g) :=
  (refl p).bind hf

theorem ite {c : Prop} [Decidable c] (h : Below p q) (h' : Below p' q') :
    Below (if c then p else p') (if c then q else q') := by
  split
  · exact h
  · exact h'

theorem repeatWithin {step step' : α → Parser (Option α)} (h : ∀ a, Below (step a) (step' a)) {few many : Nat}
    (hle : few ≤ many) (a : α) : Below (Parser.repeatWithin step few a) (Parser.repeatWithin step' many a) := by
  induction few generalizing many a with
  | zero => exact spent
  | succ few ih =>
    cases many with
    | zero => exact absurd hle (Nat.not_succ_le_zero few)
    | succ many =>
      refine (h a).bind fun r => ?_
      cases r with
      | none => exact refl _
      | some b => exact ih (Nat.le_of_succ_le_succ hle) b

theorem repeating {step step' : α → Parser (Option α)} (h : ∀ a, Below (step a) (step' a)) (a : α) :
    Below (Parser.repeating step a) (Parser.repeating step' a) :=
  after fun _ => repeatWithin h (Nat.le_refl _) a

/-- A parser that spends no allowance does what each one above it does. -/
theorem eq {P : Pieces} {s : List Lexeme} {Q : α → List Lexeme → Prop} (h : Below p q)
    (hp : Yields (Halt.Placed P) p s Q) : p s = q s := by
  rcases h s with hspent | heq
  · exact (hp.of_error hspent).elim
  · exact heq

/-! ### Expressions -/

section

variable {e e' : Parser Expr} {read read' : Parser (List Statement × Span)} {define define' : Expr → Parser Statement}
variable {listed listed' : Parser (List Expr)}

theorem leftGrouped (operators : List (Symbol × Operator)) (h : Below e e') :
    Below (Parser.leftGrouped operators e) (Parser.leftGrouped operators e') := by
  refine h.bind fun first => repeating (fun left => after fun token => ?_) first
  split
  · exact refl _
  · exact after fun _ => h.bind fun _ => refl _

theorem chained (h : Below e e') : Below (Parser.chained e) (Parser.chained e') := by
  refine h.bind fun first => (repeating (fun chain => after fun token => ?_) _).bind fun _ => refl _
  split
  · exact refl _
  · exact after fun _ => h.bind fun _ => refl _

theorem definition (h : Below e e') (hread : Below read read') (target : Expr) :
    Below (Parser.definition e read target) (Parser.definition e' read' target) := by
  refine after fun _ => ?_
  split
  · exact h.bind fun _ => refl _
  · split
    · exact after fun _ => after fun _ => hread.bind fun _ => refl _
    · exact refl _
  · exact refl _

theorem openBodyStep (h : Below e e') (hdefine : ∀ target, Below (define target) (define' target))
    (sofar : List Statement × Bool) :
    Below (Parser.Open.bodyStep e define sofar) (Parser.Open.bodyStep e' define' sofar) := by
  refine after fun _ => after fun _ => ite (refl _) (ite (after fun _ => ?_) ?_)
  · exact after fun _ => h.bind fun _ => after fun _ => ite ((hdefine _).bind fun _ => refl _) (refl _)
  · exact after fun _ => h.bind fun _ => after fun _ => ite ((hdefine _).bind fun _ => refl _) (refl _)

theorem openBody (h : Below e e') (hdefine : ∀ target, Below (define target) (define' target)) :
    Below (Parser.Open.functionBody e define) (Parser.Open.functionBody e' define') := by
  refine after fun _ => ite (after fun _ => ?_) (h.bind fun _ => refl _)
  exact (repeating (openBodyStep h hdefine) _).bind fun _ => refl _

theorem bodyWithin (h : Below e e') {few many : Nat} (hle : few ≤ many) :
    Below (Parser.bodyWithin e few) (Parser.bodyWithin e' many) := by
  induction few generalizing many with
  | zero => exact spent
  | succ few ih =>
    cases many with
    | zero => exact absurd hle (Nat.not_succ_le_zero few)
    | succ many => exact openBody h (definition h (ih (Nat.le_of_succ_le_succ hle)))

theorem functionBody (h : Below e e') : Below (Parser.functionBody e) (Parser.functionBody e') :=
  after fun _ => bodyWithin h (Nat.le_refl _)

theorem openFunction (h : Below read read') : Below (Parser.Open.function read) (Parser.Open.function read') :=
  after fun _ => after fun _ => after fun _ => after fun _ => h.bind fun _ => refl _

theorem atom (h : Below e e') : Below (Parser.atom e) (Parser.atom e') := by
  refine after fun _ => after fun token => ?_
  split
  · exact refl _
  · exact refl _
  · exact refl _
  · exact refl _
  · exact after fun _ => h.bind fun _ => refl _
  · exact refl _

theorem arguments (h : Below e e') : Below (Parser.arguments e) (Parser.arguments e') :=
  (repeating (fun _ => after fun _ => ite (refl _) (h.bind fun _ => refl _)) _).bind fun _ => refl _

theorem openPostfixStep (h : Below e e') (hlisted : Below listed listed') (operand : Expr) :
    Below (Parser.Open.postfixStep e listed operand) (Parser.Open.postfixStep e' listed' operand) := by
  refine after fun token => ?_
  split
  · exact refl _
  · exact after fun _ => h.bind fun _ => refl _
  · exact after fun _ => hlisted.bind fun _ => refl _
  · exact refl _

theorem operand (h : Below e e') : Below (Parser.operand e) (Parser.operand e') :=
  (atom h).bind fun _ => repeating (openPostfixStep h (arguments h)) _

theorem openPower {base base' : Parser Expr} (hbase : Below base base') (h : Below e e') :
    Below (Parser.Open.power base e) (Parser.Open.power base' e') :=
  hbase.bind fun _ => after fun _ => ite (after fun _ => h.bind fun _ => refl _) (refl _)

theorem openFactor {power power' : Parser Expr} (h : Below e e') (hpower : Below power power') :
    Below (Parser.Open.factor e power) (Parser.Open.factor e' power') := by
  refine after fun token => ?_
  split
  · exact after fun _ => h.bind fun _ => refl _
  · exact after fun _ => h.bind fun _ => refl _
  · exact hpower

theorem factorWithin (h : Below e e') {few many : Nat} (hle : few ≤ many) :
    Below (Parser.factorWithin e few) (Parser.factorWithin e' many) := by
  induction few generalizing many with
  | zero => exact spent
  | succ few ih =>
    cases many with
    | zero => exact absurd hle (Nat.not_succ_le_zero few)
    | succ many =>
      have signed := ih (Nat.le_of_succ_le_succ hle)
      exact openFactor signed (openPower (operand h) signed)

theorem comparison (h : Below e e') : Below (Parser.comparison e) (Parser.comparison e') :=
  chained (leftGrouped _ (leftGrouped _ (after fun _ => factorWithin h (Nat.le_refl _))))

theorem openNegation {compared compared' : Parser Expr} (h : Below e e') (hcompared : Below compared compared') :
    Below (Parser.Open.negation e compared) (Parser.Open.negation e' compared') :=
  after fun _ => ite (after fun _ => h.bind fun _ => refl _) hcompared

theorem negationWithin (h : Below e e') {few many : Nat} (hle : few ≤ many) :
    Below (Parser.negationWithin e few) (Parser.negationWithin e' many) := by
  induction few generalizing many with
  | zero => exact spent
  | succ few ih =>
    cases many with
    | zero => exact absurd hle (Nat.not_succ_le_zero few)
    | succ many => exact openNegation (ih (Nat.le_of_succ_le_succ hle)) (comparison h)

theorem disjunction (h : Below e e') : Below (Parser.disjunction e) (Parser.disjunction e') :=
  leftGrouped _ (leftGrouped _ (after fun _ => negationWithin h (Nat.le_refl _)))

theorem openExpression {operators operators' : Parser Expr} (h : Below e e') (hoperators : Below operators operators') :
    Below (Parser.Open.expression e operators) (Parser.Open.expression e' operators') :=
  after fun _ => ite h hoperators

end

/-! ### Statements -/

section

variable {d d' : Parser Statement} {within within' : Parser (List Statement × Span)}

theorem block (h : Below d d') (closed : Bool) : Below (Parser.block d closed) (Parser.block d' closed) := by
  refine (repeating (fun _ => after fun _ => after fun token => ?_) _).bind fun _ => refl _
  split
  · exact refl _
  · exact ite (refl _) (after fun _ => h.bind fun _ => refl _)

theorem braced (h : Below d d') : Below (Parser.braced d) (Parser.braced d') :=
  after fun _ => (block h true).bind fun _ => refl _

theorem source (h : Below d d') (inclusive : Bool) (start : Span) :
    Below (Parser.source d inclusive start) (Parser.source d' inclusive start) :=
  after fun _ => (braced h).bind fun _ => refl _

theorem region (h : Below d d') : Below (Parser.region d) (Parser.region d') := by
  refine after fun _ => after fun _ => after fun _ => after fun _ => ?_
  extract_lets finish finish'
  have hfinish : ∀ predicate, Below (finish predicate) (finish' predicate) := fun _ =>
    after fun _ => (braced h).bind fun _ => refl _
  exact ite (hfinish none) (after fun _ => hfinish _)

theorem vary (h : Below d d') : Below (Parser.vary d) (Parser.vary d') :=
  after fun _ => after fun _ =>
    ite (after fun _ => (braced h).bind fun _ => refl _) ((braced h).bind fun _ => refl _)

theorem loop (h : Below d d') : Below (Parser.loop d) (Parser.loop d') :=
  after fun _ => after fun _ => (braced h).bind fun _ => refl _

theorem openStatement {gather : Statistic → Parser Statement} {select select' : Bool → Span → Parser Statement}
    {divide divide' alter alter' repeated repeated' bind : Parser Statement}
    (hselect : ∀ inclusive start, Below (select inclusive start) (select' inclusive start))
    (hdivide : Below divide divide') (halter : Below alter alter') (hrepeated : Below repeated repeated') :
    Below (Parser.Open.statement gather select divide alter repeated bind)
      (Parser.Open.statement gather select' divide' alter' repeated' bind) := by
  refine after fun token => ?_
  split
  · exact refl _
  · exact refl _
  · exact refl _
  · exact refl _
  · exact after fun _ => hselect _ _
  · exact after fun _ => ite (after fun _ => after fun _ => hselect _ _) (refl _)
  · exact hdivide
  · exact halter
  · exact hrepeated
  · exact refl _

end

end Below

end RecordStats.Parser
