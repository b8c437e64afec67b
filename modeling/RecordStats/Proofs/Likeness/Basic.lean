import Mathlib.Data.List.Forall2
import RecordStats.Evaluation.Expression
import RecordStats.Evaluation.Call

/-! Two evaluations side by side. The programs may be written at different places, and a function may have taken
    different values with it under names that its text does not use. What is alike in this sense is told here for
    expressions, values, scopes and ends of evaluations; that evaluation keeps it is shown next. -/

namespace RecordStats

/-- What two evaluations that are alike may differ in. -/
structure Likeness where
  /-- The places that may stand for one another. -/
  span : Span → Span → Prop
  /-- Whether there may be functions of the host. -/
  hosts : Prop
  /-- Whether anything may stand for an internal error. -/
  lenient : Prop
  /-- The names under which every function has to have taken alike values with it. -/
  named : String → Prop
  /-- Whether the two are one and the same evaluation. -/
  same : Prop
  eq_of_span : same → ∀ {s t : Span}, span s t → s = t
  apart : lenient → ¬same

/-- Whether a statement has a place in a function's body. -/
def Statement.inBody : Statement → Bool
  | .define _ _ _ | .function _ _ _ _ | .result _ _ => true
  | _ => false

/-- The bindings of every frame are in the order of their names. -/
def Scope.Ordered (s : Scope) : Prop := ∀ f ∈ s.own :: s.outer, f.bindings.Sorted

/-- The same keys in the same order, with things that are related. -/
def PairsLike {α β : Type} (R : α → β → Prop) (ps : List (String × α)) (qs : List (String × β)) : Prop :=
  List.Forall₂ (fun p q => p.1 = q.1 ∧ R p.2 q.2) ps qs

/-- The evaluation has ended with an internal error. -/
def Outcome.Faulty {α : Type} (o : Outcome α) : Prop :=
  ∃ cause s, o = .error (.failure ⟨cause, s⟩) ∧ cause.kind = .internal

namespace Likeness

variable (L : Likeness)

/-- The same likeness, but that every error counts. -/
def strict : Likeness := { L with lenient := False, apart := False.elim }

/-! ### Programs -/

/-- The names are the same, at places that may stand for one another. -/
structure NameLike (a b : Name) : Prop where
  text : a.text = b.text
  place : L.span a.span b.span

mutual

/-- The expressions differ in places only, and look up no names but the visible ones. -/
inductive ExprLike (V : String → Prop) : Expr → Expr → Prop where
  | literal (l : Literal) {s t : Span} (place : L.span s t) : ExprLike V (.literal l s) (.literal l t)
  | name {text : String} {s t : Span} (visible : V text) (place : L.span s t) : ExprLike V (.name text s) (.name text t)
  | operator (op : Operator) {es fs : List Expr} {s t : Span} (operands : ExprsLike V es fs) (place : L.span s t) :
      ExprLike V (.operator op es s) (.operator op fs t)
  | call {e f : Expr} {es fs : List Expr} {s t : Span} (callee : ExprLike V e f) (arguments : ExprsLike V es fs)
      (place : L.span s t) : ExprLike V (.call e es s) (.call f fs t)
  | lambda {ps qs : List Name} {body body' : List Statement} {s t : Span}
      (parameters : List.Forall₂ L.NameLike ps qs) (inner : BodyLike V body body') (place : L.span s t) :
      ExprLike V (.lambda ps body s) (.lambda qs body' t)

/-- The expressions are alike one by one. -/
inductive ExprsLike (V : String → Prop) : List Expr → List Expr → Prop where
  | nil : ExprsLike V [] []
  | cons {e f : Expr} {es fs : List Expr} (first : ExprLike V e f) (rest : ExprsLike V es fs) :
      ExprsLike V (e :: es) (f :: fs)

/-- The statements of two functions' bodies are alike one by one. A statement that has no place there is only like
    itself. -/
inductive BodyLike (V : String → Prop) : List Statement → List Statement → Prop where
  | nil : BodyLike V [] []
  | define {a b : Name} {e f : Expr} {s t : Span} {more more' : List Statement} (target : L.NameLike a b)
      (value : ExprLike V e f) (place : L.span s t) (rest : BodyLike V more more') :
      BodyLike V (.define a e s :: more) (.define b f t :: more')
  | function {a b : Name} {ps qs : List Name} {body body' : List Statement} {s t : Span} {more more' : List Statement}
      (target : L.NameLike a b) (parameters : List.Forall₂ L.NameLike ps qs) (inner : BodyLike V body body')
      (place : L.span s t) (rest : BodyLike V more more') :
      BodyLike V (.function a ps body s :: more) (.function b qs body' t :: more')
  | result {e f : Expr} {s t : Span} {more more' : List Statement} (value : ExprLike V e f) (place : L.span s t)
      (rest : BodyLike V more more') : BodyLike V (.result e s :: more) (.result f t :: more')
  | other {a : Statement} {more more' : List Statement} (first : a.inBody = false) (place : L.span a.span a.span)
      (rest : BodyLike V more more') : BodyLike V (a :: more) (a :: more')

end

variable {L} {V : String → Prop}

theorem NameLike.texts_eq {ps qs : List Name} (h : List.Forall₂ L.NameLike ps qs) :
    ps.map Name.text = qs.map Name.text := by
  induction h with
  | nil => rfl
  | cons first _ ih => rw [List.map_cons, List.map_cons, first.text, ih]

theorem ExprLike.span {e f : Expr} (h : L.ExprLike V e f) : L.span e.span f.span := by
  cases h <;> assumption

theorem ExprLike.name?_eq {e f : Expr} (h : L.ExprLike V e f) : e.name? = f.name? := by
  cases h <;> rfl

theorem ExprLike.literal?_eq {e f : Expr} (h : L.ExprLike V e f) : e.literal? = f.literal? := by
  cases h <;> rfl

variable (L)

/-! ### Values -/

/-- The values are made up alike. Two functions of programs are alike when they were made at the same place from
    texts that are alike, and mean alike values by the names that the texts use. -/
inductive ValueLike : Value → Value → Prop where
  | null : ValueLike .null .null
  | boolean (b : Bool) : ValueLike (.boolean b) (.boolean b)
  | integer (n : Int64) : ValueLike (.integer n) (.integer n)
  | float (x : Float) : ValueLike (.float x) (.float x)
  | string (s : String) : ValueLike (.string s) (.string s)
  | list {vs ws : List Value} (items : List.Forall₂ ValueLike vs ws) : ValueLike (.list vs) (.list ws)
  | tuple {vs ws : List Value} (items : List.Forall₂ ValueLike vs ws) : ValueLike (.tuple vs) (.tuple ws)
  | record {fs gs : List (String × Value)} (names : fs.map Prod.fst = gs.map Prod.fst)
      (items : List.Forall₂ ValueLike (fs.map Prod.snd) (gs.map Prod.snd)) : ValueLike (.record fs) (.record gs)
  | closure (origin : Origin) (name : Option String) {l m : Lambda} {env env' : Env Value} (V : String → Prop)
      (named : ∀ x, L.named x → V x) (parameters : List.Forall₂ L.NameLike l.parameters m.parameters)
      (body : L.BodyLike V l.body m.body) (seen : ∀ x, V x → Option.Rel ValueLike (env.get? x) (env'.get? x))
      (same : L.same → env = env') :
      ValueLike (.function (.closure origin name l env)) (.function (.closure origin name m env'))
  | builtin (b : Builtin) : ValueLike (.function (.builtin b)) (.function (.builtin b))
  | host (number : Nat) (allowed : L.hosts) : ValueLike (.function (.host number)) (.function (.host number))
  | method (origin : Origin) {v w : Value} (m : Method) (receiver : ValueLike v w) :
      ValueLike (.function (.method origin v m)) (.function (.method origin w m))

/-- The values are alike one by one. -/
abbrev ValuesLike : List Value → List Value → Prop := List.Forall₂ L.ValueLike

/-- The same names are bound in the same order, to values that are alike. -/
abbrev FieldsLike : List (String × Value) → List (String × Value) → Prop := PairsLike L.ValueLike

/-! ### Scopes -/

/-- Visible names mean alike values, and functions are made at the same places. In both scopes the bindings of a
    frame are in order, so that each has one value for a name. -/
structure SightLike (V : String → Prop) (s t : Scope) : Prop where
  named : ∀ x, L.named x → V x
  same : L.same → s = t
  seen : ∀ x, V x → Option.Rel L.ValueLike (s.get? x) (t.get? x)
  base : s.base = t.base
  made : s.made = t.made
  ordered : s.Ordered ∧ t.Ordered

/-- The innermost frames, too, bind visible names to alike values, and the program's functions are the same ones. -/
structure ScopeLike (V : String → Prop) (s t : Scope) : Prop extends SightLike L V s t where
  own : ∀ x, V x → Option.Rel L.ValueLike (s.own.bindings.get? x) (t.own.bindings.get? x)
  functions : s.own.functions = t.own.functions

/-! ### Ends of evaluations -/

/-- Results that are related, or one and the same cause. -/
inductive ResultLike {α β : Type} (R : α → β → Prop) : Except Cause α → Except Cause β → Prop where
  | ok {a : α} {b : β} (h : R a b) : ResultLike R (.ok a) (.ok b)
  | error (cause : Cause) : ResultLike R (.error cause) (.error cause)

/-- Results that are related, or one and the same cause at places that may stand for one another. Where failures
    have to be `placed`, none but an internal error is without a place. -/
inductive EndsLike {α β : Type} (placed : Prop) (R : α → β → Prop) : Outcome α → Outcome β → Prop where
  | ok {a : α} {b : β} (h : R a b) : EndsLike placed R (.ok a) (.ok b)
  | failure {cause : Cause} {s t : Option Span} (place : Option.Rel L.span s t)
      (known : placed → s.isSome ∨ cause.kind = .internal) :
      EndsLike placed R (.error (.failure ⟨cause, s⟩)) (.error (.failure ⟨cause, t⟩))
  | tooDeep : EndsLike placed R (.error .tooDeep) (.error .tooDeep)
  | fault {x : Outcome α} {y : Outcome β} (allowed : L.lenient) (faulty : x.Faulty ∨ y.Faulty) : EndsLike placed R x y

/-- Calls of alike functions on alike arguments end alike. Where a call fails need not be known within it. -/
def CallerLike (call call' : Caller) : Prop :=
  ∀ (origin : Origin) {f g : Value} {vs ws : List Value}, L.ValueLike f g → L.ValuesLike vs ws →
    L.EndsLike False L.ValueLike (call origin f vs) (call' origin g ws)

/-- The answers of two host functions go on alike, as long as their calls do. -/
inductive ReplyLike : Reply → Reply → Prop where
  | finish {v w : Value} (result : L.ValueLike v w) : ReplyLike (.finish v) (.finish w)
  | raise (message : String) : ReplyLike (.raise message) (.raise message)
  | call {f g : Value} {vs ws : List Value} {resume resume' : Value → Reply} (callee : L.ValueLike f g)
      (arguments : L.ValuesLike vs ws) (next : ∀ v w, L.ValueLike v w → ReplyLike (resume v) (resume' w)) :
      ReplyLike (.call f vs resume) (.call g ws resume')

/-- Host functions, as far as there may be any, answer alike arguments alike. -/
def HostLike (host host' : Host) : Prop :=
  L.hosts → ∀ (number : Nat) {vs ws : List Value}, L.ValuesLike vs ws → L.ReplyLike (host number vs) (host' number ws)

end Likeness

end RecordStats
