import RecordStats.Evaluation.Call
import RecordStats.Proofs.Record.Binned
import RecordStats.Proofs.Value.Snapshot

/-! Functions that are called where they stand. Such a call evaluates the function's body in a frame over what the
    function takes with it. A frame over the scope itself would do as well: names mean the same in both, and functions
    made in them take the same with them. -/

namespace RecordStats

/-! ### Failures with a place -/

namespace Outcome

variable {α β : Type}

/-- A failure, if it is one, has a place. -/
def Located (o : Outcome α) : Prop :=
  ∀ f, o = .error (.failure f) → ∃ s, f.span = some s

theorem Located.ok (a : α) : Located (.ok a) := nofun

theorem located_failAt (cause : Cause) (s : Span) : Located (failAt cause s : Outcome α) := by
  rintro f ⟨⟩
  exact ⟨s, rfl⟩

theorem located_orAt (o : Outcome α) (s : Span) : Located (o.orAt s) := by
  intro f h
  cases o with
  | ok a => cases h
  | error stop =>
    cases stop with
    | failure g =>
      cases h
      exact ⟨_, rfl⟩
    | tooDeep => cases h

theorem Located.bind {o : Outcome α} {next : α → Outcome β} (h : Located o) (hn : ∀ a, Located (next a)) :
    Located (o >>= next) := by
  cases o with
  | ok a => exact hn a
  | error stop =>
    rintro f ⟨⟩
    exact h f rfl

/-- What has a place keeps it. -/
theorem Located.orAt_eq {o : Outcome α} (h : Located o) (s : Span) : o.orAt s = o := by
  cases o with
  | ok a => rfl
  | error stop =>
    cases stop with
    | failure f =>
      obtain ⟨own, hown⟩ := h f rfl
      obtain ⟨cause, span⟩ := f
      obtain rfl : span = some own := hown
      rfl
    | tooDeep => rfl

end Outcome

open Outcome (Located)

variable {call : Caller}

namespace Expr

mutual

/-- A failure of an expression is always blamed on a part of it. -/
theorem evaluate_located (scope : Scope) : ∀ (e : Expr) (origin : Origin), Located (e.evaluate call scope origin)
  | literal _ _, origin => by
    rw [evaluate]
    exact .ok _
  | name text s, origin => by
    rw [evaluate]
    split
    · exact .ok _
    · exact Outcome.located_failAt _ s
  | lambda _ _ _, origin => by
    rw [evaluate]
    exact .ok _
  | operator op operands s, origin => by
    -- A selection evaluates its receiver only.
    by_cases selects : ∃ receiver member, op = .member ∧ operands = [receiver, member]
    · obtain ⟨receiver, member, rfl, rfl⟩ := selects
      rw [evaluate]
      split
      · exact (evaluate_located scope receiver _).bind fun v => Outcome.located_orAt _ s
      · exact Outcome.located_failAt _ _
    · rw [evaluate_operator _ _ _ selects]
      split
      · exact Outcome.located_failAt _ s
      · exact (evaluateAll_located scope operands _ _).bind fun vs => Outcome.located_orAt _ s
  | Expr.call callee arguments s, origin => by
    rw [evaluate]
    refine (evaluateAll_located scope arguments _ _).bind fun vs => ?_
    exact (evaluate_located scope callee _).bind fun f => Outcome.located_orAt _ s

theorem evaluateAll_located (scope : Scope) : ∀ (es : List Expr) (origin : Origin) (i : Nat),
    Located (evaluateAll call scope origin i es)
  | [], origin, i => by
    rw [evaluateAll]
    exact .ok _
  | e :: rest, origin, i => by
    rw [evaluateAll]
    refine (evaluate_located scope e _).bind fun v => ?_
    exact (evaluateAll_located scope rest _ _).bind fun vs => .ok _

end

end Expr

/-! ### Bodies -/

/-- The scope after some definitions in order. -/
def Scope.bindAll (call : Caller) (scope : Scope) (definitions : List Statement) : Outcome Scope :=
  definitions.foldlM (fun scope s => scope.bind call s) scope

theorem Scope.bind_located (scope : Scope) (s : Statement) : Located (scope.bind call s) := by
  cases s with
  | define target e s => exact (Expr.evaluate_located scope e _).bind fun v => .ok _
  | function target parameters body s => exact .ok _
  | _ => exact Outcome.located_failAt _ _

theorem Scope.bindAll_located (scope : Scope) (definitions : List Statement) :
    Located (scope.bindAll call definitions) := by
  induction definitions generalizing scope with
  | nil => exact .ok scope
  | cons d rest ih =>
    rw [bindAll, List.foldlM_cons]
    exact (scope.bind_located d).bind ih

theorem Lambda.result_cons (scope : Scope) (d : Statement) {rest : List Statement} (h : rest ≠ []) :
    Lambda.result call scope (d :: rest) = scope.bind call d >>= fun scope => Lambda.result call scope rest := by
  cases rest with
  | nil => exact absurd rfl h
  | cons s others =>
    rw [Lambda.result]
    exact List.cons_ne_nil s others

/-- A body is its definitions and then the expression that it ends with. -/
theorem Lambda.result_eq (scope : Scope) (definitions : List Statement) (e : Expr) (s : Span) :
    Lambda.result call scope (definitions ++ [.result e s]) =
      scope.bindAll call definitions >>= fun scope => scope.evaluate call e := by
  induction definitions generalizing scope with
  | nil => rfl
  | cons d rest ih =>
    rw [Scope.bindAll, List.foldlM_cons, List.cons_append, result_cons scope d (by simp)]
    cases scope.bind call d with
    | error stop => rfl
    | ok next => exact ih next

theorem Lambda.result_located (scope : Scope) (definitions : List Statement) (e : Expr) (s : Span) :
    Located (Lambda.result call scope (definitions ++ [.result e s])) := by
  rw [result_eq]
  exact (scope.bindAll_located definitions).bind fun inner => Expr.evaluate_located inner e _

/-! ### Frames over a scope and over its snapshot -/

namespace Scope

/-- A fresh frame over a scope. What is bound in it is made at places of its own. -/
def childAt (s : Scope) (place : Origin) : Scope :=
  { s.child with base := place, made := 0 }

/-- The frames of a scope over those of another, instead of over what they stand on. -/
def onto (t s : Scope) : Scope :=
  { t with outer := t.outer ++ s.own :: s.outer, below := s.below }

variable {s t : Scope}

theorem childAt_eq_onto (s : Scope) (place : Origin) : s.childAt place = (above s.freeze place).onto s := rfl

theorem onto_defineAll (t s : Scope) (row : List (String × Value)) :
    (t.defineAll row).onto s = (t.onto s).defineAll row := by
  induction row generalizing t with
  | nil => rfl
  | cons p rest ih => exact ih (t.define p.1 p.2)

theorem framesGet?_append (fs gs : List Frame) (name : String) :
    framesGet? (fs ++ gs) name = (framesGet? fs name).or (framesGet? gs name) := by
  induction fs with
  | nil => rfl
  | cons f rest ih =>
    rw [List.cons_append, framesGet?, framesGet?, ih]
    cases f.bindings.get? name <;> rfl

theorem get?_eq_or (s : Scope) (name : String) :
    s.get? name = (framesGet? (s.own :: s.outer) name).or (s.below.get? name) := by
  rw [get?]
  cases framesGet? (s.own :: s.outer) name <;> rfl

/-- Over a scope and over its snapshot names mean the same. -/
theorem get?_onto (ordered : s.Ordered) (based : t.below = s.freeze) (name : String) :
    (t.onto s).get? name = t.get? name := by
  rw [get?_eq_or, get?_eq_or t, based, get?_freeze ordered, get?_eq_or s, onto, ← List.cons_append, framesGet?_append,
    Option.or_assoc]

/-- Over a scope and over its snapshot a function takes the same with it. -/
theorem freeze_onto (based : t.below = s.freeze) : (t.onto s).freeze = t.freeze := by
  rw [freeze_eq_flattened, freeze_eq_flattened, flattened, flattened, based, freeze_eq_flattened, flattened, onto]
  simp only [flatten, List.foldr_append, List.foldr_cons]

theorem evaluate_onto (ordered : s.Ordered) (based : t.below = s.freeze) (e : Expr) :
    (t.onto s).evaluate call e = t.evaluate call e :=
  Expr.evaluate_congr (get?_onto ordered based) (freeze_onto based) e t.place

theorem bind_onto (ordered : s.Ordered) (based : t.below = s.freeze) (d : Statement) :
    (t.onto s).bind call d = (t.bind call d).map (·.onto s) := by
  cases d with
  | define target e place =>
    rw [bind, bind, evaluate_onto ordered based]
    cases t.evaluate call e <;> rfl
  | function target parameters body place =>
    rw [bind, bind, freeze_onto based]
    rfl
  | _ => rfl

theorem below_bind {u : Scope} {d : Statement} (h : t.bind call d = .ok u) : u.below = t.below := by
  cases d with
  | define target e place =>
    obtain ⟨v, -, h⟩ := Outcome.bind_eq_ok.mp h
    cases h
    rfl
  | function target parameters body place =>
    cases h
    rfl
  | _ => cases h

theorem bindAll_onto (ordered : s.Ordered) (based : t.below = s.freeze) (definitions : List Statement) :
    (t.onto s).bindAll call definitions = (t.bindAll call definitions).map (·.onto s) := by
  induction definitions generalizing t with
  | nil => rfl
  | cons d rest ih =>
    rw [bindAll, bindAll, List.foldlM_cons, List.foldlM_cons, bind_onto ordered based]
    cases h : t.bind call d with
    | error stop => rfl
    | ok u => exact ih ((below_bind h).trans based)

theorem below_bindAll {u : Scope} {definitions : List Statement} (h : t.bindAll call definitions = .ok u) :
    u.below = t.below := by
  induction definitions generalizing t with
  | nil =>
    cases h
    rfl
  | cons d rest ih =>
    rw [bindAll, List.foldlM_cons] at h
    obtain ⟨next, hnext, h⟩ := Outcome.bind_eq_ok.mp h
    exact (ih h).trans (below_bind hnext)

theorem below_defineAll (t : Scope) (row : List (String × Value)) : (t.defineAll row).below = t.below := by
  induction row generalizing t with
  | nil => rfl
  | cons p rest ih => exact ih (t.define p.1 p.2)

end Scope

/-! ### Immediate calls -/

theorem Expr.length_evaluateAll {scope : Scope} {origin : Origin} : ∀ {es : List Expr} {i : Nat} {vs : List Value},
    evaluateAll call scope origin i es = .ok vs → vs.length = es.length
  | [], i, vs, h => by
    rw [evaluateAll] at h
    cases h
    rfl
  | e :: rest, i, vs, h => by
    rw [evaluateAll] at h
    obtain ⟨v, -, h⟩ := Outcome.bind_eq_ok.mp h
    obtain ⟨others, hothers, h⟩ := Outcome.bind_eq_ok.mp h
    cases h
    rw [List.length_cons, List.length_cons, length_evaluateAll hothers]

/-- A call of an inline function is its body in a frame over what the function takes with it. -/
theorem Expr.evaluate_call_lambda (host : Host) (depth : Nat) (scope : Scope) (origin : Origin) {parameters : List Name}
    (definitions : List Statement) (e : Expr) (s s' place : Span) {arguments : List Expr} {vs : List Value}
    (count : parameters.length = arguments.length)
    (given : evaluateAll (host.caller (depth + 1)) scope origin 2 arguments = .ok vs) :
    (Expr.call (.lambda parameters (definitions ++ [.result e s]) s') arguments place).evaluate
        (host.caller (depth + 1)) scope origin =
      ((Scope.above scope.freeze (1 :: origin)).defineAll ((parameters.map Name.text).zip vs)).bindAll (host.caller depth)
          definitions >>= fun inner => inner.evaluate (host.caller depth) e := by
  have lengths : parameters.length = vs.length := count.trans (length_evaluateAll given).symm
  have called : host.caller (depth + 1) (1 :: origin)
      (.function (.closure (0 :: origin) none ⟨parameters, definitions ++ [.result e s]⟩ scope.freeze)) vs =
        Lambda.result (host.caller depth)
          ((Scope.above scope.freeze (1 :: origin)).defineAll ((parameters.map Name.text).zip vs))
          (definitions ++ [.result e s]) := by
    rw [Host.caller, Lambda.apply, if_pos lengths]
  have applied : (Expr.call (.lambda parameters (definitions ++ [.result e s]) s') arguments place).evaluate
      (host.caller (depth + 1)) scope origin = (host.caller (depth + 1) (1 :: origin)
        (.function (.closure (0 :: origin) none ⟨parameters, definitions ++ [.result e s]⟩ scope.freeze)) vs).orAt place := by
    rw [evaluate, given]
    simp only [evaluate]
    rfl
  rw [applied, called, (Lambda.result_located _ definitions e s).orAt_eq place, Lambda.result_eq]

/-- To call an inline function where it stands is to bind its parameters to the arguments in a fresh frame over the
    scope there, to make the definitions of its body in it, and to evaluate the body's result there: the value or the
    failure, with its message and its place, is the same. -/
theorem Expr.evaluate_immediate {scope : Scope} (hs : scope.Arises) (host : Host) (depth : Nat) (origin : Origin)
    {parameters : List Name} (definitions : List Statement) (e : Expr) (s s' place : Span) {arguments : List Expr}
    {vs : List Value} (count : parameters.length = arguments.length)
    (given : evaluateAll (host.caller (depth + 1)) scope origin 2 arguments = .ok vs) :
    (Expr.call (.lambda parameters (definitions ++ [.result e s]) s') arguments place).evaluate
        (host.caller (depth + 1)) scope origin =
      ((scope.childAt (1 :: origin)).defineAll ((parameters.map Name.text).zip vs)).bindAll (host.caller depth)
          definitions >>= fun inner => inner.evaluate (host.caller depth) e := by
  have based := Scope.below_defineAll (Scope.above scope.freeze (1 :: origin)) ((parameters.map Name.text).zip vs)
  rw [Expr.evaluate_call_lambda host depth scope origin definitions e s s' place count given, Scope.childAt_eq_onto,
    ← Scope.onto_defineAll, Scope.bindAll_onto hs.ordered based]
  generalize (Scope.above scope.freeze (1 :: origin)).defineAll ((parameters.map Name.text).zip vs) = frame at based ⊢
  cases h : frame.bindAll (host.caller depth) definitions with
  | error stop => rfl
  | ok inner => exact (Scope.evaluate_onto hs.ordered ((Scope.below_bindAll h).trans based) e).symm

/-- A body that makes a function of its own which takes the parameter and the scope around it. -/
theorem Expr.evaluate_immediate_nested :
    (Expr.call (.lambda [⟨"a", default⟩] ([.define ⟨"f", default⟩ (.lambda [⟨"b", default⟩]
          [.result (.operator .plus [.name "a" default, .name "b" default] default) default] default) default] ++
        [.result (.call (.name "f" default) [.name "k" default] default) default]) default)
      [.literal (.integer 1) default] default).evaluate (Host.none.caller 3) (Scope.root [] [("k", .integer 2)]).child [] =
      .ok (.integer 3) := by
  have given : evaluateAll (Host.none.caller 3) (Scope.root [] [("k", .integer 2)]).child [] 2
      [.literal (.integer 1) default] = .ok [.integer 1] := rfl
  refine (evaluate_immediate (.child (.root [] [("k", .integer 2)])) Host.none 2 [] _ _ _ _ _ rfl given).trans ?_
  rfl

end RecordStats
