import RecordStats.Proofs.Evaluation.Call

/-! Operators and the number of their operands. An operator of a text stands with all of its operands, and so does one
    in the body of a function that a text has made. Whatever operators did on any other number of values, evaluation
    would come to the same: it never applies one to fewer values than it takes, or to more. -/

namespace RecordStats

/-- What operators do on some values. -/
abbrev Operations := Operator → Origin → List Value → Span → Outcome Value

/-- On as many values as an operator has operands it does what it does in the language. Of other values nothing is
    said. -/
def Operations.Standard (ops : Operations) : Prop :=
  ∀ op origin vs s, vs.length = op.arity → ops op origin vs s = op.apply origin vs s

/-- The operations of the language that refuse any other number of values than an operator takes. -/
def Operations.guarded : Operations := fun op origin vs s =>
  if vs.length = op.arity then op.apply origin vs s else Outcome.failAt (.operandCount op) s

theorem Operations.guarded_standard : guarded.Standard := fun _ _ _ _ hlen => if_pos hlen

/-! ### Evaluation with given operations -/

namespace Expr

mutual

/-- The value of an expression, if operators do what the operations say. -/
def evaluateWith (ops : Operations) (call : Caller) (scope : Scope) (origin : Origin) : Expr → Outcome Value
  | literal value _ => .ok (.ofLiteral value)
  | name text s => match scope.get? text with
    | some v => .ok v
    | none => Outcome.failAt (.unbound text) s
  | lambda parameters body _ =>
    .ok (.function (.closure origin none ⟨parameters, body⟩ scope.freeze))
  | operator op operands s =>
    match op, operands with
    | .member, [receiver, member] => match member.name? with
      | some text => do
        let v ← evaluateWith ops call scope (0 :: origin) receiver
        ops .member origin [v, .string text] s
      | none => Outcome.failAt .memberName member.span
    | .member, _ => Outcome.failAt .memberOperands s
    | op, operands => do
      let vs ← evaluateAllWith ops call scope origin 0 operands
      ops op origin vs s
  | Expr.call callee arguments s => do
    let vs ← evaluateAllWith ops call scope origin 2 arguments
    let f ← evaluateWith ops call scope (0 :: origin) callee
    (call (1 :: origin) f vs).orAt s

def evaluateAllWith (ops : Operations) (call : Caller) (scope : Scope) (origin : Origin) :
    Nat → List Expr → Outcome (List Value)
  | _, [] => .ok []
  | i, e :: rest => do
    let v ← evaluateWith ops call scope (i :: origin) e
    let vs ← evaluateAllWith ops call scope origin (i + 1) rest
    return v :: vs

end

end Expr

def Scope.bindWith (ops : Operations) (call : Caller) (scope : Scope) : Statement → Outcome Scope
  | .define target e _ => do return scope.define target.text (← e.evaluateWith ops call scope scope.place)
  | s => scope.bind call s

namespace Lambda

def resultWith (ops : Operations) (call : Caller) : Scope → List Statement → Outcome Value
  | _, [] => Outcome.fail .emptyBody
  | scope, [last] => match last with
    | .result e _ => e.evaluateWith ops call scope scope.place
    | last => Outcome.failAt .bodyResult last.span
  | scope, s :: rest => do
    let scope ← scope.bindWith ops call s
    resultWith ops call scope rest

def applyWith (ops : Operations) (call : Caller) (origin : Origin) (f : Lambda) (env : Env Value)
    (arguments : List Value) : Outcome Value :=
  if f.parameters.length = arguments.length then
    resultWith ops call ((Scope.above env origin).defineAll ((f.parameters.map Name.text).zip arguments)) f.body
  else Outcome.fail (.parameterCount f.parameters.length arguments.length)

end Lambda

/-- Calls that nest at most so deep, with the given operations in all of them. -/
def Host.callerWith (ops : Operations) (host : Host) : Nat → Caller
  | 0, _, _, _ => .error .tooDeep
  | depth + 1, origin, f, arguments =>
    match f with
    | .function (.closure _ _ lambda env) => lambda.applyWith ops (host.callerWith ops depth) origin env arguments
    | .function (.builtin b) => .ofCause (b.apply arguments)
    | .function (.host number) => (host number arguments).run (host.callerWith ops depth) origin 0
    | .function (.method _ receiver m) => m.apply (host.callerWith ops depth) origin receiver arguments
    | other => Outcome.fail (.notCallable other.kind)

/-! ### Calls that come to the same -/

/-- On sound values the calls come to the same. -/
def Caller.Same (call' call : Caller) : Prop :=
  ∀ (origin : Origin) {f : Value} {arguments : List Value}, f.Sound → (∀ a ∈ arguments, a.Sound) →
    call' origin f arguments = call origin f arguments

/-- What comes after a result that has a property depends only on results that have it. -/
theorem Faultless.bind_congr {ε α β : Type} [Blame ε] {P : α → Prop} {x : Except ε α} (h : Faultless P x)
    {f g : α → Except ε β} (hfg : ∀ a, P a → f a = g a) : x >>= f = x >>= g := by
  cases h with
  | ok ha => exact hfg _ ha
  | error _ => rfl

section Methods

open ListMethod

variable {call' call : Caller} {origin : Origin} {f : Value} {items : List Value}

theorem mapFrom_same (same : Caller.Same call' call) (hf : f.Sound) (i : Nat) (h : AllSound items) :
    mapFrom call' origin f i items = mapFrom call origin f i items := by
  induction items generalizing i with
  | nil => rfl
  | cons item rest ih =>
    obtain ⟨hitem, hrest⟩ := List.forall_mem_cons.mp h
    rw [mapFrom, mapFrom, same _ hf (allSound_singleton hitem), ih (i + 1) hrest]

theorem filterFrom_same (same : Caller.Same call' call) (hf : f.Sound) (i : Nat) (h : AllSound items) :
    filterFrom call' origin f i items = filterFrom call origin f i items := by
  induction items generalizing i with
  | nil => rfl
  | cons item rest ih =>
    obtain ⟨hitem, hrest⟩ := List.forall_mem_cons.mp h
    rw [filterFrom, filterFrom, same _ hf (allSound_singleton hitem), ih (i + 1) hrest]

theorem bestKey_same (same : Caller.Same call' call) (hf : f.Sound) (largest : Bool) (i : Nat)
    (best : Option (Float × Value)) (h : AllSound items) :
    bestKey call' origin f largest i best items = bestKey call origin f largest i best items := by
  induction items generalizing i best with
  | nil => rfl
  | cons item rest ih =>
    obtain ⟨hitem, hrest⟩ := List.forall_mem_cons.mp h
    rw [bestKey, bestKey, same _ hf (allSound_singleton hitem)]
    refine congrArg _ (funext fun v => ?_)
    cases v.number? with
    | none => rfl
    | some x => exact ih (i + 1) _ hrest

theorem ListMethod.run_same (same : Caller.Same call' call) (h : AllSound items) (hf : f.Sound) (m : ListMethod) :
    m.run call' origin items f = m.run call origin items f := by
  cases m with
  | map => rw [run, run, mapFrom_same same hf 0 h]
  | filter => rw [run, run, filterFrom_same same hf 0 h]
  | minby | maxby => rw [run, run, extremeBy, extremeBy, bestKey_same same hf _ 0 none h]
  | flatten | cross | pairs | distincts | min | max => rfl

theorem Method.apply_same (same : Caller.Same call' call) {receiver : Value} (hr : receiver.Sound)
    {arguments : List Value} (ha : AllSound arguments) (m : Method) :
    m.apply call' origin receiver arguments = m.apply call origin receiver arguments := by
  cases m with
  | list m =>
    have argument : (arguments.headD .null).Sound := by
      cases arguments with
      | nil => exact .null
      | cons a rest => exact ha a List.mem_cons_self
    rw [Method.apply, Method.apply, ListMethod.apply, ListMethod.apply, run_same same hr.items_getD argument]
  | vector m => rfl

/-- The calls of a host function, which go on from their results. -/
theorem Reply.Sound.run_same (same : Caller.Same call' call) (hcall : Caller.Sound call) {reply : Reply}
    (h : reply.Sound) (i : Nat) : reply.run call' origin i = reply.run call origin i := by
  induction h generalizing i with
  | finish _ | raise _ => rfl
  | @call f arguments resume hf ha _ ih =>
    rw [Reply.run, Reply.run, same _ hf ha]
    rcases (hcall (i :: origin) hf ha).ok_or_error with ⟨v, hresult, hv⟩ | ⟨stop, hresult, -⟩
    · rw [hresult]
      exact ih v hv (i + 1)
    · rw [hresult]

end Methods

/-! ### Evaluation comes to the same -/

variable {ops : Operations} {call' call : Caller} {scope : Scope} {most : Nat}

namespace Expr

mutual

/-- An expression of a text. Each of its operators meets as many values as it has operands. -/
theorem evaluateWith_eq (hops : ops.Standard) (same : Caller.Same call' call) (hcall : Caller.Sound call)
    (hscope : scope.Sound) : ∀ {e : Expr} (origin : Origin), e.WellFormed most →
      e.evaluateWith ops call' scope origin = e.evaluate call scope origin
  | literal value s, origin, _ => by rw [evaluateWith, evaluate]
  | name text s, origin, _ => rfl
  | lambda parameters body s, origin, _ => by rw [evaluateWith, evaluate]
  | operator op operands s, origin, ⟨hlen, hmember, hoperands⟩ => by
    by_cases hop : op = .member
    · subst hop
      obtain ⟨receiver, text, t, rfl⟩ := hmember rfl
      simp only [evaluateWith, evaluate, name?]
      rw [evaluateWith_eq hops same hcall hscope _ hoperands.1]
      exact congrArg _ (funext fun v => hops _ _ _ _ rfl)
    · have other : ∀ receiver member, op = .member → operands = [receiver, member] → False := fun _ _ h => (hop h).elim
      rw [evaluateWith, evaluate, evaluateAllWith_eq hops same hcall hscope origin 0 hoperands]
      · refine (evaluateAll_faultless hcall hscope origin 0 hoperands).bind_congr fun vs hvs => ?_
        exact hops op origin vs s (hvs.1.trans hlen)
      · exact hop
      · exact other
      · exact hop
      · exact other
  | Expr.call callee arguments s, origin, ⟨hcallee, _, harguments⟩ => by
    rw [evaluateWith, evaluate, evaluateAllWith_eq hops same hcall hscope origin 2 harguments,
      evaluateWith_eq hops same hcall hscope _ hcallee]
    refine (evaluateAll_faultless hcall hscope origin 2 harguments).bind_congr fun vs hvs => ?_
    refine (evaluate_faultless hcall hscope _ hcallee).bind_congr fun f hf => ?_
    rw [same _ hf hvs.2]

theorem evaluateAllWith_eq (hops : ops.Standard) (same : Caller.Same call' call) (hcall : Caller.Sound call)
    (hscope : scope.Sound) (origin : Origin) : ∀ {es : List Expr} (i : Nat), WellFormedAll most es →
      evaluateAllWith ops call' scope origin i es = evaluateAll call scope origin i es
  | [], i, _ => by rw [evaluateAllWith, evaluateAll]
  | e :: rest, i, ⟨he, hrest⟩ => by
    rw [evaluateAllWith, evaluateAll, evaluateWith_eq hops same hcall hscope _ he,
      evaluateAllWith_eq hops same hcall hscope origin (i + 1) hrest]

end

end Expr

/-- The body of a function of a text. -/
theorem Lambda.resultWith_eq (hops : ops.Standard) (same : Caller.Same call' call) (hcall : Caller.Sound call) :
    ∀ {body : List Statement} {scope : Scope}, Expr.WellFormedBody most body → scope.Sound →
      resultWith ops call' scope body = result call scope body
  | .result e s :: rest, scope, ⟨he, hlast⟩, hscope => by
    subst hlast
    rw [resultWith, result]
    exact Expr.evaluateWith_eq hops same hcall hscope _ he
  | .define target e s :: next :: rest, scope, ⟨he, hrest⟩, hscope => by
    have bound : scope.bindWith ops call' (.define target e s) = scope.bind call (.define target e s) := by
      rw [Scope.bindWith, Scope.bind, Expr.evaluateWith_eq hops same hcall hscope _ he]
      rfl
    rw [resultWith, result, bound]
    · refine (Scope.bind_define_faultless hcall hscope target he s).bind_congr fun inner hinner => ?_
      exact resultWith_eq hops same hcall hrest hinner
    · exact List.cons_ne_nil next rest
    · exact List.cons_ne_nil next rest
  | .function target parameters body s :: next :: rest, scope, ⟨_, hbody, hrest⟩, hscope => by
    have bound : scope.bindWith ops call' (.function target parameters body s) =
        scope.bind call (.function target parameters body s) := rfl
    rw [resultWith, result, bound]
    · refine (Scope.bind_function_faultless call hscope target parameters hbody s).bind_congr fun inner hinner => ?_
      exact resultWith_eq hops same hcall hrest hinner
    · exact List.cons_ne_nil next rest
    · exact List.cons_ne_nil next rest
  | [.define _ _ _], _, ⟨_, hrest⟩, _ => hrest.elim
  | [.function _ _ _ _], _, ⟨_, _, hrest⟩, _ => hrest.elim

theorem Lambda.applyWith_eq (hops : ops.Standard) (same : Caller.Same call' call) (hcall : Caller.Sound call)
    (origin : Origin) {f : Lambda} {env : Env Value} (hbody : Expr.WellFormedBody most f.body)
    (hb : Value.SoundFields env.bindings) (hs : Value.SoundFields env.standing) {arguments : List Value}
    (ha : ∀ a ∈ arguments, a.Sound) :
    f.applyWith ops call' origin env arguments = f.apply call origin env arguments := by
  unfold applyWith apply
  split
  · refine resultWith_eq hops same hcall hbody ((Scope.Sound.above hb hs origin).defineAll fun b hb => ?_)
    exact ha b.2 (List.of_mem_zip hb).2
  · rfl

/-- Calls come to the same, however deep they may nest. -/
theorem Host.callerWith_same (hops : ops.Standard) {host : Host} (hhost : host.Sound) (depth : Nat) :
    Caller.Same (host.callerWith ops depth) (host.caller depth) := by
  induction depth with
  | zero => exact fun _ _ _ _ _ => rfl
  | succ depth ih =>
    have hcall := Host.Sound.caller hhost depth
    intro origin f arguments hf ha
    cases hf with
    | closure hbody hb hs => exact Lambda.applyWith_eq hops ih hcall origin hbody hb hs ha
    | host number => exact (hhost number arguments ha).run_same ih hcall 0
    | method hr => exact Method.apply_same ih hr ha _
    | _ => rfl

/-- Evaluation applies operators to as many values as they have operands only. -/
theorem Expr.evaluateWith_standard (hops : ops.Standard) {host : Host} (hhost : host.Sound) (depth : Nat)
    (hscope : scope.Sound) {e : Expr} (he : e.WellFormed most) (origin : Origin) :
    e.evaluateWith ops (host.callerWith ops depth) scope origin = e.evaluate (host.caller depth) scope origin :=
  Expr.evaluateWith_eq hops (Host.callerWith_same hops hhost depth) (Host.Sound.caller hhost depth) hscope origin he

end RecordStats
