import Mathlib.Order.Filter.AtTopBot.Basic
import RecordStats.Proofs.Evaluation.Hereditary
import RecordStats.Proofs.Likeness.Scope

/-! Evaluations that end. An evaluation is attempted with ever other calls, as with calls that may nest deeper and
    deeper. If the calls that it makes come to the same in most attempts, then so does an expression, and so does the
    body of a function: only a call can go on without end. -/

namespace RecordStats

/-! ### Series of attempts -/

/-- A series of attempts at one computation, each with calls of its own. Some of them are excused if their calls nest
    too deep; what holds of most attempts holds of these. -/
structure Series (ι : Type) where
  most : Filter ι
  excused : ι → Prop
  counted : ∀ i, excused i → pure i ≤ most

namespace Series

/-- Attempts with calls that may nest deeper and deeper. -/
def deepening : Series Nat := ⟨Filter.atTop, fun _ => False, nofun⟩

/-- Two attempts; in the first one calls may nest too deep. -/
def pair : Series Bool := ⟨⊤, fun i => i = false, fun _ _ => le_top⟩

variable {ι β γ : Type} {T : Series ι} {deep : β → Prop} {deep' : γ → Prop} {P : β → Prop} {R : γ → Prop}
  {f g : ι → β}

/-- An excused attempt has gone too deep, or most attempts come to the same, and that has the property. -/
def Settles (T : Series ι) (deep P : β → Prop) (f : ι → β) : Prop :=
  (∃ i, T.excused i ∧ deep (f i)) ∨ ∃ b, P b ∧ ∀ᶠ i in T.most, f i = b

namespace Settles

theorem const {b : β} (h : P b) : T.Settles deep P fun _ => b := .inr ⟨b, h, .of_forall fun _ => rfl⟩

/-- What makes no difference in most attempts makes none. -/
theorem congr (h : T.Settles deep P g) (heq : ∀ᶠ i in T.most, f i = g i) : T.Settles deep P f := by
  rcases h with ⟨i, hi, hdeep⟩ | ⟨b, hb, hg⟩
  · have same : f i = g i := Filter.eventually_pure.mp (heq.filter_mono (T.counted i hi))
    exact .inl ⟨i, hi, same ▸ hdeep⟩
  · exact .inr ⟨b, hb, (heq.and hg).mono fun _ h => h.1.trans h.2⟩

/-- What is done next has to settle only from what has been come to. -/
theorem chain (h : T.Settles deep P f) {k : ι → β → γ} (strict : ∀ i b, deep b → deep' (k i b))
    (hk : ∀ b, P b → T.Settles deep' R fun i => k i b) : T.Settles deep' R fun i => k i (f i) := by
  rcases h with ⟨i, hi, hdeep⟩ | ⟨b, hb, hf⟩
  · exact .inl ⟨i, hi, strict i _ hdeep⟩
  · exact (hk b hb).congr (hf.mono fun i h => congrArg (k i) h)

theorem map (h : T.Settles deep P f) {k : β → γ} (strict : ∀ b, deep b → deep' (k b)) (hk : ∀ b, P b → R (k b)) :
    T.Settles deep' R fun i => k (f i) :=
  h.chain (fun _ => strict) fun b hb => const (hk b hb)

/-- Of calls that may nest deeper and deeper the first ones make no difference. -/
theorem of_tail {f : Nat → β} (h : deepening.Settles deep P fun n => f (n + 1)) : deepening.Settles deep P f := by
  rcases h with ⟨_, excused, _⟩ | ⟨b, hb, hf⟩
  · exact excused.elim
  · obtain ⟨least, hf⟩ := Filter.eventually_atTop.mp hf
    refine .inr ⟨b, hb, Filter.eventually_atTop.mpr ⟨least + 1, fun n hn => ?_⟩⟩
    obtain ⟨m, rfl⟩ := Nat.exists_eq_add_of_le' hn
    exact hf (m + least) (Nat.le_add_left _ _)

end Settles

end Series

/-! ### Outcomes -/

namespace Outcome

variable {ι α β : Type} {T : Series ι} {P : α → Prop} {R : β → Prop}

/-- There is a result with the given property, or a failure. -/
inductive Ended (P : α → Prop) : Outcome α → Prop where
  | ok {a : α} (h : P a) : Ended P (.ok a)
  | failure (f : Failure) : Ended P (.error (.failure f))

theorem Ended.ne_tooDeep {o : Outcome α} (h : Ended P o) : o ≠ .error .tooDeep := by
  cases h <;> exact nofun

theorem Ended.map {o : Outcome α} (h : Ended P o) {next : α → β} (hn : ∀ a, P a → R (next a)) :
    Ended R (Except.map next o) := by
  cases h with
  | ok h => exact .ok (hn _ h)
  | failure f => exact .failure f

theorem Ended.orAt {o : Outcome α} (h : Ended P o) (s : Span) : Ended P (o.orAt s) := by
  cases h with
  | ok h => exact .ok h
  | failure f => exact .failure _

/-- The evaluation settles in a series of attempts. -/
abbrev Ends (T : Series ι) (P : α → Prop) (o : ι → Outcome α) : Prop := T.Settles (· = .error .tooDeep) (Ended P) o

namespace Ends

theorem ok {a : α} (h : P a) : Ends T P fun _ => .ok a := .const (.ok h)

theorem fail (cause : Cause) : Ends T P fun _ => Outcome.fail cause := .const (.failure _)

theorem failAt (cause : Cause) (s : Span) : Ends T P fun _ => Outcome.failAt cause s := .const (.failure _)

theorem ofCause {x : Except Cause α} (h : ∀ a, x = .ok a → P a) : Ends T P fun _ => Outcome.ofCause x := by
  cases x with
  | ok a => exact ok (h a rfl)
  | error cause => exact fail cause

theorem bind {o : ι → Outcome α} (h : Ends T P o) {next : ι → α → Outcome β}
    (hn : ∀ a, P a → Ends T R fun i => next i a) : Ends T R fun i => o i >>= next i := by
  refine h.chain (k := fun i o => o >>= next i) (fun i o ho => ?_) fun o ho => ?_
  · rw [ho]
    rfl
  · cases ho with
    | ok h => exact hn _ h
    | failure f => exact .const (.failure f)

theorem orAt {o : ι → Outcome α} (h : Ends T P o) (s : Span) : Ends T P fun i => (o i).orAt s := by
  refine h.map (fun o ho => ?_) fun _ ho => ho.orAt s
  rw [ho]
  rfl

end Ends

end Outcome

open Outcome (Ends)

/-! ### Scopes -/

variable {ι : Type} {T : Series ι} {Q : Value → Prop} {call : ι → Caller}

/-- All that names mean in the scope has the property. -/
structure Scope.Sees (Q : Value → Prop) (s : Scope) : Prop where
  ordered : s.Ordered
  seen : ∀ x v, s.get? x = some v → Q v

namespace Scope.Sees

variable {s : Scope}

theorem define (h : s.Sees Q) (name : String) {v : Value} (hv : Q v) : (s.define name v).Sees Q where
  ordered := h.ordered.define name v
  seen x w hw := by
    rw [get?_define] at hw
    split at hw
    · cases hw
      exact hv
    · exact h.seen x w hw

theorem defineFunction (h : s.Sees Q) (name : String) {v : Value} (hv : Q v) : (s.defineFunction name v).Sees Q where
  ordered := h.ordered.defineFunction name v
  seen x w hw := by
    rw [get?_defineFunction] at hw
    split at hw
    · cases hw
      exact hv
    · exact h.seen x w hw

theorem defineAll (h : s.Sees Q) {row : List (String × Value)} (hrow : ∀ b ∈ row, Q b.2) :
    (s.defineAll row).Sees Q := by
  induction row generalizing s with
  | nil => exact h
  | cons b rest ih =>
    obtain ⟨hb, hrest⟩ := List.forall_mem_cons.mp hrow
    exact ih (h.define b.1 hb) hrest

theorem child (h : s.Sees Q) : s.child.Sees Q := ⟨h.ordered.child, h.seen⟩

theorem above {env : Env Value} (h : ∀ x v, env.get? x = some v → Q v) (base : Origin) : (above env base).Sees Q :=
  ⟨ordered_above env base, h⟩

theorem root {standing : Dict Value} {data : List (String × Value)} (hs : ∀ b ∈ standing, Q b.2)
    (hd : ∀ d ∈ data, Q d.2) : (root standing data).Sees Q where
  ordered := ordered_root standing data
  seen x v hv := by
    rw [get?_root] at hv
    cases hlast : Bound.last? x (Bound.ofPairs data) with
    | none =>
      rw [Bound.meaning?, hlast] at hv
      exact hs _ (Dict.mem_of_get? hv)
    | some b =>
      rw [Bound.meaning?, hlast] at hv
      cases hv
      obtain ⟨d, hmem, rfl⟩ := List.mem_map.mp (Bound.mem_of_last? hlast)
      exact hd d hmem

/-- What a function takes with it. -/
theorem freeze (h : s.Sees Q) (x : String) (v : Value) (hv : s.freeze.get? x = some v) : Q v :=
  h.seen x v (get?_freeze h.ordered x ▸ hv)

end Scope.Sees

/-! ### Methods -/

namespace ListMethod

variable {origin : Origin} {f : Value} {items : List Value}

/-- The function ends on each of the items, wherever it is called. -/
abbrev EndsOn (T : Series ι) (Q : Value → Prop) (call : ι → Caller) (f : Value) (items : List Value) : Prop :=
  ∀ item ∈ items, ∀ origin, Ends T Q fun n => call n origin f [item]

theorem mapFrom_ends (hf : EndsOn T Q call f items) (i : Nat) :
    Ends T (fun vs => ∀ v ∈ vs, Q v) fun n => mapFrom (call n) origin f i items := by
  induction items generalizing i with
  | nil => exact .ok (List.forall_mem_nil _)
  | cons item rest ih =>
    obtain ⟨hitem, hrest⟩ := List.forall_mem_cons.mp hf
    refine (hitem (i :: origin)).bind fun v hv => (ih hrest (i + 1)).bind fun vs hvs => ?_
    exact .ok (List.forall_mem_cons.mpr ⟨hv, hvs⟩)

theorem filterFrom_ends (hf : EndsOn T Q call f items) (i : Nat) (h : ∀ v ∈ items, Q v) :
    Ends T (fun vs => ∀ v ∈ vs, Q v) fun n => filterFrom (call n) origin f i items := by
  induction items generalizing i with
  | nil => exact .ok (List.forall_mem_nil _)
  | cons item rest ih =>
    obtain ⟨hitem, hrest⟩ := List.forall_mem_cons.mp hf
    obtain ⟨qitem, qrest⟩ := List.forall_mem_cons.mp h
    refine (hitem (i :: origin)).bind fun v _ => ?_
    cases v with
    | boolean keep =>
      refine (ih hrest (i + 1) qrest).bind fun kept hkept => .ok ?_
      split
      · exact List.forall_mem_cons.mpr ⟨qitem, hkept⟩
      · exact hkept
    | _ => exact .fail _

theorem bestKey_ends (hf : EndsOn T Q call f items) (largest : Bool) (i : Nat) (h : ∀ v ∈ items, Q v)
    {best : Option (Float × Value)} (hbest : ∀ b ∈ best, Q b.2) :
    Ends T (fun found => ∀ b ∈ found, Q b.2) fun n => bestKey (call n) origin f largest i best items := by
  induction items generalizing i best with
  | nil => exact .ok hbest
  | cons item rest ih =>
    obtain ⟨hitem, hrest⟩ := List.forall_mem_cons.mp hf
    obtain ⟨qitem, qrest⟩ := List.forall_mem_cons.mp h
    refine (hitem (i :: origin)).bind fun v _ => ?_
    cases v.number? with
    | none => exact .fail _
    | some x =>
      refine ih hrest (i + 1) qrest ?_
      split
      · rintro b ⟨⟩
        exact qitem
      · exact hbest

theorem extremeBy_ends (hQ : Value.Hereditary Q) (hf : EndsOn T Q call f items) (largest : Bool)
    (h : ∀ v ∈ items, Q v) : Ends T Q fun n => extremeBy (call n) origin f largest items := by
  have fresh : ∀ b ∈ (none : Option (Float × Value)), Q b.2 := nofun
  refine (bestKey_ends hf largest 0 h fresh).bind fun best hbest => .ok (hQ.list.mpr fun v hv => ?_)
  obtain ⟨b, hb, rfl⟩ := Option.map_eq_some_iff.mp (Option.mem_toList.mp hv)
  exact hbest b hb

theorem run_ends (hQ : Value.Hereditary Q) (hf : EndsOn T Q call f items) (h : ∀ v ∈ items, Q v) (qf : Q f)
    (m : ListMethod) : Ends T Q fun n => m.run (call n) origin items f := by
  cases m with
  | map => exact (mapFrom_ends hf 0).bind fun vs hvs => .ok (hQ.list.mpr hvs)
  | filter => exact (filterFrom_ends hf 0 h).bind fun vs hvs => .ok (hQ.list.mpr hvs)
  | flatten =>
    refine .ofCause fun v hv => ?_
    obtain ⟨vs, hvs, hv⟩ := exists_of_bind hv
    cases hv
    exact hQ.list.mpr (keeps_flattened hQ h hvs)
  | cross =>
    simp only [run]
    cases hothers : f.items? with
    | none => exact .fail _
    | some others => exact .ok (hQ.list.mpr (keeps_product hQ h (hQ.of_mem_items qf hothers)))
  | pairs => exact .ok (hQ.list.mpr (keeps_pairings hQ true h))
  | distincts => exact .ok (hQ.list.mpr (keeps_pairings hQ false h))
  | min | max => exact .ofCause fun v hv => keeps_extreme hQ _ h hv
  | minby | maxby => exact extremeBy_ends hQ hf _ h

end ListMethod

/-- A method ends if what it is given ends on the items of the receiver. -/
theorem Method.apply_ends (hQ : Value.Hereditary Q) {receiver : Value} {arguments : List Value}
    (hf : ListMethod.EndsOn T Q call (arguments.headD .null) (receiver.items?.getD [])) (qr : Q receiver)
    (qa : ∀ a ∈ arguments, Q a) (m : Method) (origin : Origin) :
    Ends T Q fun n => m.apply (call n) origin receiver arguments := by
  cases m with
  | list m =>
    simp only [apply, ListMethod.apply]
    split
    · exact ListMethod.run_ends hQ hf (hQ.items_getD qr) (hQ.headD qa) m
    · exact .fail _
  | vector m => exact .ofCause fun v hv => hQ.scalar (m.apply_isScalar hv)

/-! ### Expressions and functions -/

/-- Calls end, and what they are given has a property that the evaluation keeps: a function has it if what it has taken
    with it has, as long as the function then ends. -/
structure Caller.Ends (T : Series ι) (Q : Value → Prop) (call : ι → Caller) : Prop extends Value.Hereditary Q where
  calls {f : Value} {arguments : List Value} (origin : Origin) (hf : Q f) (ha : ∀ a ∈ arguments, Q a) :
    Outcome.Ends T Q fun n => call n origin f arguments
  closure {lambda : Lambda} {env : Env Value} (origin : Origin) (name : Option String)
    (seen : ∀ x v, env.get? x = some v → Q v)
    (ends : ∀ (origin : Origin) (arguments : List Value), (∀ a ∈ arguments, Q a) →
      Outcome.Ends T Q fun n => lambda.apply (call n) origin env arguments) :
    Q (.function (.closure origin name lambda env))

/-- A function ends if its body does. -/
theorem Lambda.apply_ends {lambda : Lambda}
    (hbody : ∀ {scope : Scope}, scope.Sees Q → Ends T Q fun n => result (call n) scope lambda.body) {env : Env Value}
    (seen : ∀ x v, env.get? x = some v → Q v) (origin : Origin) {arguments : List Value} (ha : ∀ a ∈ arguments, Q a) :
    Ends T Q fun n => lambda.apply (call n) origin env arguments := by
  simp only [apply]
  split
  · refine hbody ((Scope.Sees.above seen origin).defineAll fun b hb => ?_)
    exact ha b.2 (List.of_mem_zip hb).2
  · exact .fail _

mutual

/-- An expression in a scope of such values. -/
theorem Expr.evaluate_ends (h : Caller.Ends T Q call) : ∀ (e : Expr) {scope : Scope} (origin : Origin), scope.Sees Q →
    Ends T Q fun n => e.evaluate (call n) scope origin
  | .literal value s, scope, origin, _ => by
    simp only [Expr.evaluate]
    exact .ok (h.ofLiteral value)
  | .name text s, scope, origin, hs => by
    simp only [Expr.evaluate]
    cases hv : scope.get? text with
    | none => exact .failAt _ s
    | some v => exact .ok (hs.seen text v hv)
  | .lambda parameters body s, scope, origin, hs => by
    simp only [Expr.evaluate]
    refine .ok (h.closure origin none hs.freeze fun origin arguments ha => ?_)
    exact Lambda.apply_ends (fun hinner => Lambda.result_ends h body hinner) hs.freeze origin ha
  | .operator op operands s, scope, origin, hs => by
    have applied : ∀ {op : Operator} {vs : List Value}, (∀ v ∈ vs, Q v) →
        Ends T Q fun _ => op.apply origin vs s := fun hvs =>
      (Ends.ofCause fun v hv => Operator.applyFirst_keeps hvs (Operator.keeps_overloads h.toHereditary _) hv).orAt s
    by_cases selects : ∃ receiver member, op = .member ∧ operands = [receiver, member]
    · obtain ⟨receiver, member, rfl, rfl⟩ := selects
      simp only [Expr.evaluate]
      cases member.name? with
      | none => exact .failAt _ _
      | some text =>
        refine (Expr.evaluate_ends h receiver _ hs).bind fun v hv => applied ?_
        exact List.forall_mem_cons.mpr ⟨hv, List.forall_mem_singleton.mpr (h.string text)⟩
    · simp only [Expr.evaluate_operator _ _ _ selects]
      split
      · exact .failAt _ s
      · exact (Expr.evaluateAll_ends h operands origin 0 hs).bind fun vs hvs => applied hvs
  | .call callee arguments s, scope, origin, hs => by
    simp only [Expr.evaluate]
    refine (Expr.evaluateAll_ends h arguments origin 2 hs).bind fun vs hvs => ?_
    exact (Expr.evaluate_ends h callee _ hs).bind fun f hf => (h.calls _ hf hvs).orAt s

theorem Expr.evaluateAll_ends (h : Caller.Ends T Q call) :
    ∀ (es : List Expr) {scope : Scope} (origin : Origin) (i : Nat),
    scope.Sees Q → Ends T (fun vs => ∀ v ∈ vs, Q v) fun n => Expr.evaluateAll (call n) scope origin i es
  | [], scope, origin, i, _ => by
    simp only [Expr.evaluateAll]
    exact .ok (List.forall_mem_nil _)
  | e :: rest, scope, origin, i, hs => by
    simp only [Expr.evaluateAll]
    refine (Expr.evaluate_ends h e _ hs).bind fun v hv => ?_
    refine (Expr.evaluateAll_ends h rest origin (i + 1) hs).bind fun vs hvs => .ok ?_
    exact List.forall_mem_cons.mpr ⟨hv, hvs⟩

theorem Scope.bind_ends (h : Caller.Ends T Q call) : ∀ (s : Statement) {scope : Scope}, scope.Sees Q →
    Ends T (Scope.Sees Q) fun n => scope.bind (call n) s
  | .define target e s, scope, hs => by
    simp only [Scope.bind, Scope.evaluate]
    exact (Expr.evaluate_ends h e scope.place hs).bind fun v hv => .ok (hs.define _ hv)
  | .function target parameters body s, scope, hs => by
    simp only [Scope.bind]
    refine .ok (hs.defineFunction _ (h.closure _ _ hs.freeze fun origin arguments ha => ?_))
    exact Lambda.apply_ends (fun hinner => Lambda.result_ends h body hinner) hs.freeze origin ha
  | .result _ _, _, _ => .failAt _ _
  | .collect _ _, _, _ => .failAt _ _
  | .loop _ _ _, _, _ => .failAt _ _
  | .vary _ _ _, _, _ => .failAt _ _
  | .region _ _ _ _ _, _, _ => .failAt _ _
  | .source _ _ _ _, _, _ => .failAt _ _

/-- The body of a function. -/
theorem Lambda.result_ends (h : Caller.Ends T Q call) : ∀ (body : List Statement) {scope : Scope}, scope.Sees Q →
    Ends T Q fun n => Lambda.result (call n) scope body
  | [], _, _ => .fail _
  | [.result e s], scope, hs => by
    simp only [Lambda.result, Scope.evaluate]
    exact Expr.evaluate_ends h e scope.place hs
  | s :: next :: rest, scope, hs => by
    simp only [Lambda.result]
    exact (Scope.bind_ends h s hs).bind fun inner hinner => Lambda.result_ends h (next :: rest) hinner
  | [.define _ _ _], _, _ => .failAt _ _
  | [.function _ _ _ _], _, _ => .failAt _ _
  | [.collect _ _], _, _ => .failAt _ _
  | [.loop _ _ _], _, _ => .failAt _ _
  | [.vary _ _ _], _, _ => .failAt _ _
  | [.region _ _ _ _ _], _, _ => .failAt _ _
  | [.source _ _ _ _], _, _ => .failAt _ _

end

end RecordStats
