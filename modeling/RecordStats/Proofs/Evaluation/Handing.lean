import Mathlib.Tactic.Choose
import RecordStats.Proofs.Evaluation.Ending

/-! Functions that are called on functions. A function of a program can only come to be called again and again by being
    handed to functions as an argument: names mean nothing that is bound later, so what a function has taken with it
    was there before it. If from some depth of calls on no function of a program is called on one, all calls end. -/

namespace RecordStats

/-! ### Handing functions on -/

mutual

/-- Whether there is no function of a program in the value. -/
def Value.isPlain : Value → Bool
  | .list items => Value.allPlain items
  | .tuple items => Value.allPlain items
  | .record fields => Value.allPlainFields fields
  | .function f => f.isPlain
  | _ => true

def Function.isPlain : Function → Bool
  | .closure _ _ _ _ => false
  | .method _ receiver _ => receiver.isPlain
  | _ => true

def Value.allPlain : List Value → Bool
  | [] => true
  | v :: rest => v.isPlain && Value.allPlain rest

def Value.allPlainFields : List (String × Value) → Bool
  | [] => true
  | (_, v) :: rest => v.isPlain && Value.allPlainFields rest

end

namespace Host

/-- Whether a function of a program is called on arguments with functions of programs in them. -/
def hands (f : Value) (arguments : List Value) : Bool :=
  f.isClosure && !Value.allPlain arguments

/-- What a function does on its arguments; the calls on the way are made by `next`. -/
def answer (host : Host) (next : Caller) (origin : Origin) (f : Value) (arguments : List Value) : Outcome Value :=
  match f with
  | .function (.closure _ _ lambda env) => lambda.apply next origin env arguments
  | .function (.builtin b) => .ofCause (b.apply arguments)
  | .function (.host number) => (host number arguments).run next origin 0
  | .function (.method _ receiver m) => m.apply next origin receiver arguments
  | other => Outcome.fail (.notCallable other.kind)

theorem caller_succ (host : Host) (depth : Nat) : host.caller (depth + 1) = host.answer (host.caller depth) := rfl

/-- Calls that nest at most so deep. From `free` calls deep on, no function of a program is handed to one: a call that
    would do so fails. -/
def barring (host : Host) : Nat → Nat → Caller
  | _, 0, _, _, _ => .error .tooDeep
  | free, depth + 1, origin, f, arguments =>
    if free = 0 ∧ hands f arguments then Outcome.fail (.raised "a function has been handed on")
    else host.answer (host.barring (free - 1) depth) origin f arguments

end Host

namespace Value

theorem allPlain_iff {items : List Value} : allPlain items ↔ ∀ v ∈ items, v.isPlain := by
  induction items with
  | nil => simp [allPlain]
  | cons v rest ih => simp [allPlain, ih]

theorem allPlainFields_iff {fields : List (String × Value)} : allPlainFields fields ↔ ∀ f ∈ fields, f.2.isPlain := by
  induction fields with
  | nil => simp [allPlainFields]
  | cons f rest ih => simp [allPlainFields, ih]

theorem Hostless.plain {v : Value} (h : v.Hostless) (hv : v.isPlain) : v.Plain := by
  induction h with
  | null => exact .null
  | boolean b => exact .boolean b
  | integer n => exact .integer n
  | float x => exact .float x
  | string s => exact .string s
  | list _ ih =>
    rw [isPlain] at hv
    exact .list fun v hmem => ih v hmem (allPlain_iff.mp hv v hmem)
  | tuple _ ih =>
    rw [isPlain] at hv
    exact .tuple fun v hmem => ih v hmem (allPlain_iff.mp hv v hmem)
  | record _ ih =>
    rw [isPlain] at hv
    exact .record fun f hmem => ih f hmem (allPlainFields_iff.mp hv f hmem)
  | closure _ _ _ =>
    rw [isPlain, Function.isPlain] at hv
    cases hv
  | builtin b => exact .builtin b
  | host _ allowed => exact allowed.elim
  | method _ ih =>
    rw [isPlain, Function.isPlain] at hv
    exact .method (ih hv)

end Value

/-- A method calls its argument on items of its receiver, which are smaller. -/
theorem Value.sizeOf_call_item {place : Origin} {receiver item : Value} {m : Method}
    (h : item ∈ receiver.items?.getD []) (arguments : List Value) :
    sizeOf (arguments.headD .null) + sizeOf [item] <
      sizeOf (function (.method place receiver m)) + sizeOf arguments := by
  have head : sizeOf (arguments.headD .null) ≤ sizeOf arguments := by
    cases arguments with
    | nil => simp
    | cons a rest =>
      simp only [List.headD_cons, List.cons.sizeOf_spec]
      omega
  have inside : sizeOf item + 1 < sizeOf receiver := by
    cases receiver with
    | list items | tuple items =>
      have := List.sizeOf_lt_of_mem (show item ∈ items from h)
      simp only [list.sizeOf_spec, tuple.sizeOf_spec]
      omega
    | _ => cases h
  simp only [List.cons.sizeOf_spec, List.nil.sizeOf_spec, function.sizeOf_spec, Function.method.sizeOf_spec]
  omega

open Outcome (Ends)

/-! ### Calls one at a time -/

theorem Host.answer_ends {ι : Type} {T : Series ι} {Q : Value → Prop} (hQ : Value.Hereditary Q) (host : Host)
    {next : ι → Caller} (origin : Origin) {f : Value} (qf : Q f) {arguments : List Value} (qa : ∀ a ∈ arguments, Q a)
    (known : ∀ number, ¬ Q (.function (.host number)))
    (hclosure : ∀ {place name lambda env}, f = .function (.closure place name lambda env) →
      Ends T Q fun i => lambda.apply (next i) origin env arguments)
    (hmethod : ∀ {place receiver m}, f = .function (.method place receiver m) →
      ListMethod.EndsOn T Q next (arguments.headD .null) (receiver.items?.getD [])) :
    Ends T Q fun i => host.answer (next i) origin f arguments := by
  cases f with
  | function f =>
    cases f with
    | closure => exact hclosure rfl
    | builtin b => exact .ofCause fun v hv => hQ.scalar ((b.apply_faultless arguments).of_ok hv)
    | host number => exact absurd qf (known number)
    | method => exact Method.apply_ends hQ (hmethod rfl) (hQ.method.mp qf) qa _ origin
  | _ => exact .fail _

/-! ### Calls that hand on nothing -/

/-- There is no function of the host, and every function of a program ends on plain arguments, with a value that is
    tame again, when functions are not handed on. -/
inductive Value.Tame (host : Host) : Value → Prop where
  | null : Tame host .null
  | boolean (b : Bool) : Tame host (.boolean b)
  | integer (n : Int64) : Tame host (.integer n)
  | float (x : Float) : Tame host (.float x)
  | string (s : String) : Tame host (.string s)
  | list {items : List Value} (h : ∀ v ∈ items, Tame host v) : Tame host (.list items)
  | tuple {items : List Value} (h : ∀ v ∈ items, Tame host v) : Tame host (.tuple items)
  | record {fields : List (String × Value)} (h : ∀ f ∈ fields, Tame host f.2) : Tame host (.record fields)
  | closure {place : Origin} {name : Option String} {lambda : Lambda} {env : Env Value}
      (seen : ∀ x v, env.get? x = some v → Tame host v) (outcome : Origin → List Value → Outcome Value)
      (rests : ∀ origin arguments, (∀ a ∈ arguments, a.Plain) → ∀ᶠ n in Filter.atTop,
        lambda.apply (host.barring 0 n) origin env arguments = outcome origin arguments)
      (ended : ∀ origin arguments, (∀ a ∈ arguments, a.Plain) → outcome origin arguments ≠ .error .tooDeep)
      (result : ∀ origin arguments v, (∀ a ∈ arguments, a.Plain) → outcome origin arguments = .ok v → Tame host v) :
      Tame host (.function (.closure place name lambda env))
  | builtin (b : Builtin) : Tame host (.function (.builtin b))
  | method {place : Origin} {receiver : Value} {m : Method} (h : Tame host receiver) :
      Tame host (.function (.method place receiver m))

namespace Value.Tame

variable {host : Host}

theorem hereditary : Hereditary (Tame host) where
  null := .null
  string := .string
  scalar h := by
    cases h with
    | boolean b => exact .boolean b
    | integer n => exact .integer n
    | float x => exact .float x
  list := ⟨fun h => by cases h with | list h => exact h, .list⟩
  tuple := ⟨fun h => by cases h with | tuple h => exact h, .tuple⟩
  record := ⟨fun h => by cases h with | record h => exact h, .record⟩
  builtin := .builtin
  method := ⟨fun h => by cases h with | method h => exact h, .method⟩

theorem hostless {v : Value} (h : v.Tame host) : v.Hostless := by
  induction h with
  | null => exact .null
  | boolean b => exact .boolean b
  | integer n => exact .integer n
  | float x => exact .float x
  | string s => exact .string s
  | list _ ih => exact .list ih
  | tuple _ ih => exact .tuple ih
  | record _ ih => exact .record ih
  | closure _ _ _ _ _ ih => exact .closure trivial ih
  | builtin b => exact .builtin b
  | method _ ih => exact .method ih

theorem closure_ends {place : Origin} {name : Option String} {lambda : Lambda} {env : Env Value}
    (h : Tame host (.function (.closure place name lambda env))) (origin : Origin) {arguments : List Value}
    (plain : ∀ a ∈ arguments, a.Plain) :
    Ends .deepening (Tame host) fun n => lambda.apply (host.barring 0 n) origin env arguments := by
  cases h with
  | closure _ outcome rests ended result =>
    refine .inr ⟨outcome origin arguments, ?_, rests origin arguments plain⟩
    have ended := ended origin arguments plain
    have result := fun v => result origin arguments v plain
    cases ho : outcome origin arguments with
    | ok v => exact .ok (result v ho)
    | error stop =>
      cases stop with
      | failure f => exact .failure f
      | tooDeep => exact absurd ho ended

theorem of_ends {place : Origin} {name : Option String} {lambda : Lambda} {env : Env Value}
    (seen : ∀ x v, env.get? x = some v → Tame host v)
    (h : ∀ (origin : Origin) (arguments : List Value), (∀ a ∈ arguments, a.Plain) →
      Ends .deepening (Tame host) fun n => lambda.apply (host.barring 0 n) origin env arguments) :
    Tame host (.function (.closure place name lambda env)) := by
  have each : ∀ origin arguments, ∃ o : Outcome Value, (∀ a ∈ arguments, a.Plain) → Outcome.Ended (Tame host) o ∧
      ∀ᶠ n in Filter.atTop, lambda.apply (host.barring 0 n) origin env arguments = o := by
    intro origin arguments
    by_cases plain : ∀ a ∈ arguments, a.Plain
    · obtain ⟨_, excused, _⟩ | ⟨o, ended, rests⟩ := h origin arguments plain
      · exact excused.elim
      · exact ⟨o, fun _ => ⟨ended, rests⟩⟩
    · exact ⟨.error .tooDeep, fun h => absurd h plain⟩
  choose outcome ends using each
  refine .closure seen outcome (fun origin arguments plain => (ends origin arguments plain).2)
    (fun origin arguments plain => (ends origin arguments plain).1.ne_tooDeep) fun origin arguments v plain hv => ?_
  have ended := (ends origin arguments plain).1
  rw [hv] at ended
  cases ended with
  | ok h => exact h

/-- A call of a tame value on tame values, functions not being handed on. The induction is for methods that are called
    on methods; functions of programs have been taken care of. -/
theorem call_ends (origin : Origin) {f : Value} {arguments : List Value} (hf : f.Tame host)
    (ha : ∀ a ∈ arguments, a.Tame host) : Ends .deepening (Tame host) fun n => host.barring 0 n origin f arguments := by
  induction hsize : sizeOf f + sizeOf arguments using Nat.strongRecOn generalizing origin f arguments with
  | ind size ih =>
    refine .of_tail ?_
    simp only [Host.barring, true_and]
    split
    · exact Ends.fail _
    next free =>
    refine host.answer_ends hereditary origin hf ha (fun _ h => nomatch h) ?_ ?_
    · rintro place name lambda env rfl
      refine hf.closure_ends origin fun a hmem => (ha a hmem).hostless.plain ?_
      have plain : allPlain arguments := by simpa [Host.hands, isClosure] using free
      exact allPlain_iff.mp plain a hmem
    · rintro place receiver m rfl item hitem origin
      have hitems := hereditary.items_getD (hereditary.method.mp hf)
      exact ih _ (hsize ▸ sizeOf_call_item hitem arguments) origin (hereditary.headD ha)
        (List.forall_mem_singleton.mpr (hitems item hitem)) rfl

/-- Tame values are kept by evaluations in which functions are not handed on. -/
theorem ends (host : Host) : Caller.Ends .deepening (Tame host) (host.barring 0) where
  toHereditary := hereditary
  calls origin hf ha := call_ends origin hf ha
  closure _ _ seen ends := of_ends seen fun origin arguments plain =>
    ends origin arguments fun a ha => hereditary.of_plain (plain a ha)

/-- Without functions of the host all values are tame. -/
theorem of_hostless (host : Host) {v : Value} (h : v.Hostless) : v.Tame host := by
  induction h with
  | null => exact .null
  | boolean b => exact .boolean b
  | integer n => exact .integer n
  | float x => exact .float x
  | string s => exact .string s
  | list _ ih => exact .list ih
  | tuple _ ih => exact .tuple ih
  | record _ ih => exact .record ih
  | @closure _ _ lambda _ _ _ seen =>
    refine of_ends seen fun origin arguments plain => ?_
    refine Lambda.apply_ends (fun hs => Lambda.result_ends (ends host) lambda.body hs) seen origin fun a ha => ?_
    exact hereditary.of_plain (plain a ha)
  | builtin b => exact .builtin b
  | host _ allowed => exact allowed.elim
  | method _ ih => exact .method ih

end Value.Tame

/-! ### Calls that hand on functions to a depth -/

namespace Host

/-- If the calls on the way end, so do the calls that make them. -/
theorem answered_ends (host : Host) {ι : Type} {T : Series ι} {next : ι → Caller}
    (h : Caller.Ends T Value.Hostless next) : Caller.Ends T Value.Hostless fun i => host.answer (next i) where
  toHereditary := h.toHereditary
  calls origin hf ha := by
    refine host.answer_ends h.toHereditary origin hf ha (fun _ hhost => ?_) ?_ ?_
    · cases hhost with
      | host _ allowed => exact allowed
    · rintro place name lambda env rfl
      cases hf with
      | closure _ seen => exact Lambda.apply_ends (fun hs => Lambda.result_ends h lambda.body hs) seen origin ha
    · rintro place receiver m rfl item hitem origin
      have made := h.method.mp hf
      exact h.calls origin (h.headD ha) (List.forall_mem_singleton.mpr (h.items_getD made item hitem))
  closure _ _ seen _ := .closure trivial seen

theorem barring_succ (host : Host) (free depth : Nat) :
    host.barring (free + 1) (depth + 1) = host.answer (host.barring free depth) := by
  funext origin f arguments
  simp only [barring, Nat.add_one_ne_zero, false_and, if_false, Nat.add_sub_cancel]

/-- Whatever the depth is from which on functions are not handed to functions, evaluations without functions of the
    host end. -/
theorem barring_ends (host : Host) (free : Nat) : Caller.Ends .deepening Value.Hostless (host.barring free) := by
  induction free with
  | zero =>
    have same : Value.Tame host = Value.Hostless :=
      funext fun v => propext ⟨Value.Tame.hostless, Value.Tame.of_hostless host⟩
    exact same ▸ Value.Tame.ends host
  | succ free ih =>
    refine ⟨.made _ _, fun {f arguments} origin hf ha => .of_tail ?_, fun _ _ seen _ => .closure trivial seen⟩
    simp only [barring_succ]
    exact (host.answered_ends ih).calls origin hf ha

/-- Calls that cannot nest deeper are not barred from anything. -/
theorem barring_of_le (host : Host) {free depth : Nat} (h : depth ≤ free) :
    host.barring free depth = host.caller depth := by
  induction depth generalizing free with
  | zero => rfl
  | succ depth ih =>
    obtain ⟨free, rfl⟩ := Nat.exists_eq_add_of_le' h
    rw [← Nat.add_assoc, barring_succ, ih (Nat.le_add_left _ _), caller_succ]

/-- Calls that may nest to a depth, and calls that may nest deeper but are barred from handing on functions there. -/
def caller_or_barring (host : Host) (depth more : Nat) : Bool → Caller
  | false => host.caller depth
  | true => host.barring depth more

/-- What ends without nesting too deep makes no use of deeper calls. -/
theorem caller_or_barring_ends (host : Host) {depth more : Nat} (h : depth ≤ more) :
    Caller.Ends .pair Value.Hostless (host.caller_or_barring depth more) := by
  induction depth generalizing more with
  | zero => exact ⟨.made _ _, fun _ _ _ => .inl ⟨false, rfl, rfl⟩, fun _ _ seen _ => .closure trivial seen⟩
  | succ depth ih =>
    obtain ⟨more, rfl⟩ := Nat.exists_eq_add_of_le' h
    have answered := host.answered_ends (ih (Nat.le_add_left depth more))
    have same : host.caller_or_barring (depth + 1) (more + (depth + 1)) =
        fun i => host.answer (host.caller_or_barring depth (more + depth) i) := by
      funext i
      cases i with
      | false => rfl
      | true => exact host.barring_succ depth (more + depth)
    exact same ▸ answered

end Host

end RecordStats
