import RecordStats.Evaluation.Expression
import RecordStats.Evaluation.Call
import RecordStats.Json.Basic
import RecordStats.Proofs.Program.WellFormed

/-! What evaluation takes for granted, and what it promises. The functions among the values have bodies that
    a text can hold, wherever they were made. From such values an evaluation makes such values, and where it
    has no result the fault is the program's or the record's, never the interpreter's own. -/

namespace RecordStats

/-! ### Ends without an internal error -/

/-- Errors of which some are internal ones. -/
class Blame (ε : Type) where
  internal : ε → Prop

instance : Blame Cause := ⟨fun cause => cause.kind = .internal⟩

instance : Blame Stop := ⟨fun
  | .failure f => f.cause.kind = .internal
  | .tooDeep => False⟩

/-- There is no internal error, and a result has the given property. -/
inductive Faultless {ε α : Type} [Blame ε] (P : α → Prop) : Except ε α → Prop where
  | ok {a : α} (h : P a) : Faultless P (.ok a)
  | error {e : ε} (h : ¬ Blame.internal e) : Faultless P (.error e)

namespace Faultless

variable {ε α β : Type} [Blame ε] {P : α → Prop} {Q : β → Prop}

theorem ok_or_error {x : Except ε α} (h : Faultless P x) :
    (∃ a, x = .ok a ∧ P a) ∨ ∃ e, x = .error e ∧ ¬ Blame.internal e := by
  cases h with
  | ok h => exact .inl ⟨_, rfl, h⟩
  | error h => exact .inr ⟨_, rfl, h⟩

theorem of_ok {x : Except ε α} {a : α} (h : Faultless P x) (hx : x = .ok a) : P a := by
  subst hx
  cases h with
  | ok h => exact h

theorem not_internal {x : Except ε α} {e : ε} (h : Faultless P x) (hx : x = .error e) : ¬ Blame.internal e := by
  subst hx
  cases h with
  | error h => exact h

theorem mono {Q : α → Prop} {x : Except ε α} (h : Faultless P x) (hPQ : ∀ a, P a → Q a) : Faultless Q x := by
  cases h with
  | ok h => exact .ok (hPQ _ h)
  | error h => exact .error h

theorem bind {x : Except ε α} {f : α → Except ε β} (h : Faultless P x) (hf : ∀ a, P a → Faultless Q (f a)) :
    Faultless Q (x >>= f) := by
  cases h with
  | ok h => exact hf _ h
  | error h => exact .error h

theorem map {x : Except ε α} {f : α → β} (h : Faultless P x) (hf : ∀ a, P a → Q (f a)) : Faultless Q (x.map f) := by
  cases h with
  | ok h => exact .ok (hf _ h)
  | error h => exact .error h

theorem ofCause {x : Except Cause α} (h : Faultless P x) : Faultless P (Outcome.ofCause x) := by
  cases h with
  | ok h => exact .ok h
  | error h => exact .error h

theorem orAt {x : Outcome α} (h : Faultless P x) (s : Span) : Faultless P (x.orAt s) := by
  cases h with
  | ok h => exact .ok h
  | @error stop h =>
    cases stop with
    | failure f => exact .error h
    | tooDeep => exact .error h

end Faultless

/-! ### Sound values -/

/-- Every function that a program has written has a body that a text can hold. -/
inductive Value.Sound : Value → Prop where
  | null : Sound .null
  | boolean (b : Bool) : Sound (.boolean b)
  | integer (n : Int64) : Sound (.integer n)
  | float (x : Float) : Sound (.float x)
  | string (s : String) : Sound (.string s)
  | list {items : List Value} (h : ∀ v ∈ items, Sound v) : Sound (.list items)
  | tuple {items : List Value} (h : ∀ v ∈ items, Sound v) : Sound (.tuple items)
  | record {fields : List (String × Value)} (h : ∀ f ∈ fields, Sound f.2) : Sound (.record fields)
  | closure {origin : Origin} {name : Option String} {lambda : Lambda} {env : Env Value} {most : Nat}
      (body : Expr.WellFormedBody most lambda.body) (bindings : ∀ b ∈ env.bindings, Sound b.2)
      (standing : ∀ b ∈ env.standing, Sound b.2) : Sound (.function (.closure origin name lambda env))
  | builtin (b : Builtin) : Sound (.function (.builtin b))
  | host (number : Nat) : Sound (.function (.host number))
  | method {origin : Origin} {receiver : Value} {m : Method} (h : Sound receiver) :
      Sound (.function (.method origin receiver m))

namespace Value

/-- Numbers and truth values have no parts, and no functions in them. -/
inductive IsScalar : Value → Prop where
  | boolean (b : Bool) : IsScalar (.boolean b)
  | integer (n : Int64) : IsScalar (.integer n)
  | float (x : Float) : IsScalar (.float x)

theorem IsScalar.sound {v : Value} (h : v.IsScalar) : v.Sound := by
  cases h with
  | boolean b => exact .boolean b
  | integer n => exact .integer n
  | float x => exact .float x

theorem IsScalar.of_number? {v : Value} {x : Float} (h : v.number? = some x) : v.IsScalar := by
  cases v with
  | integer n => exact .integer n
  | float y => exact .float y
  | _ => cases h

/-- All values bound to names are sound. -/
def SoundFields (fields : List (String × Value)) : Prop := ∀ b ∈ fields, b.2.Sound

theorem Sound.ofLiteral (l : Literal) : (ofLiteral l).Sound := by
  cases l with
  | integer n => exact .integer n
  | float x => exact .float x
  | string s => exact .string s

theorem Sound.of_mem_items {v : Value} {items : List Value} (h : v.Sound) (hitems : v.items? = some items) :
    ∀ item ∈ items, item.Sound := by
  cases h with
  | list h =>
    cases hitems
    exact h
  | tuple h =>
    cases hitems
    exact h
  | _ => cases hitems

theorem Sound.items_getD {v : Value} (h : v.Sound) : ∀ item ∈ v.items?.getD [], item.Sound := by
  cases hitems : v.items? with
  | none =>
    intro item hi
    cases hi
  | some items => exact h.of_mem_items hitems

mutual

/-- A document holds no functions. -/
theorem ofJson_sound : ∀ j : Json, (ofJson j).Sound
  | .null => .null
  | .boolean b => .boolean b
  | .integer n => .integer n
  | .float x => .float x
  | .string s => .string s
  | .array items => by
    rw [ofJson]
    exact .list (itemsOfJson_sound items)
  | .object members => by
    rw [ofJson]
    exact .record (fieldsOfJson_sound members)

theorem itemsOfJson_sound : ∀ items : List Json, ∀ v ∈ itemsOfJson items, v.Sound
  | [] => nofun
  | j :: rest => by
    rw [itemsOfJson]
    exact List.forall_mem_cons.mpr ⟨ofJson_sound j, itemsOfJson_sound rest⟩

theorem fieldsOfJson_sound : ∀ members : List (String × Json), SoundFields (fieldsOfJson members)
  | [] => nofun
  | (name, j) :: rest => by
    rw [fieldsOfJson]
    exact List.forall_mem_cons.mpr ⟨ofJson_sound j, fieldsOfJson_sound rest⟩

end

namespace SoundFields

theorem nil : SoundFields [] := fun _ h => by cases h

theorem get? {d : Dict Value} (h : SoundFields d) {name : String} {v : Value} (hv : d.get? name = some v) : v.Sound :=
  h _ (Dict.mem_of_get? hv)

theorem insert {d : Dict Value} (h : SoundFields d) (name : String) {v : Value} (hv : v.Sound) :
    SoundFields (d.insert name v) := by
  intro b hb
  rcases Dict.mem_insert hb with rfl | hb
  · exact hv
  · exact h b hb

theorem union {d upper : Dict Value} (h : SoundFields d) (hu : SoundFields upper) : SoundFields (d.union upper) := by
  unfold Dict.union
  induction upper generalizing d with
  | nil => exact h
  | cons b rest ih =>
    obtain ⟨hb, hrest⟩ := List.forall_mem_cons.mp hu
    exact ih (h.insert b.1 hb) hrest

theorem ofPairs {pairs : List (String × Value)} (h : SoundFields pairs) : SoundFields (Dict.ofPairs pairs) :=
  nil.union h

end SoundFields

end Value

/-! ### Sound scopes -/

/-- All values that names mean in a scope are sound. -/
structure Scope.Sound (s : Scope) : Prop where
  own : Value.SoundFields s.own.bindings
  outer : ∀ f ∈ s.outer, Value.SoundFields f.bindings
  bindings : Value.SoundFields s.below.bindings
  standing : Value.SoundFields s.below.standing

namespace Scope

variable {s : Scope}

theorem sound_of_framesGet? {frames : List Frame} (h : ∀ f ∈ frames, Value.SoundFields f.bindings) {name : String}
    {v : Value} (hv : framesGet? frames name = some v) : v.Sound := by
  induction frames with
  | nil => cases hv
  | cons f rest ih =>
    obtain ⟨hf, hrest⟩ := List.forall_mem_cons.mp h
    rw [framesGet?] at hv
    split at hv
    · next found =>
      cases hv
      exact hf.get? found
    · exact ih hrest hv

theorem Sound.frames (h : s.Sound) : ∀ f ∈ s.own :: s.outer, Value.SoundFields f.bindings :=
  List.forall_mem_cons.mpr ⟨h.own, h.outer⟩

theorem Sound.get? (h : s.Sound) {name : String} {v : Value} (hv : s.get? name = some v) : v.Sound := by
  rw [Scope.get?] at hv
  split at hv
  · next found =>
    cases hv
    exact sound_of_framesGet? h.frames found
  · rw [Env.get?] at hv
    split at hv
    · next found =>
      cases hv
      exact h.bindings.get? found
    · exact h.standing.get? hv

theorem Sound.define (h : s.Sound) (name : String) {v : Value} (hv : v.Sound) : (s.define name v).Sound :=
  { h with own := h.own.insert name hv }

theorem Sound.defineFunction (h : s.Sound) (name : String) {v : Value} (hv : v.Sound) :
    (s.defineFunction name v).Sound :=
  { h with own := h.own.insert name hv }

theorem Sound.defineAll (h : s.Sound) {bindings : List (String × Value)} (hb : Value.SoundFields bindings) :
    (s.defineAll bindings).Sound := by
  unfold Scope.defineAll
  induction bindings generalizing s with
  | nil => exact h
  | cons b rest ih =>
    obtain ⟨hfirst, hrest⟩ := List.forall_mem_cons.mp hb
    exact ih (h.define b.1 hfirst) hrest

theorem Sound.child (h : s.Sound) : s.child.Sound :=
  { h with own := .nil, outer := h.frames }

theorem Sound.root {standing : Dict Value} {data : List (String × Value)} (hs : Value.SoundFields standing)
    (hd : Value.SoundFields data) : (Scope.root standing data).Sound where
  own := .ofPairs hd
  outer := fun _ hf => by cases hf
  bindings := .nil
  standing := hs

theorem Sound.above {env : Env Value} (hb : Value.SoundFields env.bindings) (hs : Value.SoundFields env.standing)
    (base : Origin) : (Scope.above env base).Sound where
  own := .nil
  outer := fun _ hf => by cases hf
  bindings := hb
  standing := hs

theorem sound_flatten {frames : List Frame} {under : Dict Value} (h : ∀ f ∈ frames, Value.SoundFields f.bindings)
    (hu : Value.SoundFields under) : Value.SoundFields (flatten frames under) := by
  unfold flatten
  induction frames with
  | nil => exact hu
  | cons f rest ih =>
    obtain ⟨hf, hrest⟩ := List.forall_mem_cons.mp h
    exact (ih hrest).union hf

/-- A function made in a sound scope is sound when its body is one that a text can hold. -/
theorem Sound.closure (h : s.Sound) (origin : Origin) (name : Option String) {parameters : List Name}
    {body : List Statement} {most : Nat} (hbody : Expr.WellFormedBody most body) :
    (Value.function (.closure origin name ⟨parameters, body⟩ s.freeze)).Sound := by
  rw [s.freeze_eq_flattened]
  exact .closure hbody (sound_flatten h.frames h.bindings) h.standing

end Scope

/-! ### Sound callers and hosts -/

/-- On sound values a call ends without an internal error, and gives a sound value. -/
def Caller.Sound (call : Caller) : Prop :=
  ∀ (origin : Origin) {f : Value} {arguments : List Value}, f.Sound → (∀ a ∈ arguments, a.Sound) →
    Faultless Value.Sound (call origin f arguments)

/-- The values that a host function gives, or calls with, are sound as long as it is answered with sound ones. -/
inductive Reply.Sound : Reply → Prop where
  | finish {v : Value} (h : v.Sound) : Sound (.finish v)
  | raise (message : String) : Sound (.raise message)
  | call {f : Value} {arguments : List Value} {resume : Value → Reply} (hf : f.Sound)
      (ha : ∀ a ∈ arguments, a.Sound) (hr : ∀ v, v.Sound → Sound (resume v)) : Sound (.call f arguments resume)

def Host.Sound (host : Host) : Prop :=
  ∀ (number : Nat) (arguments : List Value), (∀ a ∈ arguments, a.Sound) → (host number arguments).Sound

theorem Host.none_sound : Host.none.Sound := fun _ _ _ => .raise _

end RecordStats
