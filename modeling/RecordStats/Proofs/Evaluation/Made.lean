import RecordStats.Builtin.Apply
import RecordStats.Evaluation.Call
import RecordStats.Proofs.Record.Bindings

/-! Where the functions among values come from. Those that a program has made have texts of a given kind, as far as
    names can reach them; those of the host are there only where they are allowed. -/

namespace RecordStats

/-- Whether a value is a function that has been made by a program. -/
def Value.isClosure : Value → Bool
  | .function (.closure _ _ _ _) => true
  | _ => false

/-- The functions among the values have such texts, and functions of the host are there only if allowed. -/
inductive Value.Made (P : Lambda → Prop) (hosts : Prop) : Value → Prop where
  | null : Made P hosts .null
  | boolean (b : Bool) : Made P hosts (.boolean b)
  | integer (n : Int64) : Made P hosts (.integer n)
  | float (x : Float) : Made P hosts (.float x)
  | string (s : String) : Made P hosts (.string s)
  | list {items : List Value} (h : ∀ v ∈ items, Made P hosts v) : Made P hosts (.list items)
  | tuple {items : List Value} (h : ∀ v ∈ items, Made P hosts v) : Made P hosts (.tuple items)
  | record {fields : List (String × Value)} (h : ∀ f ∈ fields, Made P hosts f.2) : Made P hosts (.record fields)
  | closure {origin : Origin} {name : Option String} {lambda : Lambda} {env : Env Value} (text : P lambda)
      (seen : ∀ x v, env.get? x = some v → Made P hosts v) :
      Made P hosts (.function (.closure origin name lambda env))
  | builtin (b : Builtin) : Made P hosts (.function (.builtin b))
  | host (number : Nat) (allowed : hosts) : Made P hosts (.function (.host number))
  | method {origin : Origin} {receiver : Value} {m : Method} (h : Made P hosts receiver) :
      Made P hosts (.function (.method origin receiver m))

/-- No function of the host is reached from the value. -/
abbrev Value.Hostless (v : Value) : Prop := v.Made (fun _ => True) False

/-- There is no function of a program in the value, and none of the host. -/
abbrev Value.Plain (v : Value) : Prop := v.Made (fun _ => False) False

/-- All values bound to names are made so. -/
def Value.MadeFields (P : Lambda → Prop) (hosts : Prop) (fields : List (String × Value)) : Prop :=
  ∀ b ∈ fields, b.2.Made P hosts

/-- The values that a host function gives, or calls with, are made so as long as it is answered with such ones. -/
inductive Reply.Made (P : Lambda → Prop) : Reply → Prop where
  | finish {v : Value} (h : v.Made P True) : Made P (.finish v)
  | raise (message : String) : Made P (.raise message)
  | call {f : Value} {arguments : List Value} {resume : Value → Reply} (hf : f.Made P True)
      (ha : ∀ a ∈ arguments, a.Made P True) (hr : ∀ v, v.Made P True → Made P (resume v)) :
      Made P (.call f arguments resume)

def Host.Made (P : Lambda → Prop) (host : Host) : Prop :=
  ∀ (number : Nat) (arguments : List Value), (∀ a ∈ arguments, a.Made P True) → (host number arguments).Made P

/-- The standing bindings of every program bring no functions of programs. -/
theorem standing_made (P : Lambda → Prop) (hosts : Prop) : Value.MadeFields P hosts standing := by
  intro b hb
  have made : ∀ p ∈ ("pi", Value.float Double.pi) :: Builtin.all.map (fun b => (b.name, .function (.builtin b))),
      p.2.Made P hosts := by
    refine List.forall_mem_cons.mpr ⟨.float _, fun p hp => ?_⟩
    obtain ⟨builtin, -, rfl⟩ := List.mem_map.mp hp
    exact .builtin builtin
  have found : Dict.get? standing b.1 = some b.2 :=
    Dict.get?_of_mem (Dict.sorted_union Dict.sorted_nil _) hb
  exact made _ (Bound.mem_of_get?_ofPairs found)

end RecordStats
