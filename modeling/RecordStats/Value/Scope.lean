import RecordStats.Value.Basic

/-!
Scopes: what names mean at a point of a program. A scope is a chain of frames over the bindings that
a function has taken with it, or over the standing ones; the innermost binding of a name counts.
-/

namespace RecordStats

namespace Env

variable {ν : Type}

def get? (env : Env ν) (name : String) : Option ν :=
  match Dict.get? env.bindings name with
  | some v => some v
  | none => Dict.get? env.standing name

def ofStanding (standing : Dict ν) : Env ν :=
  ⟨[], standing⟩

end Env

/-- The bindings of one block. The names in `functions` were bound by function definitions. -/
structure Frame where
  bindings : Dict Value
  functions : List String

/-- A chain of frames, the innermost first. Bindings are counted along the chain, so that each one is
made at a place of its own below `base`. -/
structure Scope where
  own : Frame
  outer : List Frame
  below : Env Value
  base : Origin
  made : Nat

namespace Scope

/-- A scope with one empty frame over an environment. -/
def above (env : Env Value) (base : Origin) : Scope :=
  ⟨⟨[], []⟩, [], env, base, 0⟩

/-- The scope of a record: its data over the standing bindings. Of two data with one name the later
one counts. -/
def root (standing : Dict Value) (data : List (String × Value)) : Scope :=
  ⟨⟨Dict.ofPairs data, []⟩, [], .ofStanding standing, [], 0⟩

def child (s : Scope) : Scope :=
  ⟨⟨[], []⟩, s.own :: s.outer, s.below, s.base, s.made⟩

def parent (s : Scope) : Scope :=
  match s.outer with
  | [] => s
  | f :: rest => { s with own := f, outer := rest }

/-- Where a binding made now would be made. -/
def place (s : Scope) : Origin :=
  s.made :: s.base

/-- What a name means in some frames, the first one that binds it deciding. -/
def framesGet? : List Frame → String → Option Value
  | [], _ => none
  | f :: rest, name =>
    match f.bindings.get? name with
    | some v => some v
    | none => framesGet? rest name

def get? (s : Scope) (name : String) : Option Value :=
  match framesGet? (s.own :: s.outer) name with
  | some v => some v
  | none => s.below.get? name

def contains (s : Scope) (name : String) : Bool :=
  s.own.bindings.has name

def define (s : Scope) (name : String) (v : Value) : Scope :=
  { s with
    own := ⟨s.own.bindings.insert name v, s.own.functions.filter (· ≠ name)⟩
    made := s.made + 1 }

/-- Binds a name to a function that the program defines. -/
def defineFunction (s : Scope) (name : String) (v : Value) : Scope :=
  { s with
    own := ⟨s.own.bindings.insert name v, name :: s.own.functions.filter (· ≠ name)⟩
    made := s.made + 1 }

def defineAll (s : Scope) (bindings : List (String × Value)) : Scope :=
  bindings.foldl (fun s b => s.define b.1 b.2) s

/-- Takes the program's functions out of the innermost frame. -/
def dropFunctions (s : Scope) : Scope :=
  { s with own := ⟨s.own.bindings.filter fun b => !s.own.functions.contains b.1, []⟩ }

/-- The bindings of all frames on top of some others. -/
def flatten (frames : List Frame) (under : Dict Value) : Dict Value :=
  frames.foldr (fun f d => d.union f.bindings) under

/-- The bindings of the whole chain in one environment. -/
def flattened (s : Scope) : Env Value :=
  ⟨flatten (s.own :: s.outer) s.below.bindings, s.below.standing⟩

/-- What a function made now takes with it: all that is bound here. A chain of one frame that binds nothing hands on
what it stands on. -/
def freeze (s : Scope) : Env Value :=
  if s.own.bindings.isEmpty && s.outer.isEmpty then s.below else s.flattened

/-- The two ways of taking a snapshot come to the same. -/
theorem freeze_eq_flattened (s : Scope) : s.freeze = s.flattened := by
  unfold freeze
  split
  · next h =>
    obtain ⟨own, outer⟩ := Bool.and_eq_true_iff.mp h
    rw [flattened, List.isEmpty_iff.mp outer, flatten, List.foldr_cons, List.isEmpty_iff.mp own]
    rfl
  · rfl

theorem freeze_child (s : Scope) : s.child.freeze = s.freeze := by
  rw [freeze_eq_flattened, freeze_eq_flattened]
  rfl

end Scope

end RecordStats
