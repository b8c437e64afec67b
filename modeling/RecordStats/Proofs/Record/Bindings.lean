import RecordStats.Proofs.Outcome
import RecordStats.Record.Execution

/-! Names and what binds them. A block binds names in the scope that it is given by its own definitions and by
    those of its source blocks, one after another; the other statements, with whatever blocks they hold, leave the
    scope as it was. What a name means is told by the last of its bindings. -/

namespace RecordStats

/-! ### Bindings in order -/

/-- A name that has been bound: to a value, or to a function by the definition of that function. -/
inductive Bound where
  | value (name : String) (v : Value)
  | function (name : String) (f : Value)

namespace Bound

def name : Bound → String
  | value name _ => name
  | function name _ => name

/-- What the name means when this is its last binding. -/
def meaning : Bound → Value
  | value _ v => v
  | function _ f => f

/-- Which name has been bound, and whether to a value. -/
def kind : Bound → String × Bool
  | value name _ => (name, true)
  | function name _ => (name, false)

/-- Values bound to names in order, as the data of a record are. -/
def ofPairs (pairs : List (String × Value)) : List Bound := pairs.map fun p => value p.1 p.2

def last? (name : String) (bs : List Bound) : Option Bound := (bs.filter fun b => b.name = name).getLast?

/-- What a name means by its last binding. -/
def meaning? (name : String) (bs : List Bound) : Option Value := (last? name bs).map meaning

variable {name : String} {bs : List Bound} {b : Bound}

theorem name_of_last? (h : last? name bs = some b) : b.name = name :=
  of_decide_eq_true (List.mem_filter.mp (List.mem_of_getLast? h)).2

theorem mem_of_last? (h : last? name bs = some b) : b ∈ bs := (List.mem_filter.mp (List.mem_of_getLast? h)).1

theorem last?_append (name : String) (bs more : List Bound) :
    last? name (bs ++ more) = (last? name more).or (last? name bs) := by
  rw [last?, List.filter_append, List.getLast?_append]
  rfl

theorem last?_concat (name : String) (bs : List Bound) (b : Bound) :
    last? name (bs ++ [b]) = if b.name = name then some b else last? name bs := by
  by_cases h : b.name = name <;> simp [last?, h]

theorem meaning?_concat (name : String) (bs : List Bound) (b : Bound) :
    meaning? name (bs ++ [b]) = if b.name = name then some b.meaning else meaning? name bs := by
  rw [meaning?, last?_concat]
  split <;> rfl

theorem meaning?_append (name : String) (bs more : List Bound) :
    meaning? name (bs ++ more) = (meaning? name more).or (meaning? name bs) := by
  rw [meaning?, last?_append, Option.map_or]
  rfl

/-- Whether the last binding of a name is to a value depends on the kinds of the bindings alone. -/
theorem last?_value_iff {bs cs : List Bound} (h : bs.map kind = cs.map kind) (name : String) :
    (∃ v, last? name bs = some (value name v)) ↔ ∃ v, last? name cs = some (value name v) := by
  have told : ∀ ds : List Bound, (∃ v, last? name ds = some (value name v)) ↔
      ((ds.map kind).filter fun k => k.1 = name).getLast? = some (name, true) := by
    intro ds
    have kinds : ((ds.map kind).filter fun k => k.1 = name).getLast? = (last? name ds).map kind := by
      rw [List.filter_map, List.getLast?_map, last?]
      congr 3
      funext b
      cases b <;> rfl
    rw [kinds]
    cases last? name ds with
    | none => simp
    | some b => cases b <;> simp [kind]
  rw [told, told, h]

/-- A first binding counts unless there is a later one. -/
theorem meaning?_cons_or (name : String) (b : Bound) (bs : List Bound) (before : Option Value) :
    (meaning? name (b :: bs)).or before = (meaning? name bs).or (if b.name = name then some b.meaning else before) := by
  have first : meaning? name [b] = if b.name = name then some b.meaning else none := meaning?_concat name [] b
  rw [← List.singleton_append, meaning?_append, first, Option.or_assoc]
  split <;> rfl

theorem ofPairs_cons (p : String × Value) (rest : List (String × Value)) :
    ofPairs (p :: rest) = .value p.1 p.2 :: ofPairs rest := rfl

theorem kinds_ofPairs (pairs : List (String × Value)) :
    (ofPairs pairs).map kind = (pairs.map Prod.fst).map fun name => (name, true) := by
  rw [ofPairs, List.map_map, List.map_map]
  rfl

/-- In a dictionary to which pairs are added the last pair of a name counts. -/
theorem get?_union (d : Dict Value) (pairs : List (String × Value)) (name : String) :
    (d.union pairs).get? name = (meaning? name (ofPairs pairs)).or (d.get? name) := by
  unfold Dict.union
  induction pairs generalizing d with
  | nil => rfl
  | cons p rest ih =>
    rw [List.foldl_cons, ih, Dict.get?_insert, ofPairs_cons, meaning?_cons_or]
    rfl

/-- A name is bound to a value that it is paired with. -/
theorem mem_of_get?_ofPairs {pairs : List (String × Value)} {name : String} {v : Value}
    (h : (Dict.ofPairs pairs).get? name = some v) : (name, v) ∈ pairs := by
  rw [Dict.ofPairs, get?_union, Dict.get?_nil, Option.or_none] at h
  obtain ⟨b, hb, rfl⟩ := Option.map_eq_some_iff.mp h
  obtain rfl := name_of_last? hb
  obtain ⟨p, hp, rfl⟩ := List.mem_map.mp (mem_of_last? hb)
  exact hp

end Bound

/-! ### What names mean after a binding -/

namespace Scope

/-- A binding in the innermost frame counts before all others; how it came about makes no difference. -/
theorem get?_insert (s : Scope) (name other : String) (v : Value) (functions : List String) (made : Nat) :
    ({ s with own := ⟨s.own.bindings.insert name v, functions⟩, made := made } : Scope).get? other =
      if name = other then some v else s.get? other := by
  by_cases h : name = other <;> simp [get?, framesGet?, Dict.get?_insert, h]

theorem get?_define (s : Scope) (name other : String) (v : Value) :
    (s.define name v).get? other = if name = other then some v else s.get? other :=
  s.get?_insert name other v _ _

theorem get?_defineFunction (s : Scope) (name other : String) (v : Value) :
    (s.defineFunction name v).get? other = if name = other then some v else s.get? other :=
  s.get?_insert name other v _ _

theorem get?_child (s : Scope) (name : String) : s.child.get? name = s.get? name := rfl

theorem get?_defineAll (s : Scope) (row : List (String × Value)) (name : String) :
    (s.defineAll row).get? name = (Bound.meaning? name (Bound.ofPairs row)).or (s.get? name) := by
  unfold defineAll
  induction row generalizing s with
  | nil => rfl
  | cons b rest ih =>
    rw [List.foldl_cons, ih, get?_define, Bound.ofPairs_cons, Bound.meaning?_cons_or]
    rfl

theorem get?_root (standing : Dict Value) (data : List (String × Value)) (name : String) :
    (root standing data).get? name = (Bound.meaning? name (Bound.ofPairs data)).or (standing.get? name) := by
  have own : (Dict.ofPairs data).get? name = Bound.meaning? name (Bound.ofPairs data) :=
    (Bound.get?_union [] data name).trans Option.or_none
  simp only [get?, root, framesGet?, own]
  cases Bound.meaning? name (Bound.ofPairs data) <;> rfl

end Scope

/-! ### The definitions of a block -/

mutual

/-- The definitions that a statement makes in the scope around it when a record has the given tag. Of the
    statements with blocks only a source shares its scope with them. -/
def Statement.definitions (tag : Option String) : Statement → List Statement
  | .define target e s => [.define target e s]
  | .function target parameters body s => [.function target parameters body s]
  | .source inclusive patterns block _ => if acceptsTag inclusive patterns tag then definitionsOf tag block else []
  | .result _ _ | .collect _ _ | .loop _ _ _ | .vary _ _ _ | .region _ _ _ _ _ => []

/-- The definitions that the statements of a block make in its scope, in order. -/
def definitionsOf (tag : Option String) : List Statement → List Statement
  | [] => []
  | s :: rest => s.definitions tag ++ definitionsOf tag rest

end

/-- The function that a definition of this name binds it to. -/
def Scope.functionOf (scope : Scope) (target : Name) (parameters : List Name) (body : List Statement) : Value :=
  .function (.closure scope.place (some target.text) ⟨parameters, body⟩ scope.freeze)

/-- Definitions one after another, each evaluated in the scope that the ones before it have made: the bindings
    that they come to, and the scope after them. -/
inductive Binds (call : Caller) : Scope → List Statement → List Bound → Scope → Prop where
  | nil {scope} : Binds call scope [] [] scope
  | define {scope target e s v rest bound after} (value : scope.evaluate call e = .ok v)
      (others : Binds call (scope.define target.text v) rest bound after) :
      Binds call scope (.define target e s :: rest) (.value target.text v :: bound) after
  | function {scope target parameters body s rest bound after}
      (others : Binds call (scope.defineFunction target.text (scope.functionOf target parameters body)) rest bound
        after) :
      Binds call scope (.function target parameters body s :: rest)
        (.function target.text (scope.functionOf target parameters body) :: bound) after

namespace Binds

variable {call : Caller} {scope next after : Scope} {definitions more : List Statement} {bound further : List Bound}

theorem append (h : Binds call scope definitions bound next) (h' : Binds call next more further after) :
    Binds call scope (definitions ++ more) (bound ++ further) after := by
  induction h with
  | nil => exact h'
  | define value _ ih => exact .define value (ih h')
  | function _ ih => exact .function (ih h')

/-- After some definitions a name means what the last of its bindings tells, or what it meant before. -/
theorem get? (h : Binds call scope definitions bound after) (name : String) :
    after.get? name = (Bound.meaning? name bound).or (scope.get? name) := by
  induction h with
  | nil => rfl
  | define _ _ ih =>
    rw [ih, Scope.get?_define, Bound.meaning?_cons_or]
    rfl
  | function _ ih =>
    rw [ih, Scope.get?_defineFunction, Bound.meaning?_cons_or]
    rfl

/-- The same definitions bind the same names, to values or to functions alike, wherever they are evaluated. -/
theorem kinds {call' : Caller} {scope' after' : Scope} {bound' : List Bound}
    (h : Binds call scope definitions bound after) (h' : Binds call' scope' definitions bound' after') :
    bound.map Bound.kind = bound'.map Bound.kind := by
  induction h generalizing scope' bound' with
  | nil =>
    cases h'
    rfl
  | define _ _ ih =>
    cases h' with
    | define _ others => exact congrArg (List.cons _) (ih others)
  | function _ ih =>
    cases h' with
    | function others => exact congrArg (List.cons _) (ih others)

end Binds

/-! ### The innermost frame -/

/-- A frame that has come about by some bindings: a name means there what its last binding tells, and is marked as
    a function's when that binding was the definition of a function. -/
structure Frame.Holds (f : Frame) (bs : List Bound) : Prop where
  sorted : Dict.Sorted f.bindings
  bindings : ∀ name, f.bindings.get? name = Bound.meaning? name bs
  functions : ∀ name, name ∈ f.functions ↔ ∃ v, Bound.last? name bs = some (.function name v)

namespace Scope

variable {s : Scope} {bs : List Bound}

theorem holds_define (h : s.own.Holds bs) (name : String) (v : Value) :
    (s.define name v).own.Holds (bs ++ [.value name v]) where
  sorted := Dict.sorted_insert h.sorted name v
  bindings := fun other => by
    show (s.own.bindings.insert name v).get? other = _
    rw [Dict.get?_insert, h.bindings, Bound.meaning?_concat]
    rfl
  functions := fun other => by
    show other ∈ s.own.functions.filter (· ≠ name) ↔ _
    rw [Bound.last?_concat, List.mem_filter, h.functions]
    show _ ↔ ∃ w, (if name = other then _ else _ : Option Bound) = _
    by_cases hn : name = other
    · simp [hn]
    · simp [hn, Ne.symm hn]

theorem holds_defineFunction (h : s.own.Holds bs) (name : String) (v : Value) :
    (s.defineFunction name v).own.Holds (bs ++ [.function name v]) where
  sorted := Dict.sorted_insert h.sorted name v
  bindings := fun other => by
    show (s.own.bindings.insert name v).get? other = _
    rw [Dict.get?_insert, h.bindings, Bound.meaning?_concat]
    rfl
  functions := fun other => by
    show other ∈ name :: s.own.functions.filter (· ≠ name) ↔ _
    rw [Bound.last?_concat, List.mem_cons, List.mem_filter, h.functions]
    show _ ↔ ∃ w, (if name = other then _ else _ : Option Bound) = _
    by_cases hn : name = other
    · simp [hn]
    · simp [hn, Ne.symm hn]

/-- The frame of a record holds its data. -/
theorem holds_root (standing : Dict Value) (data : List (String × Value)) :
    (root standing data).own.Holds (Bound.ofPairs data) where
  sorted := Dict.sorted_union Dict.sorted_nil data
  bindings := fun name => (Bound.get?_union [] data name).trans Option.or_none
  functions := fun name => by
    refine ⟨nofun, fun ⟨v, hv⟩ => ?_⟩
    obtain ⟨p, -, hp⟩ := List.mem_map.mp (Bound.mem_of_last? hv)
    cases hp

/-- Without its functions, a frame keeps the names that were last bound to a value. -/
theorem get?_dropFunctions (h : s.own.Holds bs) (name : String) (v : Value) :
    s.dropFunctions.own.bindings.get? name = some v ↔ Bound.last? name bs = some (.value name v) := by
  show Dict.get? (s.own.bindings.filter fun b => !s.own.functions.contains b.1) name = some v ↔ _
  rw [Dict.get?_filter s.own.bindings (fun n => !s.own.functions.contains n), h.bindings, Bound.meaning?]
  have functions := h.functions name
  cases hlast : Bound.last? name bs with
  | none => simp
  | some b =>
    have hname := Bound.name_of_last? hlast
    rw [hlast] at functions
    cases b with
    | value n w =>
      obtain rfl : n = name := hname
      have kept : n ∉ s.own.functions := by simp [functions]
      simp [kept, Bound.meaning]
    | function n w =>
      obtain rfl : n = name := hname
      have dropped : n ∈ s.own.functions := functions.mpr ⟨w, rfl⟩
      simp [dropped]

end Scope

theorem Binds.holds {call : Caller} {scope after : Scope} {definitions : List Statement} {bound bs : List Bound}
    (h : Binds call scope definitions bound after) (hs : scope.own.Holds bs) : after.own.Holds (bs ++ bound) := by
  induction h generalizing bs with
  | nil =>
    rw [List.append_nil]
    exact hs
  | define _ _ ih =>
    rw [List.append_cons]
    exact ih (Scope.holds_define hs _ _)
  | function _ ih =>
    rw [List.append_cons]
    exact ih (Scope.holds_defineFunction hs _ _)

/-! ### Blocks that are executed -/

namespace Action

variable {σ α β : Type}

theorem bind_eq_ok {act : Action σ α} {next : α → Action σ β} {s t : σ} {b : β} (h : (act >>= next) s = (.ok b, t)) :
    ∃ a r, act s = (.ok a, r) ∧ next a r = (.ok b, t) := by
  change Action.bind act next s = _ at h
  rw [Action.bind] at h
  cases hact : act s with
  | mk o r =>
    rw [hact] at h
    cases o with
    | error stop => cases h
    | ok a => exact ⟨a, r, rfl, h⟩

theorem ofOutcome_eq_ok {o : Outcome α} {a : α} {s t : σ} (h : ofOutcome o s = (.ok a, t)) : o = .ok a ∧ t = s :=
  ⟨congrArg Prod.fst h, (congrArg Prod.snd h).symm⟩

theorem pure_eq_ok {a b : α} {s t : σ} (h : (pure a : Action σ α) s = (.ok b, t)) : b = a ∧ t = s := by
  cases h
  exact ⟨rfl, rfl⟩

end Action

variable {call : Caller} {tag : Option String}

mutual

/-- A statement that succeeds has bound its definitions, and nothing else. -/
theorem Statement.execute_binds {scope after : Scope} {ns left : Namespace} :
    ∀ s : Statement, s.execute call tag scope ns = (.ok after, left) →
      ∃ bound, Binds call scope (s.definitions tag) bound after
  | .define target e s, h => by
    rw [Statement.execute, Scope.bind] at h
    obtain ⟨v, hv, hafter⟩ := Outcome.bind_eq_ok.mp (Action.ofOutcome_eq_ok h).1
    cases hafter
    rw [Statement.definitions]
    exact ⟨_, .define hv .nil⟩
  | .function target parameters body s, h => by
    rw [Statement.execute, Scope.bind] at h
    cases (Action.ofOutcome_eq_ok h).1
    rw [Statement.definitions]
    exact ⟨_, .function .nil⟩
  | .result e s, h => by
    rw [Statement.execute] at h
    cases (Action.ofOutcome_eq_ok h).1
  | .collect c s, h => by
    rw [Statement.execute] at h
    obtain ⟨w, _, -, h⟩ := Action.bind_eq_ok h
    obtain ⟨_, _, -, h⟩ := Action.bind_eq_ok h
    cases (Action.pure_eq_ok h).1
    exact ⟨[], .nil⟩
  | .loop ranges block s, h => by
    rw [Statement.execute] at h
    obtain ⟨rows, _, -, h⟩ := Action.bind_eq_ok h
    obtain ⟨_, _, -, h⟩ := Action.bind_eq_ok h
    cases (Action.pure_eq_ok h).1
    exact ⟨[], .nil⟩
  | .vary variations block s, h => by
    rw [Statement.execute] at h
    obtain ⟨_, _, -, h⟩ := Action.bind_eq_ok h
    cases (Action.pure_eq_ok h).1
    exact ⟨[], .nil⟩
  | .region name predicate axes block s, h => by
    rw [Statement.execute] at h
    obtain ⟨taken, _, -, h⟩ := Action.bind_eq_ok h
    split at h
    · obtain ⟨_, _, -, h⟩ := Action.bind_eq_ok h
      cases (Action.pure_eq_ok h).1
      exact ⟨[], .nil⟩
    · cases (Action.pure_eq_ok h).1
      exact ⟨[], .nil⟩
  | .source inclusive patterns block s, h => by
    rw [Statement.execute] at h
    rw [Statement.definitions]
    split at h
    · next taken =>
      rw [if_pos taken]
      exact executeBlock_binds block h
    · next passed =>
      rw [if_neg passed]
      cases (Action.pure_eq_ok h).1
      exact ⟨[], .nil⟩

/-- A block that succeeds has bound its definitions in order, and nothing else. -/
theorem executeBlock_binds {scope after : Scope} {ns left : Namespace} :
    ∀ block : List Statement, executeBlock call tag scope block ns = (.ok after, left) →
      ∃ bound, Binds call scope (definitionsOf tag block) bound after
  | [], h => by
    rw [executeBlock] at h
    cases (Action.pure_eq_ok h).1
    exact ⟨[], .nil⟩
  | s :: rest, h => by
    rw [executeBlock] at h
    obtain ⟨next, _, hs, hrest⟩ := Action.bind_eq_ok h
    obtain ⟨bound, hbound⟩ := Statement.execute_binds s hs
    obtain ⟨further, hfurther⟩ := executeBlock_binds rest hrest
    rw [definitionsOf]
    exact ⟨bound ++ further, hbound.append hfurther⟩

end

end RecordStats
