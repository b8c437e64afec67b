import RecordStats.Proofs.Evaluation.Handing
import RecordStats.Proofs.Record.Ending
import RecordStats.Proofs.Run.Reachable
import RecordStats.Proofs.Value.Snapshot

/-! Runs whose records end. A record can only go on for ever by handing functions to functions, deeper and deeper: a
    function that is handed to itself does. Where that comes to an end, the evaluation of the record does too. -/

namespace RecordStats

/-! ### Functions that are handed to themselves -/

/-- The function from `g` to `g(g)`. -/
def Lambda.AppliesArgument (f : Lambda) : Prop :=
  ∃ g s t u v w, f = ⟨[⟨g, s⟩], [.result (.call (.name g t) [.name g u] v) w]⟩

theorem Scope.evaluate_call_self {call : Caller} {scope : Scope} {name : String} {self : Value}
    (bound : scope.get? name = some self) (deep : ∀ origin, call origin self [self] = .error .tooDeep) (s t u : Span) :
    scope.evaluate call (.call (.name name s) [.name name t] u) = .error .tooDeep := by
  have operand : ∀ s origin, Expr.evaluate call scope origin (.name name s) = .ok self := fun s origin => by
    rw [Expr.evaluate, bound]
  rw [evaluate, Expr.evaluate, Expr.evaluateAll, Expr.evaluateAll, operand, operand]
  show (call (1 :: scope.place) self [self]).orAt u = _
  rw [deep]
  rfl

/-- Handed to itself, the function calls itself in its turn, as deep as calls may nest. -/
theorem Lambda.AppliesArgument.tooDeep {f : Lambda} (h : f.AppliesArgument) (host : Host) (place : Origin)
    (name : Option String) (env : Env Value) (depth : Nat) (origin : Origin) :
    host.caller depth origin (.function (.closure place name f env)) [.function (.closure place name f env)] =
      .error .tooDeep := by
  induction depth generalizing origin with
  | zero => rfl
  | succ depth ih =>
    obtain ⟨g, s, t, u, v, w, rfl⟩ := h
    have bound : ∀ self, ((Scope.above env origin).define g self).get? g = some self := fun self =>
      (Scope.get?_define _ g g self).trans (if_pos rfl)
    exact Scope.evaluate_call_self (bound _) ih t u v

/-- A block that defines such a function and hands it to itself. -/
theorem executeBlock_selfApplied {parameters : List Name} {body : List Statement}
    (h : Lambda.AppliesArgument ⟨parameters, body⟩) (host : Host) (depth : Nat) (tag : Option String) (scope : Scope)
    (f y : Name) (s t u v w : Span) (tree : Namespace) :
    (executeBlock (host.caller depth) tag scope
      [.function f parameters body s, .define y (.call (.name f.text t) [.name f.text u] v) w] tree).1 =
        .error .tooDeep := by
  have bound := (scope.get?_defineFunction f.text f.text (scope.functionOf f parameters body)).trans (if_pos rfl)
  have stops := Scope.evaluate_call_self bound (h.tooDeep host _ _ _ depth) t u v
  simp only [executeBlock, Statement.execute]
  show ((Action.ofOutcome (Scope.bind _ (scope.defineFunction f.text (scope.functionOf f parameters body)) _) >>= pure)
    tree).1 = _
  rw [Scope.bind, stops]
  rfl

namespace Run

/-- From `free` calls deep on, the record hands no function of a program to one: if such calls are refused, it makes no
    difference to the record. -/
def HandsWithin (run : Run) (host : Host) (tag : Option String) (record : List (String × Value)) (free : Nat) : Prop :=
  ∀ depth, run.single (host.barring free depth) tag record = run.single (host.caller depth) tag record

/-- If all calls end, the record comes to rest. -/
theorem single_rests {ι : Type} {T : Series ι} {call : ι → Caller} (calls : Caller.Ends T Value.Hostless call)
    (run : Run) (tag : Option String) {record : List (String × Value)} (hs : ∀ b ∈ run.standing, b.2.Hostless)
    (hr : ∀ d ∈ record, d.2.Hostless) : Rests T (fun _ => True) fun i => run.single (call i) tag record := by
  have block : Rests T (Scope.Sees Value.Hostless) fun i =>
      executeBlock (call i) tag (Scope.root run.standing record) run.program.block run.tree :=
    executeBlock_ends calls run.program.block (.root hs hr) run.tree
  refine block.map (k := fun r => (r.1.map fun scope => scope.dropFunctions.own.bindings, { run with tree := r.2 }))
    (fun r hr => ?_) fun r hr => ?_
  · rw [hr]
    rfl
  · exact Outcome.Ended.map hr fun _ _ => trivial

/-- What ends without nesting too deep ends the same if calls may nest deeper but are barred from handing on
    functions there. -/
theorem single_barring (run : Run) (host : Host) (tag : Option String) {record : List (String × Value)}
    (hs : ∀ b ∈ run.standing, b.2.Hostless) (hr : ∀ d ∈ record, d.2.Hostless) {depth more : Nat} (h : depth ≤ more)
    (ends : (run.single (host.caller depth) tag record).1 ≠ .error .tooDeep) :
    run.single (host.barring depth more) tag record = run.single (host.caller depth) tag record := by
  obtain ⟨_, rfl, deep⟩ | ⟨r, _, told⟩ := single_rests (host.caller_or_barring_ends h) run tag hs hr
  · exact absurd deep ends
  · have told := Filter.eventually_top.mp told
    exact (told true).trans (told false).symm

/-- A record without functions of the host ends exactly if there is a depth of calls from which on it hands no function
    of a program to one: however much deeper calls may nest, its result and the tree that it leaves stay the same. Names
    alone lead to no recursion, since in the body of a function every name means what it meant before its definition,
    the name of the function too. -/
theorem single_ends_iff (run : Run) (host : Host) (tag : Option String) {record : List (String × Value)}
    (hs : ∀ b ∈ run.standing, b.2.Hostless) (hr : ∀ d ∈ record, d.2.Hostless) :
    ((∃ depth, (run.single (host.caller depth) tag record).1 ≠ .error .tooDeep ∧
        ∀ more, depth ≤ more →
          run.single (host.caller more) tag record = run.single (host.caller depth) tag record) ↔
      ∃ free, run.HandsWithin host tag record free) ∧
    ∀ {scope : Scope}, scope.Arises → ∀ call target parameters body s, ∃ env,
      scope.bind call (.function target parameters body s) = .ok (scope.defineFunction target.text
        (.function (.closure scope.place (some target.text) ⟨parameters, body⟩ env))) ∧
      ∀ x, env.get? x = scope.get? x := by
  refine ⟨⟨?_, ?_⟩, fun arises _ _ _ _ _ => ⟨_, rfl, Scope.get?_freeze arises.ordered⟩⟩
  · rintro ⟨depth, ends, same⟩
    refine ⟨depth, fun more => ?_⟩
    rcases Nat.le_total more depth with hmore | hmore
    · rw [host.barring_of_le hmore]
    · rw [run.single_barring host tag hs hr hmore ends, same more hmore]
  · rintro ⟨free, within⟩
    obtain ⟨_, excused, _⟩ | ⟨r, ended, told⟩ := single_rests (host.barring_ends free) run tag hs hr
    · exact excused.elim
    obtain ⟨depth, told⟩ := Filter.eventually_atTop.mp told
    have same : ∀ more, depth ≤ more → run.single (host.caller more) tag record = r :=
      fun more hmore => (within more).symm.trans (told more hmore)
    refine ⟨depth, ?_, fun more hmore => ?_⟩
    · rw [same depth (Nat.le_refl depth)]
      exact ended.ne_tooDeep
    · rw [same more hmore, same depth (Nat.le_refl depth)]

/-- A block that binds the call of a function that calls its argument twice on a function that adds one. -/
def isTwiceOfSuccessor : List Statement → Bool
  | [.define ⟨"y", _⟩ (.call
        (.lambda [⟨"f", _⟩] [.result (.call (.name "f" _) [.call (.name "f" _) [.literal (.integer 3) _] _] _) _] _)
        [.lambda [⟨"x", _⟩] [.result (.operator .plus [.name "x" _, .literal (.integer 1) _] _) _] _] _) _] => true
  | _ => false

/-- A function is handed a function of the program, which is then called on numbers only. -/
theorem single_ends_iff_twice :
    ∃ run, ofText "y := (f -> f(f(3)))(x -> x + 1)" RecordStats.standing = .ok run ∧
      ∃ depth, (run.single (Host.none.caller depth) none []).1 ≠ .error .tooDeep ∧
        ∀ more, depth ≤ more →
          run.single (Host.none.caller more) none [] = run.single (Host.none.caller depth) none [] := by
  have accepted : (ofText "y := (f -> f(f(3)))(x -> x + 1)" RecordStats.standing).toOption.any
      (fun run => isTwiceOfSuccessor run.program.block) = true := by
    decide +kernel
  obtain ⟨run, h, shape⟩ := exists_of_any accepted
  have hostless : ∀ b ∈ run.standing, b.2.Hostless := by
    rw [(ofText_eq_ok h).2.2]
    exact standing_made _ _
  have within : run.HandsWithin Host.none none [] 1 := by
    intro depth
    unfold isTwiceOfSuccessor at shape
    split at shape
    · next hblock =>
      rw [single, single, hblock]
      rcases depth with _ | _ | depth
      · rfl
      · rfl
      · exact Eq.trans (b := (.ok [("y", .integer 5)], run)) rfl rfl
    · cases shape
  exact ⟨run, h, (single_ends_iff run Host.none none hostless (List.forall_mem_nil _)).1.mpr ⟨1, within⟩⟩

/-- A block that defines the function from `g` to `g(g)` and binds its call on itself. -/
def isSelfApplication : List Statement → Bool
  | [.function ⟨"f", _⟩ [⟨"g", _⟩] [.result (.call (.name "g" _) [.name "g" _] _) _] _,
      .define ⟨"y", _⟩ (.call (.name "f" _) [.name "f" _] _) _] => true
  | _ => false

/-- The function that is handed to itself is one whose record does not end, however deep calls may nest. -/
theorem single_endless :
    ∃ run, ofText "f(g) := g(g); y := f(f)" RecordStats.standing = .ok run ∧
      ∀ depth, (run.single (Host.none.caller depth) none [("x", .integer 1)]).1 = .error .tooDeep := by
  have accepted : (ofText "f(g) := g(g); y := f(f)" RecordStats.standing).toOption.any
      (fun run => isSelfApplication run.program.block) = true := by
    decide +kernel
  obtain ⟨run, h, shape⟩ := exists_of_any accepted
  refine ⟨run, h, fun depth => ?_⟩
  unfold isSelfApplication at shape
  split at shape
  · next s t u v w a b c d e f g hblock =>
    have applies : Lambda.AppliesArgument ⟨[⟨"g", t⟩], [.result (.call (.name "g" u) [.name "g" v] w) a]⟩ :=
      ⟨_, _, _, _, _, _, rfl⟩
    rw [single, hblock]
    exact congrArg (Except.map _) (executeBlock_selfApplied applies Host.none depth none _ ⟨"f", s⟩ _ _ d e f g run.tree)
  · cases shape

end Run
end RecordStats
