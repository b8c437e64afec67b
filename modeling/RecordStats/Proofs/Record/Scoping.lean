import RecordStats.Proofs.Record.Bindings
import RecordStats.Proofs.Record.Interruption

/-! The scopes of statements. While a record is executed each statement is met in some scope, at whatever depth it
    stands. That scope is told by the blocks around the statement alone: by what each of them has defined before,
    and by the variables of the loop turns and variations on the way. What was bound in blocks beside them, or in
    earlier turns, has no part in it. -/

namespace RecordStats

/-! ### Statements as they are executed -/

/-- In the execution of a statement a block of it is begun: in which scope, and on which namespace as it then is. -/
inductive Statement.Begins (call : Caller) (tag : Option String) (scope : Scope) (ns : Namespace) :
    Statement → Scope → List Statement → Namespace → Prop where
  /-- The next turn of a loop, when some turns are completed. -/
  | turn {ranges block s earlier row remaining left}
      (rows : turns call scope ranges s = .ok (earlier ++ row :: remaining))
      (before : executeTurns (fun inner => executeBlock call tag inner block) scope earlier ns = (.ok (), left)) :
      Begins call tag scope ns (.loop ranges block s) (scope.child.defineAll row) block left
  /-- The next variation, when some variations are completed. -/
  | variation {earlier v remaining block s left inner children}
      (before : executeVariations call (fun inner => executeBlock call tag inner block) scope earlier ns =
        (.ok (), left))
      (begun : left.vary call scope v = .ok (inner, children)) :
      Begins call tag scope ns (.vary (earlier ++ v :: remaining) block s) inner block children
  | region {name predicate axes block s below children} (taken : takes call scope predicate = .ok true)
      (reached : ns.reach call scope [] name axes.length = .ok (below, children)) :
      Begins call tag scope ns (.region name predicate axes block s) scope.child block children
  | source {inclusive patterns block s} (taken : acceptsTag inclusive patterns tag = true) :
      Begins call tag scope ns (.source inclusive patterns block s) scope block ns

/-- While a block is executed, a statement is met in a scope: a statement of the block itself, or of a block that
    one of them begins. -/
inductive Executed (call : Caller) (tag : Option String) :
    Scope → Namespace → List Statement → Scope → Statement → Prop where
  | here {scope ns s rest} : Executed call tag scope ns (s :: rest) scope s
  | later {scope ns s rest next left inner t} (done : s.execute call tag scope ns = (.ok next, left))
      (others : Executed call tag next left rest inner t) : Executed call tag scope ns (s :: rest) inner t
  | inside {scope ns s rest start block children inner t} (begins : s.Begins call tag scope ns start block children)
      (within : Executed call tag start children block inner t) : Executed call tag scope ns (s :: rest) inner t

/-! ### Statements as they stand in their blocks -/

/-- The names of some assignments with their values, each evaluated in the given scope. -/
inductive Assigned (call : Caller) (scope : Scope) : List (Binding Expr) → List (String × Value) → Prop where
  | nil : Assigned call scope [] []
  | cons {b rest origin v row} (value : b.expression.evaluate call scope origin = .ok v)
      (others : Assigned call scope rest row) : Assigned call scope (b :: rest) ((b.target.text, v) :: row)

/-- A block of a statement with the scope that it begins in, and what is bound in that scope beyond the one of the
    statement. -/
inductive Statement.Encloses (call : Caller) (tag : Option String) (scope : Scope) :
    Statement → List Bound → Scope → List Statement → Prop where
  | turn {ranges block s rows row} (begun : turns call scope ranges s = .ok rows) (mem : row ∈ rows) :
      Encloses call tag scope (.loop ranges block s) (Bound.ofPairs row) (scope.child.defineAll row) block
  | variation {variations v block s row} (mem : v ∈ variations) (assigned : Assigned call scope v.assignments row)
      (begun : variationScope call scope scope.child v.assignments = .ok (scope.child.defineAll row)) :
      Encloses call tag scope (.vary variations block s) (Bound.ofPairs row) (scope.child.defineAll row) block
  | region {name predicate axes block s} :
      Encloses call tag scope (.region name predicate axes block s) [] scope.child block
  | source {inclusive patterns block s} (taken : acceptsTag inclusive patterns tag = true) :
      Encloses call tag scope (.source inclusive patterns block s) [] scope block

/-- A statement stands in a scope, with the bindings that are in force there beyond the scope of the whole block.
    No statement beside it counts but for its definitions. -/
inductive Stands (call : Caller) (tag : Option String) :
    Scope → List Statement → List Bound → Scope → Statement → Prop where
  | here {scope earlier t rest bound inner} (defined : Binds call scope (definitionsOf tag earlier) bound inner) :
      Stands call tag scope (earlier ++ t :: rest) bound inner t
  | inside {scope earlier s rest bound next own start block more inner t}
      (defined : Binds call scope (definitionsOf tag earlier) bound next)
      (encloses : s.Encloses call tag next own start block) (within : Stands call tag start block more inner t) :
      Stands call tag scope (earlier ++ s :: rest) (bound ++ (own ++ more)) inner t

variable {call : Caller} {tag : Option String} {scope next start inner : Scope} {ns children : Namespace}
  {s t : Statement} {block rest : List Statement} {bound visible : List Bound}

/-! ### What is in force -/

theorem Statement.Encloses.get? (h : s.Encloses call tag scope bound start block) (name : String) :
    start.get? name = (Bound.meaning? name bound).or (scope.get? name) := by
  cases h with
  | turn _ _ => rw [Scope.get?_defineAll, Scope.get?_child]
  | variation _ _ _ => rw [Scope.get?_defineAll, Scope.get?_child]
  | region => rw [Scope.get?_child]; rfl
  | source _ => rfl

/-- A name means at a statement what the last binding in force there tells, or what it means around the block. -/
theorem Stands.get? (h : Stands call tag scope block visible inner t) (name : String) :
    inner.get? name = (Bound.meaning? name visible).or (scope.get? name) := by
  induction h with
  | here defined => exact defined.get? name
  | inside defined encloses _ ih =>
    rw [ih, encloses.get?, defined.get?, Bound.meaning?_append, Bound.meaning?_append, Option.or_assoc,
      Option.or_assoc]

/-! ### Execution keeps to the standing of statements -/

theorem variationScope_eq_ok {assignments : List (Binding Expr)}
    (h : variationScope call scope start assignments = .ok inner) :
    ∃ row, inner = start.defineAll row ∧ Assigned call scope assignments row := by
  induction assignments generalizing start with
  | nil =>
    cases h
    exact ⟨[], rfl, .nil⟩
  | cons b rest ih =>
    rw [variationScope] at h
    obtain ⟨v, hv, hrest⟩ := Outcome.bind_eq_ok.mp h
    obtain ⟨row, rfl, hrow⟩ := ih hrest
    exact ⟨(b.target.text, v) :: row, rfl, .cons hv hrow⟩

theorem Statement.Begins.encloses (h : s.Begins call tag scope ns start block children) :
    ∃ own, s.Encloses call tag scope own start block := by
  cases h with
  | turn rows _ => exact ⟨_, .turn rows (List.mem_append_right _ List.mem_cons_self)⟩
  | variation _ begun =>
    rw [Namespace.vary] at begun
    obtain ⟨assigned, hassigned, begun⟩ := Outcome.bind_eq_ok.mp begun
    obtain ⟨node, -, begun⟩ := Outcome.bind_eq_ok.mp begun
    obtain ⟨_, -, begun⟩ := Outcome.bind_eq_ok.mp begun
    cases begun
    obtain ⟨row, rfl, hrow⟩ := variationScope_eq_ok hassigned
    exact ⟨_, .variation (List.mem_append_right _ List.mem_cons_self) hrow hassigned⟩
  | region _ _ => exact ⟨_, .region⟩
  | source taken => exact ⟨_, .source taken⟩

namespace Stands

/-- The first statement of a block stands in the scope of the block. -/
theorem first : Stands call tag scope (t :: rest) [] scope t := by
  have none : Binds call scope (definitionsOf tag []) [] scope := .nil
  exact .here none

theorem within_first (within : Stands call tag start block visible inner t)
    (encloses : s.Encloses call tag scope bound start block) :
    Stands call tag scope (s :: rest) (bound ++ visible) inner t := by
  have none : Binds call scope (definitionsOf tag []) [] scope := .nil
  exact .inside none encloses within

/-- What stands in the rest of a block stands in the block, after the definitions of its first statement. -/
theorem after (h : Stands call tag next rest visible inner t) (first : Binds call scope (s.definitions tag) bound next) :
    ∃ visible, Stands call tag scope (s :: rest) visible inner t := by
  cases h with
  | @here _ earlier _ _ _ _ defined =>
    have both : Binds call scope (definitionsOf tag (s :: earlier)) _ _ := first.append defined
    exact ⟨_, .here both⟩
  | @inside _ earlier _ _ _ _ _ _ _ _ _ _ defined encloses within =>
    have both : Binds call scope (definitionsOf tag (s :: earlier)) _ _ := first.append defined
    exact ⟨_, .inside both encloses within⟩

end Stands

/-- Every statement that is executed, at whatever depth, is met in the scope that it stands in. -/
theorem Executed.stands (h : Executed call tag scope ns block inner t) :
    ∃ visible, Stands call tag scope block visible inner t := by
  induction h with
  | here => exact ⟨[], .first⟩
  | later done _ ih =>
    obtain ⟨visible, hvisible⟩ := ih
    obtain ⟨bound, hbound⟩ := Statement.execute_binds _ done
    exact hvisible.after hbound
  | inside begins _ ih =>
    obtain ⟨more, hmore⟩ := ih
    obtain ⟨own, hown⟩ := begins.encloses
    exact ⟨own ++ more, hmore.within_first hown⟩

end RecordStats
