import RecordStats.Proofs.Evaluation.Ending
import RecordStats.Proofs.Record.Route

/-! Records that end. The statements of a block are as many as the text has, loops run over the items of a sequence,
    and the way down the tree is as long as the tree is deep; so if calls come to the same in most attempts, the block
    does too, and it leaves the same tree. -/

namespace RecordStats

/-! ### Actions that come to rest -/

section

variable {ι σ τ α β : Type} {T : Series ι} {P : α → Prop} {R : β → Prop}

/-- The action settles in a series of attempts, with what it ends with and what it leaves. -/
abbrev Rests (T : Series ι) (P : α → Prop) (r : ι → Outcome α × σ) : Prop :=
  T.Settles (fun r => r.1 = .error .tooDeep) (fun r => Outcome.Ended P r.1) r

namespace Rests

theorem failed (f : Failure) (s : σ) : Rests T P fun _ => (.error (.failure f), s) := .const (.failure f)

/-- What an action leaves is put back into what it is a part of. -/
theorem put {r : ι → Outcome α × σ} (h : Rests T P r) (g : σ → τ) : Rests T P fun i => ((r i).1, g (r i).2) :=
  h.map (k := fun r => (r.1, g r.2)) (fun _ hr => hr) fun _ hr => hr

/-- An action that depends on an outcome, and that leaves everything as it was if there is none. -/
theorem step {o : ι → Outcome α} (h : Outcome.Ends T P o) {r : ι → Outcome β × σ} {s : σ} {next : α → ι → Outcome β × σ}
    (error : ∀ i stop, o i = .error stop → r i = (.error stop, s)) (ok : ∀ i a, o i = .ok a → r i = next a i)
    (hn : ∀ a, P a → Rests T R (next a)) : Rests T R r := by
  rcases h with ⟨i, excused, deep⟩ | ⟨found, ended, told⟩
  · exact .inl ⟨i, excused, by rw [error i _ deep]⟩
  · cases ended with
    | ok ha => exact (hn _ ha).congr (told.mono fun i ho => ok i _ ho)
    | failure f => exact (failed f s).congr (told.mono fun i ho => error i _ ho)

end Rests

/-- How actions go on after another one: as it has ended, and with what it has left. -/
def Action.onward (next : α → Action σ β) : Outcome α × σ → Outcome β × σ
  | (.ok a, s) => next a s
  | (.error stop, s) => (.error stop, s)

/-- To whatever part of the tree the action is done, it comes to rest. -/
def Action.Ends (T : Series ι) (P : α → Prop) (act : ι → Action σ α) : Prop :=
  ∀ s, Rests T P fun i => act i s

namespace Action.Ends

variable {act : ι → Action σ α}

theorem pure {a : α} (h : P a) : Ends T P fun _ => (Pure.pure a : Action σ α) := fun _ => .const (.ok h)

theorem ofOutcome {o : ι → Outcome α} (h : Outcome.Ends T P o) :
    Ends T P fun i => (Action.ofOutcome (o i) : Action σ α) :=
  fun s => h.map (k := fun o => (o, s)) (fun _ ho => ho) fun _ ho => ho

theorem bind (h : Ends T P act) {next : ι → α → Action σ β} (hn : ∀ a, P a → Ends T R fun i => next i a) :
    Ends T R fun i => act i >>= next i := by
  intro s
  refine (h s).chain (k := fun i r => onward (next i) r) (fun i r hr => ?_) fun r hr => ?_
  · obtain ⟨o, t⟩ := r
    obtain rfl : o = .error .tooDeep := hr
    rfl
  · obtain ⟨o, t⟩ := r
    cases hr with
    | ok ha => exact hn _ ha t
    | failure f => exact Rests.failed f t

theorem ofOutcome_bind {o : ι → Outcome α} (h : Outcome.Ends T P o) {next : ι → α → Action σ β}
    (hn : ∀ a, P a → Ends T R fun i => next i a) : Ends T R fun i => Action.ofOutcome (o i) >>= next i :=
  (ofOutcome h).bind hn

end Action.Ends

end

variable {ι : Type} {T : Series ι} {Q : Value → Prop} {call : ι → Caller} {scope : Scope}

/-! ### What is evaluated beside the tree -/

section

variable (h : Caller.Ends T Q call) (hs : scope.Sees Q)

include h hs

theorem Scope.evaluate_ends (e : Expr) : Outcome.Ends T Q fun i => scope.evaluate (call i) e :=
  e.evaluate_ends h scope.place hs

theorem weightOf_ends (weight : Option Expr) :
    Outcome.Ends T (fun _ => True) fun i => weightOf (call i) scope weight := by
  cases weight with
  | none => exact .ok trivial
  | some e =>
    refine (Scope.evaluate_ends h hs e).bind fun v _ => ?_
    cases v.number? with
    | none => exact .failAt _ _
    | some w => exact .ok trivial

theorem takes_ends (predicate : Option Expr) :
    Outcome.Ends T (fun _ => True) fun i => takes (call i) scope predicate := by
  cases predicate with
  | none => exact .ok trivial
  | some e =>
    refine (Scope.evaluate_ends h hs e).bind fun v _ => ?_
    cases v with
    | boolean b => exact .ok trivial
    | _ => exact .failAt _ _

theorem sequences_ends (ranges : List (Binding Expr)) (k : Nat) :
    Outcome.Ends T (fun columns => ∀ c ∈ columns, ∀ v ∈ c.2, Q v) fun i => sequences (call i) scope k ranges := by
  induction ranges generalizing k with
  | nil => exact .ok (List.forall_mem_nil _)
  | cons b rest ih =>
    refine (b.expression.evaluate_ends h _ hs).bind fun v hv => ?_
    cases hitems : v.items? with
    | none => exact .failAt _ _
    | some items =>
      refine (ih (k + 1)).bind fun columns hcolumns => .ok ?_
      exact List.forall_mem_cons.mpr ⟨h.of_mem_items hv hitems, hcolumns⟩

theorem turns_ends (ranges : List (Binding Expr)) (s : Span) :
    Outcome.Ends T (fun turns => ∀ row ∈ turns, ∀ b ∈ row, Q b.2) fun i => turns (call i) scope ranges s := by
  refine (sequences_ends h hs ranges 0).bind fun columns hcolumns => ?_
  extract_lets length
  split
  · exact .ok (forall_mem_rows _ hcolumns)
  · exact .failAt _ s

theorem variationScope_ends (assignments : List (Binding Expr)) {inner : Scope} (hinner : inner.Sees Q) :
    Outcome.Ends T (Scope.Sees Q) fun i => variationScope (call i) scope inner assignments := by
  induction assignments generalizing inner with
  | nil => exact .ok hinner
  | cons b rest ih =>
    exact (b.expression.evaluate_ends h _ hs).bind fun v hv => ih (hinner.define _ hv)

theorem Bins.slot_ends (bins : Bins Float) (axis : Expr) :
    Outcome.Ends T (fun _ => True) fun i => bins.slot (call i) scope axis := by
  refine (Scope.evaluate_ends h hs axis).bind fun v _ => ?_
  cases v.number? with
  | none => exact .failAt _ _
  | some x => exact .ok trivial

theorem Storage.sample_ends (content : Storage) :
    Outcome.Ends T (fun _ => True) fun i => content.sample (call i) scope := by
  cases content with
  | count totals => exact .ok trivial
  | sum e totals | profile e totals =>
    refine (Scope.evaluate_ends h hs e).bind fun v _ => ?_
    cases v.number? with
    | none => exact .failAt _ _
    | some x => exact .ok trivial
  | fraction e totals =>
    refine (Scope.evaluate_ends h hs e).bind fun v _ => ?_
    cases v with
    | boolean b => exact .ok trivial
    | _ => exact .failAt _ _

end

/-! ### The way through the tree -/

variable {α : Type} {P : α → Prop}

theorem Namespace.within_ends (name : Name) {act : ι → Action Node α} (ha : Action.Ends T P act) :
    Action.Ends T P fun i => Namespace.within name (act i) := by
  intro ns
  induction ns with
  | nil => exact .failed _ _
  | cons child rest ih =>
    obtain ⟨key, node⟩ := child
    simp only [Namespace.within]
    split
    · exact (ha node).put fun node => (key, node) :: rest
    · exact ih.put fun rest => (key, node) :: rest

namespace Node

theorem opened_ends (cause : Cause) (s : Span) {act : ι → Action Namespace α} (ha : Action.Ends T P act) :
    Action.Ends T P fun i => opened cause s (act i) := by
  intro node
  cases node with
  | «namespace» name children => exact (ha children).put (Node.namespace name)
  | _ => exact .failed _ _

variable {name : Path} {bins : Bins Float} {axis : Expr} {values : List Node} {u o v : Node}

theorem nth_rests {act : ι → Action Node α} (ha : ∀ node ∈ values, Rests T P fun i => act i node) (slot : Slot)
    (k : Nat) : Rests T P fun i => nth (act i) slot k values := by
  induction values generalizing k with
  | nil => cases k <;> exact .failed _ _
  | cons node rest ih =>
    obtain ⟨hnode, hrest⟩ := List.forall_mem_cons.mp ha
    cases k with
    | zero => exact hnode.put fun node => node :: rest
    | succ k => exact (ih hrest k).put fun rest => node :: rest

/-- An action that comes to rest on the children of a binning comes to rest on the one in a slot. -/
theorem atSlot_rests {act : ι → Action Node α} (hvalues : ∀ node ∈ values, Rests T P fun i => act i node)
    (hu : Rests T P fun i => act i u) (ho : Rests T P fun i => act i o) (hv : Rests T P fun i => act i v) (slot : Slot) :
    Rests T P fun i => atSlot (act i) slot (binning name bins axis values u o v) := by
  cases slot with
  | bin i => exact (nth_rests hvalues _ i).put fun values => binning name bins axis values u o v
  | underflow => exact hu.put fun u => binning name bins axis values u o v
  | overflow => exact ho.put fun o => binning name bins axis values u o v
  | nanflow => exact hv.put fun v => binning name bins axis values u o v

theorem routed_ends (h : Caller.Ends T Q call) (hs : scope.Sees Q) (blame : Span) {act : ι → Action Namespace α}
    (ha : Action.Ends T P act) (axes : Nat) : Action.Ends T P fun i => routed (call i) scope blame (act i) axes := by
  induction axes with
  | zero => exact opened_ends _ _ ha
  | succ axes ih =>
    intro node
    cases node with
    | binning name bins axis values u o v =>
      refine .step (Bins.slot_ends h hs bins axis) (fun i stop hslot => routed_error hslot axes)
        (fun i slot hslot => routed_ok hslot axes) fun slot _ => ?_
      exact atSlot_rests (fun node _ => ih node) (ih u) (ih o) (ih v) slot
    | _ => exact .failed _ _

mutual

/-- An entry is made, or fails, in a storage somewhere below. -/
theorem enter_ends (h : Caller.Ends T Q call) (hs : scope.Sees Q) (w : Float) : ∀ node : Node,
    Rests T (fun _ => True) fun i => enter (call i) scope w node
  | storage name content => by
    have stopped : ∀ i stop, content.sample (call i) scope = .error stop →
        enter (call i) scope w (storage name content) = (.error stop, storage name content) :=
      fun i stop hsample => by simp only [enter, hsample]
    have filled : ∀ i sample, content.sample (call i) scope = .ok sample →
        enter (call i) scope w (storage name content) = (.ok (), storage name (content.fill w sample)) :=
      fun i sample hsample => by simp only [enter, hsample]
    exact .step (content.sample_ends h hs) stopped filled fun _ _ => .const (.ok trivial)
  | binning name bins axis values u o v => by
    refine .step (Bins.slot_ends h hs bins axis) (fun i stop hslot => enter_error hslot)
      (fun i slot hslot => enter_ok hslot) fun slot _ => ?_
    exact atSlot_rests (enterValues_end h hs w values) (enter_ends h hs w u) (enter_ends h hs w o)
      (enter_ends h hs w v) slot
  | .namespace _ _ => .failed _ _

theorem enterValues_end (h : Caller.Ends T Q call) (hs : scope.Sees Q) (w : Float) : ∀ values : List Node,
    ∀ node ∈ values, Rests T (fun _ => True) fun i => enter (call i) scope w node
  | [] => nofun
  | node :: rest => List.forall_mem_cons.mpr ⟨enter_ends h hs w node, enterValues_end h hs w rest⟩

end

end Node

/-! ### Statements -/

theorem executeTurns_ends {block : ι → Scope → Action Namespace Scope}
    (hblock : ∀ {inner : Scope}, inner.Sees Q → Action.Ends T (Scope.Sees Q) fun i => block i inner)
    (hs : scope.Sees Q) :
    ∀ {turns : List (List (String × Value))}, (∀ row ∈ turns, ∀ b ∈ row, Q b.2) →
      Action.Ends T (fun _ => True) fun i => executeTurns (block i) scope turns
  | [], _ => .pure trivial
  | row :: rest, hrows => by
    obtain ⟨hrow, hrest⟩ := List.forall_mem_cons.mp hrows
    exact (hblock (hs.child.defineAll hrow)).bind fun _ _ => executeTurns_ends hblock hs hrest

theorem executeVariations_ends (h : Caller.Ends T Q call) {block : ι → Scope → Action Namespace Scope}
    (hblock : ∀ {inner : Scope}, inner.Sees Q → Action.Ends T (Scope.Sees Q) fun i => block i inner)
    (hs : scope.Sees Q) :
    ∀ variations : List (Variation Expr),
      Action.Ends T (fun _ => True) fun i => executeVariations (call i) (block i) scope variations
  | [] => .pure trivial
  | v :: rest => by
    refine .ofOutcome_bind (variationScope_ends h hs v.assignments hs.child) fun inner hinner => ?_
    refine (Namespace.within_ends v.name (Node.opened_ends _ _ (hblock hinner))).bind fun _ _ => ?_
    exact executeVariations_ends h hblock hs rest

variable {tag : Option String}

mutual

/-- A statement, in a scope of values that evaluation keeps. -/
theorem Statement.execute_ends (h : Caller.Ends T Q call) : ∀ (s : Statement) {scope : Scope}, scope.Sees Q →
    Action.Ends T (Scope.Sees Q) fun i => s.execute (call i) tag scope
  | .define target e s, scope, hs => by
    simp only [Statement.execute]
    exact .ofOutcome (Scope.bind_ends h _ hs)
  | .function target parameters body s, scope, hs => by
    simp only [Statement.execute]
    exact .ofOutcome (Scope.bind_ends h _ hs)
  | .collect c s, scope, hs => by
    simp only [Statement.execute]
    refine .ofOutcome_bind (weightOf_ends h hs c.weight) fun w _ => ?_
    exact (Namespace.within_ends c.name (Node.enter_ends h hs w)).bind fun _ _ => .pure hs
  | .loop ranges block s, scope, hs => by
    simp only [Statement.execute]
    refine .ofOutcome_bind (turns_ends h hs ranges s) fun turns hturns => ?_
    exact (executeTurns_ends (fun hinner => executeBlock_ends h block hinner) hs hturns).bind fun _ _ => .pure hs
  | .vary variations block s, scope, hs => by
    simp only [Statement.execute]
    refine (executeVariations_ends h (fun hinner => executeBlock_ends h block hinner) hs variations).bind fun _ _ => ?_
    exact .pure hs
  | .region name predicate axes block s, scope, hs => by
    simp only [Statement.execute]
    refine .ofOutcome_bind (takes_ends h hs predicate) fun accepted _ => ?_
    cases accepted with
    | true =>
      have inside := Node.routed_ends h hs name.span (executeBlock_ends h block hs.child) axes.length
      exact (Namespace.within_ends name inside).bind fun _ _ => .pure hs
    | false => exact .pure hs
  | .source inclusive patterns block s, scope, hs => by
    simp only [Statement.execute]
    split
    · exact executeBlock_ends h block hs
    · exact .pure hs
  | .result e s, scope, hs => by
    simp only [Statement.execute]
    exact .ofOutcome (.failAt _ s)

/-- The statements of a block, one after another. -/
theorem executeBlock_ends (h : Caller.Ends T Q call) : ∀ (block : List Statement) {scope : Scope}, scope.Sees Q →
    Action.Ends T (Scope.Sees Q) fun i => executeBlock (call i) tag scope block
  | [], scope, hs => by
    simp only [executeBlock]
    exact .pure hs
  | s :: rest, scope, hs => by
    simp only [executeBlock]
    exact (s.execute_ends h hs).bind fun after hafter => executeBlock_ends h rest hafter

end

end RecordStats
