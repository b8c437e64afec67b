import RecordStats.Proofs.Record.Scoping
import RecordStats.Proofs.Tree.Growth

/-! Records let totals grow. Whatever a record does to a part of the tree, it is made of entries; so if all weights that
    its collectors evaluate are not negative, no total is lower when it has ended or failed. -/

namespace RecordStats

/-! ### Growing parts -/

/-- The storages are the same by name, and if none holds a negative total, then each of them has grown. -/
def Grows (before after : List (Path × Storage)) : Prop :=
  List.Forall₂ (fun s t => s.1 = t.1 ∧ (s.2.Proper → t.2.Proper ∧ s.2.GrowsTo t.2)) before after

namespace Grows

variable {l m n : List (Path × Storage)}

theorem refl (l : List (Path × Storage)) : Grows l l :=
  List.forall₂_same.mpr fun _ _ => ⟨rfl, fun h => ⟨h, .refl h⟩⟩

theorem trans (h : Grows l m) (h' : Grows m n) : Grows l n := by
  induction h generalizing n with
  | nil =>
    cases h'
    exact .nil
  | cons first _ ih =>
    cases h' with
    | cons first' rest' =>
      refine .cons ⟨first.1.trans first'.1, fun proper => ?_⟩ (ih rest')
      obtain ⟨middle, grown⟩ := first.2 proper
      obtain ⟨last, grown'⟩ := first'.2 middle
      exact ⟨last, grown.trans grown'⟩

theorem append {l' m' : List (Path × Storage)} (h : Grows l m) (h' : Grows l' m') : Grows (l ++ l') (m ++ m') :=
  List.rel_append h h'

/-- From storages without negative totals each one grows, and none gets a negative total. -/
theorem of_proper (h : Grows l m) (proper : ∀ s ∈ l, s.2.Proper) :
    (∀ t ∈ m, t.2.Proper) ∧ List.Forall₂ (fun s t => s.1 = t.1 ∧ s.2.GrowsTo t.2) l m := by
  induction h with
  | nil => exact ⟨List.forall_mem_nil _, .nil⟩
  | cons first _ ih =>
    obtain ⟨hfirst, hrest⟩ := List.forall_mem_cons.mp proper
    obtain ⟨rest, grown⟩ := ih hrest
    obtain ⟨hproper, hgrown⟩ := first.2 hfirst
    exact ⟨List.forall_mem_cons.mpr ⟨hproper, rest⟩, .cons ⟨first.1, hgrown⟩ grown⟩

end Grows

/-- The storages below a node, by name. -/
def Node.held (node : Node) : List (Path × Storage) := storages node.nodes

/-- The storages below a namespace. -/
def Namespace.held (ns : Namespace) : List (Path × Storage) := Node.storages (Node.nodesOfChildren ns)

theorem Namespace.held_cons (key : String) (node : Node) (rest : Namespace) :
    Namespace.held ((key, node) :: rest) = node.held ++ Namespace.held rest := by
  rw [held, Node.nodesOfChildren, Node.storages_append]
  rfl

theorem Node.held_namespace (name : Path) (ns : Namespace) : (Node.namespace name ns).held = ns.held := by
  rw [held, nodes, storages_namespace]
  rfl

/-! ### Actions one after another -/

namespace Action

variable {σ α β : Type} {held : σ → List (Path × Storage)} {act : Action σ α} {next : α → Action σ β} {s : σ}

theorem grows_bind (h : Grows (held s) (held (act s).2))
    (hn : ∀ a left, act s = (.ok a, left) → Grows (held left) (held (next a left).2)) :
    Grows (held s) (held ((act >>= next) s).2) := by
  cases hact : act s with
  | mk o left =>
    rw [hact] at h
    cases o with
    | error stop =>
      have run : (act >>= next) s = (.error stop, left) := by
        show Action.bind act next s = _
        rw [Action.bind, hact]
      rw [run]
      exact h
    | ok a =>
      have run : (act >>= next) s = next a left := by
        show Action.bind act next s = _
        rw [Action.bind, hact]
      rw [run]
      exact h.trans (hn a left hact)

theorem grows_ofOutcome_bind (held : σ → List (Path × Storage)) {o : Outcome α}
    (hn : ∀ a, o = .ok a → Grows (held s) (held (next a s).2)) :
    Grows (held s) (held ((Action.ofOutcome o >>= next) s).2) := by
  refine grows_bind (.refl _) fun a left hact => ?_
  obtain ⟨ho, rfl⟩ := Prod.mk.inj hact
  exact hn a ho

/-- What follows an action and changes nothing. -/
theorem grows_bind_pure (h : Grows (held s) (held (act s).2)) (b : β) :
    Grows (held s) (held ((act >>= fun _ => pure b) s).2) :=
  grows_bind h fun _ _ _ => .refl _

end Action

/-! ### Steps down into the tree -/

variable {α : Type} {call : Caller} {tag : Option String} {scope : Scope}

namespace Namespace

theorem within_grows (name : Name) {act : Action Node α} {ns : Namespace}
    (h : ∀ node, ns.entry name = .ok node → Grows node.held (act node).2.held) :
    Grows ns.held (within name act ns).2.held := by
  induction ns with
  | nil => exact .refl _
  | cons c rest ih =>
    obtain ⟨key, node⟩ := c
    rw [within]
    split
    · next hkey =>
      rw [held_cons, held_cons]
      exact (h node (entry_cons_eq hkey node rest)).append (.refl _)
    · next hkey =>
      rw [held_cons, held_cons]
      exact (Grows.refl _).append (ih fun found hfound => h found ((entry_cons_ne hkey node rest).trans hfound))

end Namespace

namespace Node

theorem opened_grows {cause : Cause} {s : Span} {act : Action Namespace α} {node : Node}
    (h : ∀ children, node.children cause s = .ok children → Grows children.held (act children).2.held) :
    Grows node.held (opened cause s act node).2.held := by
  cases node with
  | binning name bins axis values u o v => exact .refl _
  | storage name content => exact .refl _
  | _ name ns =>
    rw [opened, held_namespace, held_namespace]
    exact h ns rfl

theorem atSlot_grows {slot : Slot} {act : Action Node α} {node : Node}
    (h : ∀ next, node.slotChild slot = .ok next → Grows next.held (act next).2.held) :
    Grows node.held (atSlot act slot node).2.held := by
  cases hchild : node.slotChild slot with
  | error stop =>
    rw [atSlot_error act hchild]
    exact .refl _
  | ok next =>
    obtain ⟨before, after, around⟩ := storages_withSlot hchild
    have whole := around next
    rw [withSlot_self hchild] at whole
    rw [atSlot_ok act hchild, held, held, whole, around]
    exact (Grows.refl before).append ((h next hchild).append (.refl after))

/-- An action on the namespace that a record reaches through some binnings. -/
theorem routed_grows {blame : Span} {act : Action Namespace α} {axes : Nat} {node : Node} (path : Path)
    (h : ∀ below found children, node.descend call scope blame path axes = .ok (below, found) →
      found.children .regionNotNamespace blame = .ok children → Grows children.held (act children).2.held) :
    Grows node.held (routed call scope blame act axes node).2.held := by
  induction axes generalizing node path with
  | zero => exact opened_grows fun children hchildren => h path node children rfl hchildren
  | succ axes ih =>
    cases node with
    | binning name bins axis values u o v =>
      cases hslot : bins.slot call scope axis with
      | error stop =>
        rw [routed_error hslot]
        exact .refl _
      | ok slot =>
        rw [routed_ok hslot]
        refine atSlot_grows fun next hnext => ih (path ++ [slot.segment]) fun below found children hfound => ?_
        refine h below found children ?_
        rw [descend_ok hslot, hnext]
        exact hfound
    | _ => exact .refl _

variable {w : Float}

mutual

/-- An entry is made in one storage, or in none. -/
theorem enter_grows (hw : 0 ≤ w) : ∀ node : Node, Grows node.held (enter call scope w node).2.held
  | .storage name content => by
    rw [enter]
    split
    · next sample _ =>
      rw [held, held, nodes, nodes, storages_storage, storages_storage]
      exact .cons ⟨rfl, fun proper => Storage.growsTo_fill proper hw sample⟩ .nil
    · exact .refl _
  | .binning name bins axis values u o v => by
    cases hslot : bins.slot call scope axis with
    | error stop =>
      rw [enter_error hslot]
      exact .refl _
    | ok slot =>
      rw [enter_ok hslot]
      refine atSlot_grows fun next hnext => ?_
      cases slot with
      | bin i => exact enterValues_grows hw values next (List.mem_of_getElem? (slotChild_bin.mp hnext))
      | underflow =>
        cases hnext
        exact enter_grows hw u
      | overflow =>
        cases hnext
        exact enter_grows hw o
      | nanflow =>
        cases hnext
        exact enter_grows hw v
  | .namespace name children => by
    rw [enter]
    exact .refl _

theorem enterValues_grows (hw : 0 ≤ w) :
    ∀ values : List Node, ∀ node ∈ values, Grows node.held (enter call scope w node).2.held
  | [] => List.forall_mem_nil _
  | first :: rest => List.forall_mem_cons.mpr ⟨enter_grows hw first, enterValues_grows hw rest⟩

end

end Node

/-! ### Blocks -/

/-- While a block is executed no collector evaluates a weight below zero. -/
def Weighed (call : Caller) (tag : Option String) (scope : Scope) (ns : Namespace) (block : List Statement) : Prop :=
  ∀ inner c s w, Executed call tag scope ns block inner (.collect c s) → weightOf call inner c.weight = .ok w → 0 ≤ w

/-- The statement is a collector without a weight. -/
def Statement.isUnweighted : Statement → Bool
  | collect c _ => c.weight.isNone
  | _ => false

namespace Weighed

variable {ns left children : Namespace} {s : Statement} {rest block : List Statement} {next start : Scope}

theorem later (h : Weighed call tag scope ns (s :: rest)) (done : s.execute call tag scope ns = (.ok next, left)) :
    Weighed call tag next left rest := fun inner c span w executed => h inner c span w (.later done executed)

theorem inside (h : Weighed call tag scope ns (s :: rest)) (begins : s.Begins call tag scope ns start block children) :
    Weighed call tag start children block := fun inner c span w executed => h inner c span w (.inside begins executed)

/-- A collector without a weight has the weight one. -/
theorem of_unweighted (h : block.all Statement.isUnweighted = true) : Weighed call tag scope ns block := by
  intro inner c s w executed hw
  generalize hd : Statement.collect c s = d at executed
  induction executed with
  | here =>
    subst hd
    have unweighted : c.weight = none := Option.isNone_iff_eq_none.mp (Bool.and_eq_true_iff.mp h).1
    rw [unweighted] at hw
    cases hw
    decide +kernel
  | later _ _ ih => exact ih (Bool.and_eq_true_iff.mp h).2 hw hd
  | inside begins _ _ => cases begins <;> cases (Bool.and_eq_true_iff.mp h).1

end Weighed

theorem Namespace.vary_of_entry {ns children : Namespace} {v : Variation Expr} {inner : Scope} {node : Node}
    (assigned : variationScope call scope scope.child v.assignments = .ok inner) (entry : ns.entry v.name = .ok node)
    (below : node.children .variationNotNamespace v.span = .ok children) :
    ns.vary call scope v = .ok (inner, children) := by
  simp only [vary, assigned, entry, below, bind, Except.bind]
  rfl

theorem Namespace.reach_of_entry {ns children : Namespace} {path below : Path} {name : Name} {axes : Nat}
    {node found : Node} (entry : ns.entry name = .ok node)
    (descended : node.descend call scope name.span (path ++ [.field name.text]) axes = .ok (below, found))
    (inside : found.children .regionNotNamespace name.span = .ok children) :
    ns.reach call scope path name axes = .ok (below, children) := by
  simp only [reach, entry, descended, inside, bind, Except.bind]
  rfl

/-- The turns of a loop, each on what the ones before it have left. -/
theorem executeTurns_grows {block : Scope → Action Namespace Scope} {rows : List (List (String × Value))}
    {ns : Namespace} (h : ∀ earlier row remaining left, rows = earlier ++ row :: remaining →
      executeTurns block scope earlier ns = (.ok (), left) →
        Grows left.held (block (scope.child.defineAll row) left).2.held) :
    Grows ns.held (executeTurns block scope rows ns).2.held := by
  induction rows generalizing ns with
  | nil => exact .refl _
  | cons row rest ih =>
    rw [executeTurns]
    refine Action.grows_bind (h [] row rest ns rfl rfl) fun next left done => ?_
    refine ih fun earlier other remaining later hrest before => ?_
    refine h (row :: earlier) other remaining later (by rw [hrest, List.cons_append]) ?_
    rw [executeTurns, ← before]
    show Action.bind _ _ ns = _
    rw [Action.bind, done]

/-- The variations of a block, each on what the ones before it have left. -/
theorem executeVariations_grows {block : Scope → Action Namespace Scope} {vs : List (Variation Expr)} {ns : Namespace}
    (h : ∀ earlier v remaining left inner children, vs = earlier ++ v :: remaining →
      executeVariations call block scope earlier ns = (.ok (), left) →
        left.vary call scope v = .ok (inner, children) → Grows children.held (block inner children).2.held) :
    Grows ns.held (executeVariations call block scope vs ns).2.held := by
  induction vs generalizing ns with
  | nil => exact .refl _
  | cons v rest ih =>
    rw [executeVariations]
    refine Action.grows_ofOutcome_bind Namespace.held fun inner hinner => ?_
    have assigned : variationScope call scope scope.child v.assignments = .ok inner := hinner
    have first : Grows ns.held
        (Namespace.within v.name (Node.opened .variationNotNamespace v.span (block inner)) ns).2.held := by
      refine Namespace.within_grows v.name fun node hentry => Node.opened_grows fun children hchildren => ?_
      exact h [] v rest ns inner children rfl rfl (Namespace.vary_of_entry assigned hentry hchildren)
    refine Action.grows_bind first fun next left done => ?_
    refine ih fun earlier other remaining later inner' children hrest before begun => ?_
    refine h (v :: earlier) other remaining later inner' children (by rw [hrest, List.cons_append]) ?_ begun
    rw [executeVariations, ← before]
    show Action.bind (Action.ofOutcome _) _ ns = _
    rw [assigned, Action.bind, Action.ofOutcome]
    show Action.bind _ _ ns = _
    rw [Action.bind, done]

mutual

/-- A statement makes no total lower, whether it fails or not. -/
theorem Statement.execute_grows (rest : List Statement) : ∀ {scope : Scope} {ns : Namespace} (s : Statement),
    Weighed call tag scope ns (s :: rest) → Grows ns.held (s.execute call tag scope ns).2.held
  | _, _, .define _ _ _, _ | _, _, .function _ _ _ _, _ | _, _, .result _ _, _ => by
    rw [Statement.execute]
    exact .refl _
  | scope, ns, .collect c s, h => by
    rw [Statement.execute]
    refine Action.grows_ofOutcome_bind Namespace.held fun w hw => Action.grows_bind_pure ?_ scope
    exact Namespace.within_grows c.name fun node _ => Node.enter_grows (h scope c s w .here hw) node
  | scope, ns, .loop ranges block s, h => by
    rw [Statement.execute]
    refine Action.grows_ofOutcome_bind Namespace.held fun rows hrows => Action.grows_bind_pure ?_ scope
    refine executeTurns_grows fun earlier row remaining left split before => ?_
    subst split
    exact executeBlock_grows block (h.inside (.turn hrows before))
  | scope, ns, .vary variations block s, h => by
    rw [Statement.execute]
    refine Action.grows_bind_pure ?_ scope
    refine executeVariations_grows fun earlier v remaining left inner children split before begun => ?_
    subst split
    exact executeBlock_grows block (h.inside (.variation before begun))
  | scope, ns, .region name predicate axes block s, h => by
    rw [Statement.execute]
    refine Action.grows_ofOutcome_bind Namespace.held fun taken htaken => ?_
    cases taken with
    | false => exact .refl _
    | true =>
      refine Action.grows_bind_pure ?_ scope
      refine Namespace.within_grows name fun node hentry => Node.routed_grows ([] ++ [.field name.text]) ?_
      intro below found children hfound hchildren
      exact executeBlock_grows block (h.inside (.region htaken (Namespace.reach_of_entry hentry hfound hchildren)))
  | scope, ns, .source inclusive patterns block s, h => by
    rw [Statement.execute]
    split
    · next taken => exact executeBlock_grows block (h.inside (.source taken))
    · exact .refl _

/-- A block makes no total lower, however far it is executed. -/
theorem executeBlock_grows : ∀ {scope : Scope} {ns : Namespace} (block : List Statement),
    Weighed call tag scope ns block → Grows ns.held (executeBlock call tag scope block ns).2.held
  | _, _, [], _ => by
    rw [executeBlock]
    exact .refl _
  | scope, ns, s :: rest, h => by
    rw [executeBlock]
    exact Action.grows_bind (Statement.execute_grows rest s h) fun next left done =>
      executeBlock_grows rest (h.later done)

end

end RecordStats
