import RecordStats.Proofs.Record.Binned

/-! Where collectors stand. A collector works on the namespace that the regions, their slots and the varied blocks
    around it lead to. In the tree of its program this namespace is there and has the collector's storage, within
    binnings for its axes. -/

namespace RecordStats

/-! ### Ways down to a namespace -/

/-- A step down from a namespace: to one of its children, and through a slot of each binning there. -/
structure Descent where
  name : Name
  slots : List Slot

namespace Descent

def path (d : Descent) : Path := .field d.name.text :: d.slots.map Slot.segment

/-- The namespace that the step leads to. -/
def find (d : Descent) (ns : Namespace) : Outcome Namespace := do
  let node ← ns.entry d.name
  let node ← d.slots.foldlM (fun node slot => node.slotChild slot) node
  node.children .regionNotNamespace d.name.span

end Descent

/-- An action on what some slots of binnings lead to. -/
def Node.through {α : Type} (act : Action Node α) : List Slot → Action Node α
  | [] => act
  | slot :: rest => Node.atSlot (through act rest) slot

namespace Namespace

variable {α : Type}

/-- The namespace that some steps lead to. -/
def find (ns : Namespace) (way : List Descent) : Outcome Namespace :=
  way.foldlM (fun ns d => d.find ns) ns

/-- An action on the namespace that some steps lead to. -/
def along (act : Action Namespace α) : List Descent → Action Namespace α
  | [] => act
  | d :: rest =>
    Namespace.within d.name (Node.through (Node.opened .regionNotNamespace d.name.span (along act rest)) d.slots)

end Namespace

/-- The names and slots of some steps in order. -/
def Descent.pathOf (way : List Descent) : Path := way.flatMap path

@[simp] theorem Descent.pathOf_nil : pathOf [] = [] := rfl

@[simp] theorem Descent.pathOf_cons (d : Descent) (rest : List Descent) : pathOf (d :: rest) = d.path ++ pathOf rest := rfl

namespace Performs

variable {α : Type}

theorem through {act : Action Node α} {trace : Path → Node → Trace α} (h : ∀ node, Performs act trace node)
    (slots : List Slot) (node : Node) :
    Performs (Node.through act slots)
      (fun path => Trace.into (fun node => slots.foldlM (fun node slot => node.slotChild slot) node)
        (trace (path ++ slots.map Slot.segment))) node := by
  induction slots generalizing node with
  | nil =>
    have told : ∀ path node, Trace.into (fun node : Node => [].foldlM (fun node slot => node.slotChild slot) node)
        (trace (path ++ [].map Slot.segment)) node = trace path node := fun path node => by
      rw [List.map_nil, List.append_nil]
      exact Trace.ofOutcome_bind_ok rfl _
    exact (h node).congr_trace (fun path => told path node) (fun path => told path _)
  | cons slot rest ih =>
    have told : ∀ path node, Trace.into (fun node => (slot :: rest).foldlM (fun node slot => node.slotChild slot) node)
        (trace (path ++ (slot :: rest).map Slot.segment)) node =
          Trace.into (Node.slotChild slot) (fun next =>
            Trace.into (fun node => rest.foldlM (fun node slot => node.slotChild slot) node)
              (trace (path ++ [slot.segment] ++ rest.map Slot.segment)) next) node := fun path node => by
      rw [List.map_cons, List.append_cons, Trace.into, List.foldlM_cons, Trace.ofOutcome_bind, Trace.bind_assoc]
      rfl
    exact (Performs.atSlot slot fun next _ => ih next).congr_trace (fun path => told path node) (fun path => told path _)

/-- An action on the namespace that some steps lead to, as it is seen from where they begin. -/
theorem along {act : Action Namespace α} {trace : Path → Namespace → Trace α} (h : ∀ ns, Performs act trace ns)
    (way : List Descent) (ns : Namespace) :
    Performs (Namespace.along act way)
      (fun path => Trace.into (fun ns : Namespace => ns.find way) (trace (path ++ Descent.pathOf way))) ns := by
  induction way generalizing ns with
  | nil =>
    have told : ∀ path (ns : Namespace), Trace.into (fun ns : Namespace => ns.find [])
        (trace (path ++ Descent.pathOf [])) ns = trace path ns := fun path ns => by
      rw [Descent.pathOf_nil, List.append_nil]
      exact Trace.ofOutcome_bind_ok rfl _
    exact (h ns).congr_trace (fun path => told path ns) (fun path => told path _)
  | cons d rest ih =>
    have told : ∀ path (ns : Namespace), Trace.into (fun ns : Namespace => ns.find (d :: rest))
        (trace (path ++ Descent.pathOf (d :: rest))) ns =
          Trace.into (fun ns : Namespace => ns.entry d.name) (Trace.into
            (fun node => d.slots.foldlM (fun node slot => node.slotChild slot) node) (Trace.into
              (Node.children .regionNotNamespace d.name.span) (Trace.into (fun ns : Namespace => ns.find rest)
                (trace (path ++ [.field d.name.text] ++ d.slots.map Slot.segment ++ Descent.pathOf rest))))) ns := by
      intro path ns
      have longer : path ++ [.field d.name.text] ++ d.slots.map Slot.segment ++ Descent.pathOf rest =
          path ++ Descent.pathOf (d :: rest) := by
        simp only [Descent.pathOf_cons, Descent.path, List.append_assoc, List.cons_append, List.nil_append]
      rw [longer]
      simp only [Trace.into, Namespace.find, List.foldlM_cons, Descent.find, Trace.ofOutcome_bind, Trace.bind_assoc]
      rfl
    exact (within d.name (through (opened .regionNotNamespace d.name.span ih) d.slots) ns).congr_trace
      (fun path => told path ns) (fun path => told path _)

end Performs

/-! ### Where a collector stands in a text -/

/-- A collector stands in a block, in the namespace that some steps lead to from that of the block. A step is the label
    of a varied block, or the name of a region with a choice of a slot for each of its axes. -/
inductive Collects (c : Collector Expr) (s : Span) : List Statement → List Descent → Prop
  | here {block : List Statement} (h : .collect c s ∈ block) : Collects c s block []
  | loop {block inner : List Statement} {way : List Descent} {ranges : List (Binding Expr)} {s' : Span}
      (h : .loop ranges inner s' ∈ block) (inside : Collects c s inner way) : Collects c s block way
  | source {block inner : List Statement} {way : List Descent} {inclusive : Bool} {patterns : List Pattern} {s' : Span}
      (h : .source inclusive patterns inner s' ∈ block) (inside : Collects c s inner way) : Collects c s block way
  | vary {block inner : List Statement} {way : List Descent} {variations : List (Variation Expr)} {v : Variation Expr}
      {s' : Span} (h : .vary variations inner s' ∈ block) (label : v ∈ variations) (inside : Collects c s inner way) :
      Collects c s block (⟨v.name, []⟩ :: way)
  | region {block inner : List Statement} {way : List Descent} {name : Name} {predicate : Option Expr}
      {axes : List (Axis Expr)} {slots : List Slot} {s' : Span} (h : .region name predicate axes inner s' ∈ block)
      (chosen : List.Forall₂ (fun a slot => slot ∈ Axis.slots a) axes slots) (inside : Collects c s inner way) :
      Collects c s block (⟨name, slots⟩ :: way)

/-- In every copy of some children the steps lead to the node of a collector: its empty storage within binnings for its
    axes. -/
def Namespace.Provides (ns : Namespace) (c : Collector Expr) (content : Storage) (way : List Descent) : Prop :=
  ∃ own name wrapped, Node.wrap name (.storage own content) c.axes = .ok wrapped ∧
    ∀ path, (find (Node.childrenLike path ns) way >>= fun ns => ns.entry c.name) =
      .ok (wrapped.zerosLike (path ++ Descent.pathOf way ++ [.field c.name.text]))

namespace Namespace

variable {ns next : Namespace} {c : Collector Expr} {content : Storage} {way : List Descent}

theorem entry_of_get? {n : Name} {node : Node} (h : Dict.get? ns n.text = some node) (path : Path) :
    entry (Node.childrenLike path ns) n = .ok (node.zerosLike (path ++ [.field n.text])) := by
  rw [entry, Node.get?_childrenLike_some h]

/-- Through the slots of some axes a node is found that is within binnings for them. -/
theorem through_wrap {name : Path} {node wrapped : Node} {axes : List (Axis Expr)} {slots : List Slot}
    (fit : List.Forall₂ (fun a slot => slot ∈ Axis.slots a) axes slots) (h : Node.wrap name node axes = .ok wrapped)
    (path : Path) :
    slots.foldlM (fun node slot => Node.slotChild slot node) (wrapped.zerosLike path) =
      .ok (node.zerosLike (path ++ slots.map Slot.segment)) := by
  induction fit generalizing wrapped path with
  | nil =>
    cases h
    simp
    rfl
  | cons first _ ih =>
    obtain ⟨inner, bins, hinner, hbins, rfl⟩ := Node.wrap_cons_eq_ok.mp h
    rw [Axis.slots, ← (Bins.ofCall_eq_ok_iff.mp hbins).count_eq] at first
    rw [Node.binned_eq, Node.zerosLike_binning, List.foldlM_cons, Node.slotChild_binned first, Node.zerosLike_zerosLike]
    refine (ih hinner _).trans ?_
    simp

theorem Within.childrenLike (h : ns.Within next) (path : Path) :
    Within (Node.childrenLike path ns) (Node.childrenLike path next) := by
  intro key node found
  rw [Node.get?_childrenLike] at found ⊢
  obtain ⟨own, hown, rfl⟩ := Option.map_eq_some_iff.mp found
  rw [h key own hown]
  rfl

theorem Within.entry (h : ns.Within next) {n : Name} {node : Node} (found : ns.entry n = .ok node) :
    next.entry n = .ok node := by
  rw [Namespace.entry] at found
  cases hnode : Dict.get? ns n.text with
  | none =>
    rw [hnode] at found
    cases found
  | some own =>
    rw [hnode] at found
    rw [Namespace.entry, h _ _ hnode, found]

theorem Within.find (h : ns.Within next) {n : Name} {node : Node}
    (found : (ns.find way >>= fun ns => ns.entry n) = .ok node) :
    (next.find way >>= fun ns => ns.entry n) = .ok node := by
  cases way with
  | nil => exact h.entry found
  | cons d rest =>
    obtain ⟨inner, found, last⟩ := Outcome.bind_eq_ok.mp found
    rw [Namespace.find, List.foldlM_cons] at found
    obtain ⟨first, step, others⟩ := Outcome.bind_eq_ok.mp found
    obtain ⟨child, entered, below⟩ := Outcome.bind_eq_ok.mp step
    have step : d.find next = .ok first := Outcome.bind_eq_ok.mpr ⟨child, h.entry entered, below⟩
    refine Outcome.bind_eq_ok.mpr ⟨inner, ?_, last⟩
    rw [Namespace.find, List.foldlM_cons, step]
    exact others

theorem Provides.later (h : ns.Provides c content way) (hw : ns.Within next) : next.Provides c content way := by
  obtain ⟨own, name, wrapped, hwrap, found⟩ := h
  exact ⟨own, name, wrapped, hwrap, fun path => (hw.childrenLike path).find (found path)⟩

/-- What a copy provides below one step is provided from where the step begins. -/
theorem Provides.below {d : Descent} {inner : Namespace} (h : inner.Provides c content way)
    (step : ∀ path, ∃ name, (entry (Node.childrenLike path ns) d.name >>= fun node =>
        d.slots.foldlM (fun node slot => node.slotChild slot) node) =
      .ok (.namespace name (Node.childrenLike (path ++ d.path) inner))) : ns.Provides c content (d :: way) := by
  obtain ⟨own, name, wrapped, hwrap, found⟩ := h
  refine ⟨own, name, wrapped, hwrap, fun path => ?_⟩
  obtain ⟨label, reached⟩ := step path
  obtain ⟨node, entered, through⟩ := Outcome.bind_eq_ok.mp reached
  have first : d.find (Node.childrenLike path ns) = .ok (Node.childrenLike (path ++ d.path) inner) :=
    Outcome.bind_eq_ok.mpr ⟨node, entered, Outcome.bind_eq_ok.mpr ⟨_, through, rfl⟩⟩
  have rest := found (path ++ d.path)
  rw [Namespace.find, List.foldlM_cons, first, Descent.pathOf_cons, ← List.append_assoc path]
  exact rest

end Namespace

/-! ### What a program declares -/

variable {most : Nat} {c : Collector Expr} {s : Span}

/-- What a statement of a block declares is there, and stays when the others are declared. -/
theorem exists_declare_of_mem {name : Path} {t : Statement} : ∀ {block : List Statement} {ns declared : Namespace},
    Statement.WellFormedBlock most block → declareBlock name ns block = .ok declared → t ∈ block →
      t.WellFormed most ∧ ∃ before after, t.declare name before = .ok after ∧ after.Within declared
  | t' :: rest, ns, declared, ⟨wf, wfRest⟩, h, ht => by
    obtain ⟨next, hnext, hrest⟩ := declareBlock_cons_eq_ok.mp h
    rcases List.mem_cons.mp ht with rfl | ht
    · exact ⟨wf, ns, next, hnext, (fitsBlock_declare wfRest hrest).1⟩
    · exact exists_declare_of_mem wfRest hrest ht

theorem mem_leavesOf {t : Statement} {l : Leaf} : ∀ {block : List Statement}, t ∈ block → l ∈ t.leaves → l ∈ leavesOf block
  | t' :: rest, ht, hl => by
    rw [leavesOf, List.mem_append]
    rcases List.mem_cons.mp ht with rfl | ht
    · exact .inl hl
    · exact .inr (mem_leavesOf ht hl)

theorem Axis.mem_choices {axes : List (Axis Expr)} {slots : List Slot}
    (h : List.Forall₂ (fun a slot => slot ∈ Axis.slots a) axes slots) : slots.map Slot.segment ∈ choices axes := by
  induction h with
  | nil => exact List.mem_singleton_self _
  | cons first _ ih => exact List.mem_flatMap.mpr ⟨_, first, List.mem_map_of_mem ih⟩

/-- Wherever a collector stands in a block, what the block declares has its storage there. -/
theorem Collects.provides {block : List Statement} {way : List Descent} (h : Collects c s block way) :
    ∀ {name : Path} {ns declared : Namespace}, Statement.WellFormedBlock most block →
      declareBlock name ns block = .ok declared →
        c.WellFormed most ∧ ∃ content, Storage.ofCollector c s = .ok content ∧ declared.Provides c content way := by
  induction h with
  | here h =>
    intro name ns declared wf hd
    obtain ⟨wf, before, after, hs, hw⟩ := exists_declare_of_mem wf hd h
    obtain ⟨content, wrapped, hcontent, hwrapped, hs⟩ := Statement.declare_collect_eq_ok.mp hs
    have found := hw _ _ (Namespace.within_declare hs).2
    refine ⟨wf, content, hcontent, _, _, wrapped, hwrapped, fun path => ?_⟩
    rw [Descent.pathOf_nil, List.append_nil]
    exact Namespace.entry_of_get? found path
  | loop h _ ih =>
    intro name ns declared wf hd
    obtain ⟨⟨_, _, wf⟩, before, after, hs, hw⟩ := exists_declare_of_mem wf hd h
    rw [Statement.declare] at hs
    obtain ⟨wf, content, hcontent, provides⟩ := ih wf hs
    exact ⟨wf, content, hcontent, provides.later hw⟩
  | source h _ ih =>
    intro name ns declared wf hd
    obtain ⟨⟨_, wf⟩, before, after, hs, hw⟩ := exists_declare_of_mem wf hd h
    rw [Statement.declare] at hs
    obtain ⟨wf, content, hcontent, provides⟩ := ih wf hs
    exact ⟨wf, content, hcontent, provides.later hw⟩
  | @vary _ _ _ _ v _ h label _ ih =>
    intro name ns declared wf hd
    obtain ⟨⟨_, _, wf⟩, before, after, hs, hw⟩ := exists_declare_of_mem wf hd h
    obtain ⟨inner, hinner, hs⟩ := Statement.declare_vary_eq_ok.mp hs
    obtain ⟨wf, content, hcontent, provides⟩ := ih wf hinner
    obtain ⟨own, found⟩ := (Namespace.within_declareVariations hs).2 _ label
    refine ⟨wf, content, hcontent, provides.below fun path => ⟨path ++ [.field v.name.text], ?_⟩⟩
    rw [Namespace.entry_of_get? (hw _ _ found) path, Node.zerosLike, Node.childrenLike_childrenLike]
    rfl
  | @region _ _ _ n _ _ slots _ h chosen _ ih =>
    intro name ns declared wf hd
    obtain ⟨⟨_, _, wf⟩, before, after, hs, hw⟩ := exists_declare_of_mem wf hd h
    obtain ⟨inner, wrapped, hinner, hwrapped, hs⟩ := Statement.declare_region_eq_ok.mp hs
    obtain ⟨wf, content, hcontent, provides⟩ := ih wf hinner
    have found := hw _ _ (Namespace.within_declare hs).2
    refine ⟨wf, content, hcontent, provides.below fun path => ?_⟩
    refine ⟨path ++ Descent.path ⟨n, slots⟩, ?_⟩
    refine Outcome.bind_eq_ok.mpr ⟨_, Namespace.entry_of_get? found path, ?_⟩
    rw [Namespace.through_wrap chosen hwrapped, Node.zerosLike, List.append_assoc]
    rfl

/-- Wherever a collector stands in a text, its storages are among the leaves of the text. -/
theorem Collects.leaf {block : List Statement} {way : List Descent} (h : Collects c s block way) {slots : Path}
    (hslots : slots ∈ Axis.choices c.axes) :
    ⟨Descent.pathOf way ++ .field c.name.text :: slots, c.statistic, c.expression⟩ ∈ leavesOf block := by
  induction h with
  | here h => exact mem_leavesOf h (List.mem_map_of_mem hslots)
  | loop h _ ih => exact mem_leavesOf h ih
  | source h _ ih => exact mem_leavesOf h ih
  | vary h label _ ih => exact mem_leavesOf h (List.mem_flatMap.mpr ⟨_, label, List.mem_map.mpr ⟨_, ih, rfl⟩⟩)
  | @region _ _ _ n _ _ taken _ h chosen _ ih =>
    refine mem_leavesOf h (List.mem_flatMap.mpr ⟨_, Axis.mem_choices chosen, List.mem_map.mpr ⟨_, ih, ?_⟩⟩)
    rw [Leaf.below, Descent.pathOf_cons, List.append_assoc]
    rfl

end RecordStats
