import RecordStats.Proofs.Outcome
import RecordStats.Proofs.Tree.Placed
import RecordStats.Tree.Declaration

/-! What a declaration builds: storages without entries, namespaces of what is declared in them, and binnings
    whose children are copies of one template. Such a tree is its own copy, and it is placed when no binning
    has more bins than there are indices. -/

namespace RecordStats

/-! ### What is declared -/

theorem Node.wrap_cons_eq_ok {name : Path} {node wrapped : Node} {axis : Axis Expr} {rest : List (Axis Expr)} :
    Node.wrap name node (axis :: rest) = .ok wrapped ↔
      ∃ inner bins, Node.wrap name node rest = .ok inner ∧ Bins.ofCall axis.binning = .ok bins ∧
        .binned name bins axis.expression inner = wrapped := by
  rw [Node.wrap]
  constructor
  · intro h
    obtain ⟨inner, hinner, h⟩ := Outcome.bind_eq_ok.mp h
    obtain ⟨bins, hbins, h⟩ := Outcome.bind_eq_ok.mp h
    exact ⟨inner, bins, hinner, hbins, Except.ok.inj h⟩
  · rintro ⟨inner, bins, hinner, hbins, rfl⟩
    exact Outcome.bind_eq_ok.mpr ⟨inner, hinner, Outcome.bind_eq_ok.mpr ⟨bins, hbins, rfl⟩⟩

theorem Namespace.declareVariations_cons_eq_ok {ns declared block : Namespace} {name : Path} {v : Variation Expr}
    {rest : List (Variation Expr)} :
    ns.declareVariations name block (v :: rest) = .ok declared ↔
      ∃ next, ns.declare v.name (.namespace (name ++ [.field v.name.text])
        (Node.childrenLike (name ++ [.field v.name.text]) block)) = .ok next ∧
          next.declareVariations name block rest = .ok declared :=
  Outcome.bind_eq_ok

namespace Statement

variable {name : Path} {ns declared : Namespace} {block : List Statement} {s : Span}

theorem declare_collect_eq_ok {c : Collector Expr} :
    (collect c s).declare name ns = .ok declared ↔
      ∃ content node, Storage.ofCollector c s = .ok content ∧
        Node.wrap (name ++ [.field c.name.text]) (.storage (name ++ [.field c.name.text]) content) c.axes = .ok node ∧
          ns.declare c.name node = .ok declared := by
  rw [declare]
  constructor
  · intro h
    obtain ⟨content, hcontent, h⟩ := Outcome.bind_eq_ok.mp h
    obtain ⟨node, hnode, h⟩ := Outcome.bind_eq_ok.mp h
    exact ⟨content, node, hcontent, hnode, h⟩
  · rintro ⟨content, node, hcontent, hnode, h⟩
    exact Outcome.bind_eq_ok.mpr ⟨content, hcontent, Outcome.bind_eq_ok.mpr ⟨node, hnode, h⟩⟩

theorem declare_region_eq_ok {n : Name} {predicate : Option Expr} {axes : List (Axis Expr)} :
    (region n predicate axes block s).declare name ns = .ok declared ↔
      ∃ inner node, declareBlock (name ++ [.field n.text]) [] block = .ok inner ∧
        Node.wrap (name ++ [.field n.text]) (.namespace (name ++ [.field n.text]) inner) axes = .ok node ∧
          ns.declare n node = .ok declared := by
  rw [declare]
  constructor
  · intro h
    obtain ⟨inner, hinner, h⟩ := Outcome.bind_eq_ok.mp h
    obtain ⟨node, hnode, h⟩ := Outcome.bind_eq_ok.mp h
    exact ⟨inner, node, hinner, hnode, h⟩
  · rintro ⟨inner, node, hinner, hnode, h⟩
    exact Outcome.bind_eq_ok.mpr ⟨inner, hinner, Outcome.bind_eq_ok.mpr ⟨node, hnode, h⟩⟩

theorem declare_vary_eq_ok {variations : List (Variation Expr)} :
    (vary variations block s).declare name ns = .ok declared ↔
      ∃ inner, declareBlock name [] block = .ok inner ∧ ns.declareVariations name inner variations = .ok declared := by
  rw [declare]
  exact Outcome.bind_eq_ok

end Statement

theorem declareBlock_cons_eq_ok {name : Path} {ns declared : Namespace} {s : Statement} {rest : List Statement} :
    declareBlock name ns (s :: rest) = .ok declared ↔
      ∃ next, s.declare name ns = .ok next ∧ declareBlock name next rest = .ok declared := by
  rw [declareBlock]
  exact Outcome.bind_eq_ok

/-! ### The axes of a block -/

mutual

/-- All axes that a statement declares. -/
def Statement.declaredAxes : Statement → List (Axis Expr)
  | .collect c _ => c.axes
  | .region _ _ axes block _ => axes ++ declaredAxesOf block
  | .vary _ block _ => declaredAxesOf block
  | .loop _ block _ => declaredAxesOf block
  | .source _ _ block _ => declaredAxesOf block
  | .define _ _ _ => []
  | .function _ _ _ _ => []
  | .result _ _ => []

/-- All axes that the statements of a block declare. -/
def declaredAxesOf : List Statement → List (Axis Expr)
  | [] => []
  | s :: rest => s.declaredAxes ++ declaredAxesOf rest

end

namespace Node

/-- The node is what a declaration makes under a name, with binnings of good bins only. -/
inductive Built (good : Bins Float → Prop) : Path → Node → Prop where
  | storage (name : Path) {content : Storage} (empty : content.zero = content) : Built good name (.storage name content)
  | children (name : Path) {children : Dict Node} (sorted : children.Sorted)
      (built : ∀ c ∈ children, Built good (name ++ [.field c.1]) c.2) :
      Built good name (.namespace name children)
  | binned (name : Path) {bins : Bins Float} (axis : Expr) {old : Path} {template : Node} (ok : good bins)
      (built : Built good old template) : Built good name (.binned name bins axis template)

variable {good : Bins Float → Prop} {name : Path}

/-- What is built under one name can be copied to another. -/
theorem Built.zerosLike {old : Path} {node : Node} (h : Built good old node) (name : Path) :
    Built good name (node.zerosLike name) := by
  induction h generalizing name with
  | storage old empty =>
    rw [Node.zerosLike]
    exact .storage name (Storage.zero_zero _)
  | children old sorted built ih =>
    rw [Node.zerosLike]
    refine .children name (sorted_childrenLike.mpr sorted) fun c hc => ?_
    rw [childrenLike_eq_map] at hc
    obtain ⟨d, hd, rfl⟩ := List.mem_map.mp hc
    exact ih d hd _
  | binned old axis ok built ih =>
    rw [binned_eq, zerosLike_binning]
    exact .binned name axis ok (ih _)

/-- What is built is its own copy. -/
theorem Built.zerosLike_eq {node : Node} (h : Built good name node) : node.zerosLike name = node := by
  induction h with
  | storage name empty => rw [Node.zerosLike, empty]
  | @children name children sorted built ih =>
    have copied : childrenLike name children = children := by
      rw [childrenLike_eq_map]
      refine (List.map_congr_left fun c hc => ?_).trans (List.map_id children)
      rw [ih c hc]
      rfl
    rw [Node.zerosLike, copied]
  | binned name axis ok built ih =>
    rw [binned_eq, zerosLike_binning, binned_eq]
    simp only [zerosLike_zerosLike]

/-- All nodes of a copy of what is built are built themselves. -/
theorem Built.of_mem_zerosLike {old : Path} {node : Node} (h : Built good old node) (name : Path) :
    ∀ n ∈ nodes (node.zerosLike name), Built good n.name n := by
  induction h generalizing name with
  | storage old empty =>
    intro n hn
    rw [Node.zerosLike, nodes] at hn
    obtain rfl := List.mem_singleton.mp hn
    exact .storage name (Storage.zero_zero _)
  | @children old children sorted built ih =>
    have whole := (Built.children old sorted built).zerosLike name
    intro n hn
    rw [Node.zerosLike] at hn whole
    rw [nodes] at hn
    rcases List.mem_cons.mp hn with rfl | hn
    · exact whole
    · obtain ⟨c, hc, hn⟩ := mem_nodesOfChildren.mp hn
      rw [childrenLike_eq_map] at hc
      obtain ⟨d, hd, rfl⟩ := List.mem_map.mp hc
      exact ih d hd _ n hn
  | @binned old bins axis _ template ok built ih =>
    have whole := (Built.binned old axis ok built).zerosLike name
    intro n hn
    rw [binned_eq, zerosLike_binning, binned_eq] at hn whole
    simp only [zerosLike_zerosLike] at hn whole
    rw [nodes] at hn
    rcases List.mem_cons.mp hn with rfl | hn
    · exact whole
    simp only [List.mem_append, mem_nodesOfValues, List.mem_map] at hn
    rcases hn with ⟨_, ⟨i, -, rfl⟩, hn⟩ | hn | hn | hn
    all_goals exact ih _ n hn

/-- All nodes of what is built are built themselves. -/
theorem Built.of_mem_nodes {node : Node} (h : Built good name node) : ∀ n ∈ nodes node, Built good n.name n := by
  have copies := h.of_mem_zerosLike name
  rwa [h.zerosLike_eq] at copies

/-- What is built stands where it is named. -/
theorem Built.placed {node : Node} (h : Built (fun bins => bins.count ≤ Bins.mostCount) name node) :
    Placed name node := by
  induction h with
  | storage name empty => rw [Placed]
  | children name sorted built ih =>
    rw [Placed]
    exact ⟨rfl, sorted, placedChildren_iff.mpr ih⟩
  | binned name axis few built ih => exact placed_binned few (placed_zerosLike ih)

end Node

/-! ### Declarations -/

/-- The children of a namespace are what a declaration makes. -/
structure Namespace.Built (good : Bins Float → Prop) (name : Path) (ns : Namespace) : Prop where
  sorted : Dict.Sorted ns
  children : ∀ c ∈ ns, Node.Built good (name ++ [.field c.1]) c.2

/-- The axes make good bins where they make bins at all. -/
def Axis.AllGood (good : Bins Float → Prop) (axes : List (Axis Expr)) : Prop :=
  ∀ a ∈ axes, ∀ bins, Bins.ofCall a.binning = .ok bins → good bins

namespace Namespace

variable {good : Bins Float → Prop} {name : Path} {ns declared : Namespace}

theorem Built.nil : Built good name [] where
  sorted := Dict.sorted_nil
  children := fun c hc => by cases hc

theorem Built.node (h : Built good name ns) : Node.Built good name (.namespace name ns) :=
  .children name h.sorted h.children

/-- A declaration of a node that is built under its key keeps the namespace built. -/
theorem Built.declare {own : Name} {node : Node} (h : Built good name ns)
    (hnode : Node.Built good (name ++ [.field own.text]) node) (hd : ns.declare own node = .ok declared) :
    Built good name declared := by
  unfold Namespace.declare at hd
  split at hd
  · exact absurd hd Outcome.failAt_ne_ok
  · cases hd
    refine ⟨Dict.sorted_insert h.sorted _ _, fun c hc => ?_⟩
    rcases Dict.mem_insert hc with rfl | hc
    · exact hnode
    · exact h.children c hc

theorem Built.declareVariations {block : Namespace} (hblock : Built good name block) :
    ∀ {variations : List (Variation Expr)} {ns declared : Namespace}, Built good name ns →
      ns.declareVariations name block variations = .ok declared → Built good name declared
  | [], _, _, h, hd => by
    cases hd
    exact h
  | v :: rest, ns, declared, h, hd => by
    obtain ⟨next, hnext, hd⟩ := Namespace.declareVariations_cons_eq_ok.mp hd
    have copy := hblock.node.zerosLike (name ++ [.field v.name.text])
    rw [Node.zerosLike] at copy
    exact declareVariations hblock (h.declare copy hnext) hd

end Namespace

theorem Node.Built.wrap {good : Bins Float → Prop} {name : Path} {node : Node} (h : Built good name node) :
    ∀ {axes : List (Axis Expr)} {wrapped : Node}, Axis.AllGood good axes →
      Node.wrap name node axes = .ok wrapped → Built good name wrapped
  | [], _, _, hw => by
    cases hw
    exact h
  | axis :: rest, wrapped, hgood, hw => by
    obtain ⟨inner, bins, hinner, hbins, rfl⟩ := Node.wrap_cons_eq_ok.mp hw
    have built := wrap h (fun a ha => hgood a (List.mem_cons_of_mem _ ha)) hinner
    exact .binned name axis.expression (hgood axis List.mem_cons_self bins hbins) built

theorem Storage.zero_ofCollector {c : Collector Expr} {s : Span} {content : Storage}
    (h : Storage.ofCollector c s = .ok content) : content.zero = content := by
  unfold Storage.ofCollector at h
  split at h <;> first | exact absurd h Outcome.failAt_ne_ok | (cases h; rfl)

variable {good : Bins Float → Prop}

mutual

/-- A declaration keeps a namespace built. -/
theorem Statement.declare_built {name : Path} {ns declared : Namespace} :
    ∀ {s : Statement}, Axis.AllGood good s.declaredAxes → ns.Built good name →
      s.declare name ns = .ok declared → declared.Built good name
  | .collect c s, hgood, h, hd => by
    obtain ⟨content, node, hcontent, hnode, hd⟩ := Statement.declare_collect_eq_ok.mp hd
    have leaf : Node.Built good (name ++ [.field c.name.text]) (.storage _ content) :=
      .storage _ (Storage.zero_ofCollector hcontent)
    exact h.declare (leaf.wrap hgood hnode) hd
  | .region n predicate axes block s, hgood, h, hd => by
    rw [Statement.declaredAxes] at hgood
    obtain ⟨inner, node, hinner, hnode, hd⟩ := Statement.declare_region_eq_ok.mp hd
    have built := declareBlock_built (fun a ha => hgood a (List.mem_append_right _ ha)) .nil hinner
    exact h.declare (built.node.wrap (fun a ha => hgood a (List.mem_append_left _ ha)) hnode) hd
  | .vary variations block s, hgood, h, hd => by
    rw [Statement.declaredAxes] at hgood
    obtain ⟨inner, hinner, hd⟩ := Statement.declare_vary_eq_ok.mp hd
    exact (declareBlock_built hgood .nil hinner).declareVariations h hd
  | .loop ranges block s, hgood, h, hd => by
    rw [Statement.declaredAxes] at hgood
    rw [Statement.declare] at hd
    exact declareBlock_built hgood h hd
  | .source inclusive patterns block s, hgood, h, hd => by
    rw [Statement.declaredAxes] at hgood
    rw [Statement.declare] at hd
    exact declareBlock_built hgood h hd
  | .define _ _ _, _, h, hd => by
    cases hd
    exact h
  | .function _ _ _ _, _, h, hd => by
    cases hd
    exact h
  | .result _ _, _, h, hd => by
    cases hd
    exact h

theorem declareBlock_built {name : Path} :
    ∀ {block : List Statement} {ns declared : Namespace}, Axis.AllGood good (declaredAxesOf block) →
      ns.Built good name → declareBlock name ns block = .ok declared → declared.Built good name
  | [], _, _, _, h, hd => by
    cases hd
    exact h
  | s :: rest, ns, declared, hgood, h, hd => by
    rw [declaredAxesOf] at hgood
    obtain ⟨next, hnext, hd⟩ := declareBlock_cons_eq_ok.mp hd
    have built := Statement.declare_built (fun a ha => hgood a (List.mem_append_left _ ha)) h hnext
    exact declareBlock_built (fun a ha => hgood a (List.mem_append_right _ ha)) built hd

end

/-- Every node of the tree that a program declares is its own copy. -/
theorem Program.zerosLike_of_mem_tree {p : Program} {tree : Namespace} (h : p.tree = .ok tree) {n : Node}
    (hn : n ∈ Node.nodesOfChildren tree) : n.zerosLike n.name = n := by
  have built : tree.Built (fun _ => True) [] := declareBlock_built (fun _ _ _ _ => trivial) .nil h
  obtain ⟨c, hc, hn⟩ := Node.mem_nodesOfChildren.mp hn
  exact ((built.children c hc).of_mem_nodes n hn).zerosLike_eq

/-- The tree that a program declares is its own copy. -/
theorem Program.childrenLike_tree {p : Program} {tree : Namespace} (h : p.tree = .ok tree) :
    Node.childrenLike [] tree = tree := by
  have built : tree.Built (fun _ => True) [] := declareBlock_built (fun _ _ _ _ => trivial) .nil h
  have copied := built.node.zerosLike_eq
  rw [Node.zerosLike] at copied
  exact (Node.namespace.inj copied).2

/-- The tree that a program declares is placed when none of its binnings has too many bins. -/
theorem Program.placed_tree {p : Program} {tree : Namespace}
    (few : Axis.AllGood (fun bins => bins.count ≤ Bins.mostCount) (declaredAxesOf p.block)) (h : p.tree = .ok tree) :
    Node.Placed [] (.namespace [] tree) :=
  (declareBlock_built few .nil h).node.placed

end RecordStats
