import RecordStats.Proofs.Outcome
import RecordStats.Proofs.Program.Names
import RecordStats.Proofs.Record.Entries
import RecordStats.Proofs.Record.Interruption

/-! Where fills arrive. A statement fills storages of the tree, and among them only such as stand below the names that
    the statement declares. -/

namespace RecordStats

variable {call : Caller} {tag : Option String} {scope : Scope}

/-! ### Storages that a record reaches -/

namespace Node

theorem mem_nodes_self (node : Node) : node ∈ nodes node := by
  cases node <;> simp [nodes]

theorem mem_nodes_of_slotChild {node next n : Node} {slot : Slot} (h : node.slotChild slot = .ok next)
    (hn : n ∈ nodes next) : n ∈ nodes node := by
  cases node with
  | binning name bins axis values u o v =>
    rw [nodes]
    simp only [List.mem_cons, List.mem_append, mem_nodesOfValues]
    cases slot with
    | bin i => exact .inr (.inl ⟨next, List.mem_of_getElem? (slotChild_bin.mp h), hn⟩)
    | underflow =>
      cases h
      exact .inr (.inr (.inl hn))
    | overflow =>
      cases h
      exact .inr (.inr (.inr (.inl hn)))
    | nanflow =>
      cases h
      exact .inr (.inr (.inr (.inr hn)))
  | _ => cases h

/-- What a record reaches through some binnings stands under the path that it has taken. -/
theorem descend_reach {blame : Span} {axes : Nat} : ∀ {path below : Path} {node found : Node}, Placed path node →
    node.descend call scope blame path axes = .ok (below, found) →
      Placed below found ∧ ∀ n ∈ nodes found, n ∈ nodes node := by
  induction axes with
  | zero =>
    intro path below node found hp h
    cases h
    exact ⟨hp, fun n hn => hn⟩
  | succ axes ih =>
    intro path below node found hp h
    cases node with
    | binning name bins axis values u o v =>
      cases hslot : bins.slot call scope axis with
      | error stop =>
        rw [descend_error hslot] at h
        cases h
      | ok slot =>
        rw [descend_ok hslot] at h
        obtain ⟨next, hnext, h⟩ := Outcome.bind_eq_ok.mp h
        obtain ⟨placed, inside⟩ := ih (hp.slotChild hnext) h
        exact ⟨placed, fun n hn => mem_nodes_of_slotChild hnext (inside n hn)⟩
    | _ => cases h

mutual

/-- The storage that a record reaches is there. -/
theorem target_reach : ∀ {path below : Path} {sample : Sample} {node : Node}, Placed path node →
    node.target call scope path = .ok (below, sample) → ∃ content, storage below content ∈ nodes node
  | path, below, sample, storage own content, hp, h => by
    rw [target] at h
    obtain ⟨_, -, h⟩ := Outcome.bind_eq_ok.mp h
    cases h
    cases hp
    exact ⟨content, mem_nodes_self _⟩
  | path, below, sample, binning own bins axis values u o v, hp, h => by
    have inside : ∀ slot next, slotChild slot (binning own bins axis values u o v) = .ok next →
        ∀ {path}, Placed path next → next.target call scope path = .ok (below, sample) →
          ∃ content, storage below content ∈ nodes next := by
      intro slot next hchild path hp h
      cases slot with
      | bin i => exact target_reach_values values next (List.mem_of_getElem? (slotChild_bin.mp hchild)) hp h
      | underflow =>
        cases hchild
        exact target_reach hp h
      | overflow =>
        cases hchild
        exact target_reach hp h
      | nanflow =>
        cases hchild
        exact target_reach hp h
    cases hslot : bins.slot call scope axis with
    | error stop =>
      rw [target_error hslot] at h
      cases h
    | ok slot =>
      rw [target_ok hslot] at h
      obtain ⟨next, hnext, h⟩ := Outcome.bind_eq_ok.mp h
      obtain ⟨content, hmem⟩ := inside slot next hnext (hp.slotChild hnext) h
      exact ⟨content, mem_nodes_of_slotChild hnext hmem⟩
  | path, below, sample, .namespace own children, _, h => by
    rw [target] at h
    cases h

theorem target_reach_values : ∀ (values : List Node), ∀ node ∈ values, ∀ {path below : Path} {sample : Sample},
    Placed path node → node.target call scope path = .ok (below, sample) → ∃ content, storage below content ∈ nodes node
  | [] => fun _ h => by cases h
  | first :: rest => List.forall_mem_cons.mpr ⟨fun {_ _ _} hp h => target_reach hp h, target_reach_values rest⟩

end

theorem children_eq_ok {cause : Cause} {s : Span} {node : Node} {children : Namespace}
    (h : node.children cause s = .ok children) : ∃ name, node = .namespace name children := by
  cases node with
  | «namespace» name own =>
    cases h
    exact ⟨name, rfl⟩
  | _ => cases h

end Node

theorem Namespace.entry_eq_ok {ns : Namespace} {name : Name} {node : Node} (h : ns.entry name = .ok node) :
    (name.text, node) ∈ ns := by
  unfold Namespace.entry at h
  split at h
  · next found =>
    cases h
    exact Dict.mem_of_get? found
  · exact absurd h Outcome.failAt_ne_ok

theorem Namespace.vary_eq_ok {ns children : Namespace} {v : Variation Expr} {inner : Scope}
    (h : ns.vary call scope v = .ok (inner, children)) :
    ∃ name, (v.name.text, Node.namespace name children) ∈ ns := by
  rw [Namespace.vary] at h
  obtain ⟨_, -, h⟩ := Outcome.bind_eq_ok.mp h
  obtain ⟨node, hnode, h⟩ := Outcome.bind_eq_ok.mp h
  obtain ⟨_, hchildren, h⟩ := Outcome.bind_eq_ok.mp h
  cases h
  obtain ⟨name, rfl⟩ := Node.children_eq_ok hchildren
  exact ⟨name, Namespace.entry_eq_ok hnode⟩

/-- The namespace of a region that a record reaches is a part of the region's node. -/
theorem Namespace.reach_eq_ok {ns children : Namespace} {path below : Path} {name : Name} {axes : Nat}
    (hp : Node.PlacedChildren path ns) (h : ns.reach call scope path name axes = .ok (below, children)) :
    ∃ own node, (name.text, node) ∈ ns ∧ Node.Placed below (.namespace own children) ∧
      ∀ n ∈ Node.nodes (.namespace own children), n ∈ Node.nodes node := by
  rw [Namespace.reach] at h
  obtain ⟨node, hnode, h⟩ := Outcome.bind_eq_ok.mp h
  obtain ⟨⟨path, found⟩, hfound, h⟩ := Outcome.bind_eq_ok.mp h
  obtain ⟨_, hchildren, h⟩ := Outcome.bind_eq_ok.mp h
  cases h
  obtain ⟨own, rfl⟩ := Node.children_eq_ok hchildren
  have hmem := Namespace.entry_eq_ok hnode
  obtain ⟨placed, inside⟩ := Node.descend_reach (Node.placedChildren_iff.mp hp _ hmem) hfound
  exact ⟨own, node, hmem, placed, inside⟩

/-! ### Statements and what they fill -/

theorem mem_fills_runTurns {block : Scope → Trace Scope} {f : Fill} : ∀ {rows : List (List (String × Value))},
    f ∈ (runTurns block scope rows).fills → ∃ inner, f ∈ (block inner).fills
  | [], h => nomatch h
  | row :: rest, h => by
    rw [runTurns] at h
    rcases Trace.mem_fills_bind h with h | ⟨_, -, h⟩
    · exact ⟨_, h⟩
    · exact mem_fills_runTurns h

theorem mem_fills_runVariations {block : Path → Namespace → Scope → Trace Scope} {path : Path} {ns : Namespace}
    {f : Fill} : ∀ {vs : List (Variation Expr)}, f ∈ (runVariations call block path ns scope vs).fills →
      ∃ v ∈ vs, ∃ name inner children, (v.name.text, .namespace name children) ∈ ns ∧
        f ∈ (block (path ++ [.field v.name.text]) children inner).fills
  | [], h => nomatch h
  | v :: rest, h => by
    rw [runVariations_cons] at h
    obtain ⟨⟨inner, children⟩, begun, h⟩ := Trace.mem_fills_ofOutcome_bind h
    rcases Trace.mem_fills_bind h with h | ⟨_, -, h⟩
    · obtain ⟨name, hmem⟩ := Namespace.vary_eq_ok begun
      exact ⟨v, List.mem_cons_self, name, inner, children, hmem, h⟩
    · obtain ⟨w, hw, found⟩ := mem_fills_runVariations h
      exact ⟨w, List.mem_cons_of_mem _ hw, found⟩

/-- The storage of a name stands below one of some keys of a namespace. -/
def Namespace.Stores (ns : Namespace) (keys : List String) (path : Path) : Prop :=
  ∃ c ∈ ns, c.1 ∈ keys ∧ ∃ content, .storage path content ∈ Node.nodes c.2

namespace Namespace.Stores

variable {ns : Namespace} {keys others : List String} {path : Path}

theorem mono (h : ns.Stores keys path) (hk : ∀ key ∈ keys, key ∈ others) : ns.Stores others path := by
  obtain ⟨c, hc, hkey, stored⟩ := h
  exact ⟨c, hc, hk _ hkey, stored⟩

/-- What is stored below the children of a node is stored below the node. -/
theorem inside {children : Namespace} {name : Path} {key : String} {node : Node} (h : children.Stores others path)
    (hns : (key, node) ∈ ns) (hkey : key ∈ keys)
    (below : ∀ n ∈ Node.nodes (.namespace name children), n ∈ Node.nodes node) : ns.Stores keys path := by
  obtain ⟨c, hc, -, content, hn⟩ := h
  refine ⟨(key, node), hns, hkey, content, below _ ?_⟩
  rw [Node.nodes]
  exact List.mem_cons_of_mem _ (Node.mem_nodesOfChildren.mpr ⟨c, hc, hn⟩)

/-- Below different keys there are different storages. -/
theorem disjoint {name : Path} (hp : Node.PlacedChildren name ns) (apart : keys.Disjoint others)
    (h : ns.Stores keys path) : ¬ns.Stores others path := by
  rintro ⟨d, hd, hother, _, hm⟩
  obtain ⟨c, hc, hkey, _, hn⟩ := h
  obtain ⟨left, hl⟩ := (Node.placedChildren_iff.mp hp c hc).prefix_of_mem hn
  obtain ⟨right, hr⟩ := (Node.placedChildren_iff.mp hp d hd).prefix_of_mem hm
  have names : name ++ .field c.1 :: left = name ++ .field d.1 :: right := by
    rw [List.append_assoc] at hl hr
    exact hl.symm.trans hr
  have key := Segment.field.inj (List.cons.inj (List.append_cancel_left names)).1
  exact apart hkey (key ▸ hother)

end Namespace.Stores

mutual

/-- A statement fills storages below the names that it declares. -/
theorem Statement.fills_reach : ∀ {s : Statement} {path : Path} {ns : Namespace} {scope : Scope} {f : Fill},
    Node.PlacedChildren path ns → f ∈ (s.run call tag path ns scope).fills → ns.Stores s.declaredNames f.path
  | .collect c s, path, ns, scope, f, hp, h => by
    rw [Statement.run] at h
    obtain ⟨g, hg, h⟩ := Trace.mem_fills_ofOutcome_bind h
    obtain rfl := List.mem_singleton.mp (Trace.fills_bind_pure (Trace.fill g) scope ▸ h)
    obtain ⟨_, -, hg⟩ := Outcome.bind_eq_ok.mp hg
    obtain ⟨node, hnode, hg⟩ := Outcome.bind_eq_ok.mp hg
    obtain ⟨⟨below, sample⟩, htarget, hg⟩ := Outcome.bind_eq_ok.mp hg
    cases hg
    have hmem := Namespace.entry_eq_ok hnode
    have stored := Node.target_reach (Node.placedChildren_iff.mp hp _ hmem) htarget
    exact ⟨_, hmem, List.mem_cons_self, stored⟩
  | .loop ranges block s, path, ns, scope, f, hp, h => by
    rw [Statement.run] at h
    obtain ⟨rows, -, h⟩ := Trace.mem_fills_ofOutcome_bind h
    rw [Trace.fills_bind_pure] at h
    obtain ⟨inner, h⟩ := mem_fills_runTurns h
    exact fills_reach_block hp h
  | .vary variations block s, path, ns, scope, f, hp, h => by
    rw [Statement.run, Trace.fills_bind_pure] at h
    obtain ⟨v, hv, name, inner, children, hmem, h⟩ := mem_fills_runVariations h
    obtain ⟨-, -, placed⟩ := Node.placedChildren_iff.mp hp _ hmem
    exact (fills_reach_block placed h).inside hmem (List.mem_map_of_mem hv) fun n hn => hn
  | .region name predicate axes block s, path, ns, scope, f, hp, h => by
    rw [run_region_eq] at h
    obtain ⟨taken, -, h⟩ := Trace.mem_fills_ofOutcome_bind h
    split at h
    · obtain ⟨⟨below, children⟩, hreach, h⟩ := Trace.mem_fills_ofOutcome_bind h
      rw [Trace.fills_bind_pure] at h
      obtain ⟨own, node, hmem, ⟨-, -, placed⟩, inside⟩ := Namespace.reach_eq_ok hp hreach
      exact (fills_reach_block placed h).inside hmem List.mem_cons_self inside
    · cases h
  | .source inclusive patterns block s, path, ns, scope, f, hp, h => by
    rw [Statement.run] at h
    split at h
    · exact fills_reach_block hp h
    · cases h
  | .define _ _ _, _, _, _, _, _, h => nomatch h
  | .function _ _ _ _, _, _, _, _, _, h => nomatch h
  | .result _ _, _, _, _, _, _, h => nomatch h

/-- A block fills storages below the names that its statements declare. -/
theorem fills_reach_block : ∀ {block : List Statement} {path : Path} {ns : Namespace} {scope : Scope} {f : Fill},
    Node.PlacedChildren path ns → f ∈ (runBlock call tag path ns scope block).fills →
      ns.Stores (declaredNamesOf block) f.path
  | [], _, _, _, _, _, h => nomatch h
  | s :: rest, path, ns, scope, f, hp, h => by
    rw [runBlock] at h
    rw [declaredNamesOf]
    rcases Trace.mem_fills_bind h with h | ⟨next, -, h⟩
    · exact (Statement.fills_reach hp h).mono fun key => List.mem_append_left _
    · exact (fills_reach_block hp h).mono fun key => List.mem_append_right _

end

/-- Every fill of a block is one of a storage of the tree. -/
theorem mem_leafNames_of_fills {block : List Statement} {tree : Namespace} {f : Fill}
    (hp : Node.PlacedChildren [] tree) (h : f ∈ (runBlock call tag [] tree scope block).fills) :
    f.path ∈ tree.leafNames := by
  obtain ⟨c, hc, -, content, hn⟩ := fills_reach_block hp h
  exact Namespace.mem_leafNames.mpr ⟨content, Node.mem_nodesOfChildren.mpr ⟨c, hc, hn⟩⟩

end RecordStats
