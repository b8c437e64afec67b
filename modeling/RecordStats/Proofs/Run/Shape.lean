import RecordStats.Evaluation.Call
import RecordStats.Proofs.Program.Axes
import RecordStats.Proofs.Run.Reachable
import RecordStats.Proofs.Tree.Leaves
import RecordStats.Proofs.Tree.Lookup

/-! The tree of a run in use. Its structure is the one that the program has declared, and every node of it is
    found under its own name. Whether a text is accepted can be read off its names and its axes, and where its storages
    stand off the choices of slots and labels around each collector. -/

namespace RecordStats

/-- In a placed tree a node below the root is what its name leads to. -/
theorem Namespace.lookup_name {ns : Namespace} (hs : Dict.Sorted ns) (h : Node.PlacedChildren [] ns) {n : Node}
    (hn : n ∈ Node.nodesOfChildren ns) : ns.lookup n.name = .ok n := by
  obtain ⟨c, hc, path, hname, hfound⟩ := Node.lookup_of_mem_children h n hn
  rw [hname, List.nil_append]
  show (Node.namespace [] ns).lookup (.field c.1 :: path) = .ok n
  rw [Node.lookup_of_child (Node.child_field hs hc), hfound]

namespace Run

variable {text : String} {standing : Dict Value} {run a : Run}

/-- However a run goes on, its tree is placed. -/
theorem Alike.placed (hs : Text.Storable text) (h : ofText text standing = .ok run) (ha : Alike a run) :
    Node.Placed [] (.namespace [] a.tree) := by
  obtain ⟨hprogram, htree, -⟩ := ofText_eq_ok h
  have placed := Program.placed_tree (Program.fewBins hs hprogram) htree
  rw [← Node.placed_emptied, Node.emptied, ha.tree]
  rwa [← Node.placed_emptied, Node.emptied] at placed

/-- In every state of a run the tree has the names, kinds, bins and expressions that the program has declared,
    each binning with its bins besides the three flow bins; the name of a node leads to that very node, and no
    two nodes have one name. -/
theorem tree_of_reaches (hs : Text.Storable text) (h : ofText text standing = .ok run) (ha : run.Reaches a) :
    Node.emptiedChildren a.tree = run.tree ∧
      (∀ name bins axis values u o v,
        Node.binning name bins axis values u o v ∈ Node.nodesOfChildren a.tree → values.length = bins.count) ∧
      (∀ n ∈ Node.nodesOfChildren a.tree, Namespace.lookup a.tree n.name = .ok n) ∧
      ((Node.nodesOfChildren a.tree).map Node.name).Nodup := by
  have alike := ha.alike h
  obtain ⟨-, sorted, placed⟩ := alike.placed hs h
  refine ⟨?_, fun name bins axis values u o v hn => ?_, fun n hn => ?_, ?_⟩
  · rw [alike.tree, emptied_of_ofText h]
  · exact (Node.placed_of_mem_children placed _ hn).2.1
  · exact Namespace.lookup_name sorted placed hn
  · exact Node.distinct_nodesOfChildren sorted placed

theorem tree_of_reaches_binned :
    ∃ run, ofText "count 'n' by regular(2, 0, 1) <- x" RecordStats.standing = .ok run ∧
      ∀ n ∈ Node.nodesOfChildren (run.single (Host.caller Host.none 1) none [("x", .float 0)]).2.tree,
        Namespace.lookup (run.single (Host.caller Host.none 1) none [("x", .float 0)]).2.tree n.name = .ok n := by
  have accepted : (ofText "count 'n' by regular(2, 0, 1) <- x" RecordStats.standing).isOk = true := by
    decide +kernel
  obtain ⟨run, h⟩ := exists_of_isOk accepted
  exact ⟨run, h, (tree_of_reaches (by decide) h (.single .refl _ none _)).2.2.1⟩

end Run

/-! ### Programs that declare a tree -/

namespace Node

/-- Leaves are named as the nodes that they are. -/
theorem leaf_paths_sublist (ns : List Node) : ((ns.filterMap leaf?).map Leaf.path).Sublist (ns.map name) := by
  induction ns with
  | nil => exact .slnil
  | cons n rest ih =>
    cases hn : n.leaf? with
    | none =>
      rw [List.filterMap_cons_none hn, List.map_cons]
      exact ih.cons _
    | some l =>
      obtain ⟨content, rfl, -⟩ := eq_of_leaf? hn
      rw [List.filterMap_cons_some hn, List.map_cons, List.map_cons]
      exact ih.cons_cons _

end Node

/-- A program declares a tree exactly when in every namespace the declared names are different, and every axis of every
    collector and region states its bins. Then the storages of the tree are exactly one for each collector and each
    choice of labels and slots around it; they stand at different paths, and the path of each leads to an empty storage
    of what is declared. -/
theorem Program.declares_iff {text : String} {p : Program} (hs : Text.Storable text) (h : Program.ofText text = .ok p) :
    ((∃ tree, p.tree = .ok tree) ↔ WellNamed p.block ∧ ∀ a ∈ declaredAxesOf p.block, a.Binned) ∧
      ∀ tree, p.tree = .ok tree →
        ((Node.nodesOfChildren tree).filterMap Node.leaf?).Perm (leavesOf p.block) ∧
          ((leavesOf p.block).map Leaf.path).Nodup ∧
          ∀ l ∈ leavesOf p.block, ∃ content, tree.lookup l.path = .ok (.storage l.path content) ∧
            content.statistic = l.statistic ∧ content.expression? = l.expression ∧ content.zero = content := by
  have wf := Program.wellFormed_of_ofText h
  refine ⟨exists_declareBlock [] wf, fun tree htree => ?_⟩
  have leaves := Program.leaves_tree wf htree
  obtain ⟨-, sorted, placed⟩ := Program.placed_tree (Program.fewBins hs h) htree
  refine ⟨leaves, ?_, fun l hl => ?_⟩
  · have distinct : ((Node.nodesOfChildren tree).map Node.name).Nodup := Node.distinct_nodesOfChildren sorted placed
    exact (leaves.map Leaf.path).nodup_iff.mp ((Node.leaf_paths_sublist _).nodup distinct)
  · obtain ⟨content, hn, measured⟩ := Program.storage_of_leaf wf htree hl
    exact ⟨content, Namespace.lookup_name sorted placed hn, measured⟩

theorem Program.declares_iff_nested :
    ∃ p tree, Program.ofText
        "region 'r' by regular(2, 0, 1) <- x \x7b vary 'up': s := 2 \x7b sum 'n' s * x by variable(0, 1) <- y \x7d \x7d" =
          .ok p ∧ p.tree = .ok tree ∧ ((Node.nodesOfChildren tree).filterMap Node.leaf?).Perm (leavesOf p.block) := by
  have accepted : (Run.ofText
      "region 'r' by regular(2, 0, 1) <- x \x7b vary 'up': s := 2 \x7b sum 'n' s * x by variable(0, 1) <- y \x7d \x7d"
      RecordStats.standing).isOk = true := by
    decide +kernel
  obtain ⟨run, h⟩ := Run.exists_of_isOk accepted
  obtain ⟨hprogram, htree, -⟩ := Run.ofText_eq_ok h
  exact ⟨run.program, run.tree, hprogram, htree, ((Program.declares_iff (by decide) hprogram).2 run.tree htree).1⟩

end RecordStats
