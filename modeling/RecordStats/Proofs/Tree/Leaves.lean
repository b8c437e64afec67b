import RecordStats.Proofs.Tree.Accepted
import RecordStats.Proofs.Tree.Fits

/-! The leaves of a declared tree. A collector declares one storage for every choice of a slot on each of its axes and
    on those of the regions around it, and of a label for each varied block around it. The choices are listed along the
    program's text, without the tree; the storages of the tree that it declares are just these. -/

namespace RecordStats

/-! ### The leaves of a text -/

/-- A storage as it is declared: where it stands, what it measures, and of which expression. -/
structure Leaf where
  path : Path
  statistic : Statistic
  expression : Option Expr

/-- A leaf as it is seen from further up. -/
def Leaf.below (path : Path) (l : Leaf) : Leaf := { l with path := path ++ l.path }

/-- How many bins a call states: those of `regular` are counted by its first argument, those of `variable` lie between
    its edges. -/
def Bins.stated : Expr → Nat
  | .call callee arguments _ =>
    match callee.name?, arguments with
    | some "regular", number :: _ =>
      match number.literal? with
      | some (.integer n) => n.toInt.toNat
      | _ => 0
    | some "variable", edges => edges.length - 1
    | _, _ => 0
  | _ => 0

/-- The slots of so many bins, and the three for what falls into none. -/
def Slot.ofBins (n : Nat) : List Slot := (List.range n).map bin ++ [underflow, overflow, nanflow]

def Axis.slots (a : Axis Expr) : List Slot := Slot.ofBins (Bins.stated a.binning)

/-- Every choice of one slot for each axis, as a path with the first axis outermost. -/
def Axis.choices : List (Axis Expr) → List Path
  | [] => [[]]
  | a :: rest => a.slots.flatMap fun s => (choices rest).map (s.segment :: ·)

mutual

/-- The leaves that a statement declares, from the namespace that it stands in. -/
def Statement.leaves : Statement → List Leaf
  | .collect c _ => (Axis.choices c.axes).map fun slots => ⟨.field c.name.text :: slots, c.statistic, c.expression⟩
  | .region n _ axes block _ =>
    (Axis.choices axes).flatMap fun slots => (leavesOf block).map (Leaf.below (.field n.text :: slots))
  | .vary variations block _ =>
    variations.flatMap fun v => (leavesOf block).map (Leaf.below [.field v.name.text])
  | .loop _ block _ => leavesOf block
  | .source _ _ block _ => leavesOf block
  | .define _ _ _ => []
  | .function _ _ _ _ => []
  | .result _ _ => []

/-- The leaves that the statements of a block declare. -/
def leavesOf : List Statement → List Leaf
  | [] => []
  | s :: rest => s.leaves ++ leavesOf rest

end

/-! ### The leaves of a tree -/

/-- What a storage measures; entries alone are counted without an expression. -/
def Storage.expression? : Storage → Option Expr
  | count _ => none
  | sum e _ => some e
  | profile e _ => some e
  | fraction e _ => some e

namespace Leaf

@[simp] theorem below_nil (l : Leaf) : l.below [] = l := rfl

@[simp] theorem map_below_nil (ls : List Leaf) : ls.map (below []) = ls := by
  rw [List.map_congr_left fun l _ => below_nil l, List.map_id']

@[simp] theorem below_below (p q : Path) (l : Leaf) : (l.below q).below p = l.below (p ++ q) := by
  simp [below]

end Leaf

@[simp] theorem Storage.statistic_zero (s : Storage) : s.zero.statistic = s.statistic := by
  cases s <;> rfl

@[simp] theorem Storage.expression?_zero (s : Storage) : s.zero.expression? = s.expression? := by
  cases s <;> rfl

namespace Node

/-- The leaf that a node is, if it is a storage. -/
def leaf? : Node → Option Leaf
  | storage name content => some ⟨name, content.statistic, content.expression?⟩
  | _ => none

theorem eq_of_leaf? {n : Node} {l : Leaf} (h : n.leaf? = some l) :
    ∃ content, n = .storage l.path content ∧ content.statistic = l.statistic ∧ content.expression? = l.expression := by
  cases n with
  | storage name content =>
    cases h
    exact ⟨content, rfl, rfl, rfl⟩
  | _ => cases h

mutual

/-- The leaves of a copy of the node, from where the copy stands. Every slot of a binning has a copy of the last one. -/
def copied : Node → List Leaf
  | .namespace _ children => copiedChildren children
  | binning _ bins _ _ _ _ v => (Slot.ofBins bins.count).flatMap fun s => (copied v).map (Leaf.below [s.segment])
  | storage _ content => [⟨[], content.statistic, content.expression?⟩]

def copiedChildren : List (String × Node) → List Leaf
  | [] => []
  | (key, node) :: rest => (copied node).map (Leaf.below [.field key]) ++ copiedChildren rest

end

theorem copiedChildren_eq_flatMap (children : List (String × Node)) :
    copiedChildren children = children.flatMap fun c => (copied c.2).map (Leaf.below [.field c.1]) := by
  induction children with
  | nil => rfl
  | cons c rest ih =>
    obtain ⟨key, node⟩ := c
    rw [copiedChildren, ih, List.flatMap_cons]

mutual

/-- The leaves of a copy, each under its name. -/
theorem leaves_zerosLike (name : Path) : ∀ node : Node,
    (nodes (zerosLike name node)).filterMap leaf? = (copied node).map (Leaf.below name)
  | .namespace old children => by
    rw [zerosLike, nodes, copied, List.filterMap_cons_none rfl, leaves_childrenLike name children]
  | binning old bins axis values u o v => by
    have copies : ∀ s : Slot, (nodes (zerosLike (name ++ [s.segment]) v)).filterMap leaf? =
        ((copied v).map (Leaf.below [s.segment])).map (Leaf.below name) := by
      intro s
      rw [leaves_zerosLike _ v, List.map_map]
      refine List.map_congr_left fun l _ => ?_
      simp
    rw [zerosLike_binning, binned_eq, nodes, copied, List.filterMap_cons_none rfl, nodesOfValues_eq_flatMap]
    simp only [Slot.ofBins, List.filterMap_append, List.filterMap_flatMap, List.flatMap_map, List.flatMap_append,
      List.flatMap_cons, List.flatMap_nil, List.map_append, List.map_flatMap, List.append_nil, copies]
  | storage old content => by
    simp [zerosLike, nodes, copied, leaf?, Leaf.below]

theorem leaves_childrenLike (name : Path) : ∀ children : List (String × Node),
    (nodesOfChildren (childrenLike name children)).filterMap leaf? = (copiedChildren children).map (Leaf.below name)
  | [] => rfl
  | (key, node) :: rest => by
    rw [childrenLike, nodesOfChildren, copiedChildren, List.filterMap_append, leaves_zerosLike _ node,
      leaves_childrenLike name rest, List.map_append, List.map_map]
    congr 1
    refine List.map_congr_left fun l _ => ?_
    simp

end

mutual

/-- A copy has the leaves of what it is a copy of. -/
theorem copied_zerosLike (name : Path) : ∀ node : Node, copied (zerosLike name node) = copied node
  | .namespace old children => by
    rw [zerosLike, copied, copied, copied_childrenLike name children]
  | binning old bins axis values u o v => by
    rw [zerosLike_binning, binned_eq, copied, copied, copied_zerosLike _ v]
  | storage old content => by
    simp [zerosLike, copied]

theorem copied_childrenLike (name : Path) : ∀ children : List (String × Node),
    copiedChildren (childrenLike name children) = copiedChildren children
  | [] => rfl
  | (key, node) :: rest => by
    rw [childrenLike, copiedChildren, copiedChildren, copied_zerosLike _ node, copied_childrenLike name rest]

end

end Node

/-! ### Declared leaves -/

theorem Bins.States.count_eq {e : Expr} {bins : Bins Float} (h : States e bins) : bins.count = stated e := by
  cases h with
  | regular name number positive lower upper ordered => simp only [count, stated, name, number]
  | edged name literals several increasing =>
    have lengths := congrArg List.length literals
    rw [List.length_map, List.length_map] at lengths
    simp only [count, stated, name, lengths]

/-- Within some axes a node has its leaves in every choice of slots. -/
theorem Node.copied_wrap {name : Path} {node : Node} : ∀ {axes : List (Axis Expr)} {wrapped : Node},
    Node.wrap name node axes = .ok wrapped →
      copied wrapped = (Axis.choices axes).flatMap fun slots => (copied node).map (Leaf.below slots)
  | [], wrapped, h => by
    cases h
    simp [Axis.choices]
  | axis :: rest, wrapped, h => by
    obtain ⟨inner, bins, hinner, hbins, rfl⟩ := Node.wrap_cons_eq_ok.mp h
    rw [binned_eq, copied, copied_zerosLike, copied_wrap hinner, (Bins.ofCall_eq_ok_iff.mp hbins).count_eq,
      Axis.choices, Axis.slots, List.flatMap_assoc]
    refine List.flatMap_congr fun s _ => ?_
    rw [List.map_flatMap, List.flatMap_map]
    refine List.flatMap_congr fun slots _ => ?_
    rw [List.map_map]
    exact List.map_congr_left fun l _ => by simp

theorem Storage.ofCollector_measures {most : Nat} {c : Collector Expr} {s : Span} {content : Storage}
    (wf : c.WellFormed most) (h : Storage.ofCollector c s = .ok content) :
    content.statistic = c.statistic ∧ content.expression? = c.expression := by
  have measured := wf.measured
  unfold Storage.ofCollector at h
  split at h
  · next hs =>
    cases h
    exact ⟨hs.symm, (measured.mpr hs).symm⟩
  · next hs he =>
    cases h
    exact ⟨hs.symm, he.symm⟩
  · next hs he =>
    cases h
    exact ⟨hs.symm, he.symm⟩
  · next hs he =>
    cases h
    exact ⟨hs.symm, he.symm⟩
  · exact absurd h Outcome.failAt_ne_ok

theorem Namespace.copied_declare {n : Name} {node : Node} {own : Namespace}
    (h : Namespace.declare [] n node = .ok own) :
    Node.copiedChildren own = (Node.copied node).map (Leaf.below [.field n.text]) := by
  obtain ⟨-, rfl⟩ := Namespace.declare_iff.mp h
  simp [Dict.insert, Node.copiedChildren]

/-- Two declarations after one another have the leaves of both. -/
theorem Adds.leaves_bind {names others : List String} {f g : Namespace → Outcome Namespace} (hf : Adds names f)
    (hg : Adds others g) {ls ms : List Leaf} (left : ∀ a, f [] = .ok a → (Node.copiedChildren a).Perm ls)
    (right : ∀ b, g [] = .ok b → (Node.copiedChildren b).Perm ms) {own : Namespace} (h : (f [] >>= g) = .ok own) :
    (Node.copiedChildren own).Perm (ls ++ ms) := by
  obtain ⟨a, ha, h⟩ := Outcome.bind_eq_ok.mp h
  obtain ⟨b, hb, apart, rfl⟩ := (hg.adds (hf.sorted ha)).mp h
  have pairs : (Dict.union a b).Perm (b ++ a) := Dict.union_perm (hg.sorted hb) apart
  have leaves := pairs.flatMap_right fun c => (Node.copied c.2).map (Leaf.below [.field c.1])
  rw [List.flatMap_append] at leaves
  simp only [← Node.copiedChildren_eq_flatMap] at leaves
  exact leaves.trans (((right b hb).append (left a ha)).trans List.perm_append_comm)

theorem Namespace.leaves_declareVariations {name : Path} {block : Namespace} {ls : List Leaf}
    (h : (Node.copiedChildren block).Perm ls) : ∀ {variations : List (Variation Expr)} {own : Namespace},
      Namespace.declareVariations [] name block variations = .ok own →
        (Node.copiedChildren own).Perm (variations.flatMap fun v => ls.map (Leaf.below [.field v.name.text]))
  | [], own, hown => by
    cases hown
    exact .refl _
  | v :: rest, own, hown => by
    rw [declareVariations] at hown
    rw [List.flatMap_cons]
    refine (Adds.declare v.name _).leaves_bind (declareVariations_adds name block rest) (fun a ha => ?_)
      (fun b hb => leaves_declareVariations h hb) hown
    rw [copied_declare ha, Node.copied, Node.copied_childrenLike]
    exact h.map _

variable {most : Nat}

mutual

/-- A statement declares its leaves. -/
theorem Statement.leaves_declare (name : Path) : ∀ {s : Statement} {own : Namespace}, s.WellFormed most →
    s.declare name [] = .ok own → (Node.copiedChildren own).Perm s.leaves
  | .collect c s, own, wf, h => by
    obtain ⟨content, node, hcontent, hnode, h⟩ := Statement.declare_collect_eq_ok.mp h
    obtain ⟨statistic, expression⟩ := Storage.ofCollector_measures wf hcontent
    rw [Namespace.copied_declare h, Node.copied_wrap hnode, Statement.leaves]
    simp only [Node.copied, statistic, expression, List.map_cons, List.map_nil, Leaf.below, List.append_nil,
      ← List.map_eq_flatMap]
    exact .of_eq List.map_map
  | .region n predicate axes block s, own, ⟨_, _, wf⟩, h => by
    obtain ⟨inner, node, hinner, hnode, h⟩ := Statement.declare_region_eq_ok.mp h
    have inside := leaves_declareBlock (name ++ [.field n.text]) wf hinner
    rw [Namespace.copied_declare h, Node.copied_wrap hnode, Statement.leaves, List.map_flatMap, Node.copied]
    refine List.Perm.flatMap_left _ fun slots _ => ?_
    rw [List.map_map]
    refine (inside.map _).trans (.of_eq (List.map_congr_left fun l _ => ?_))
    simp
  | .vary variations block s, own, ⟨_, _, wf⟩, h => by
    obtain ⟨inner, hinner, h⟩ := Statement.declare_vary_eq_ok.mp h
    rw [Statement.leaves]
    exact Namespace.leaves_declareVariations (leaves_declareBlock name wf hinner) h
  | .loop ranges block s, own, ⟨_, _, wf⟩, h => by
    rw [Statement.declare] at h
    rw [Statement.leaves]
    exact leaves_declareBlock name wf h
  | .source inclusive patterns block s, own, ⟨_, wf⟩, h => by
    rw [Statement.declare] at h
    rw [Statement.leaves]
    exact leaves_declareBlock name wf h
  | .define _ _ _, own, _, h => by
    cases h
    exact .refl _
  | .function _ _ _ _, own, _, h => by
    cases h
    exact .refl _
  | .result _ _, _, wf, _ => wf.elim

/-- A block declares the leaves of its statements. -/
theorem leaves_declareBlock (name : Path) : ∀ {block : List Statement} {own : Namespace},
    Statement.WellFormedBlock most block → declareBlock name [] block = .ok own →
      (Node.copiedChildren own).Perm (leavesOf block)
  | [], own, _, h => by
    cases h
    exact .refl _
  | s :: rest, own, ⟨wf, wfRest⟩, h => by
    rw [declareBlock] at h
    rw [leavesOf]
    exact (Statement.declare_adds name s).leaves_bind (declareBlock_adds name rest)
      (fun a ha => Statement.leaves_declare name wf ha) (fun b hb => leaves_declareBlock name wfRest hb) h

end

/-- The storages of the tree that a program declares are its leaves. -/
theorem Program.leaves_tree {p : Program} {tree : Namespace} (wf : p.WellFormed most) (h : p.tree = .ok tree) :
    ((Node.nodesOfChildren tree).filterMap Node.leaf?).Perm (leavesOf p.block) := by
  have listed := Node.leaves_childrenLike [] tree
  rw [Program.childrenLike_tree h] at listed
  rw [listed, Leaf.map_below_nil]
  exact leaves_declareBlock [] wf h

/-- Each leaf of the text is an empty storage of the tree. -/
theorem Program.storage_of_leaf {p : Program} {tree : Namespace} (wf : p.WellFormed most) (h : p.tree = .ok tree)
    {l : Leaf} (hl : l ∈ leavesOf p.block) :
    ∃ content, .storage l.path content ∈ Node.nodesOfChildren tree ∧ content.statistic = l.statistic ∧
      content.expression? = l.expression ∧ content.zero = content := by
  obtain ⟨n, hn, hleaf⟩ := List.mem_filterMap.mp ((Program.leaves_tree wf h).mem_iff.mpr hl)
  obtain ⟨content, rfl, statistic, expression⟩ := Node.eq_of_leaf? hleaf
  have copied := Program.zerosLike_of_mem_tree h hn
  rw [Node.zerosLike] at copied
  exact ⟨content, hn, statistic, expression, (Node.storage.inj copied).2⟩

/-- Empty storages that measure the same are the same. -/
theorem Storage.eq_of_zero {s t : Storage} (hs : s.zero = s) (ht : t.zero = t) (statistic : s.statistic = t.statistic)
    (expression : s.expression? = t.expression?) : s = t := by
  rw [← hs, ← ht]
  cases s <;> cases t <;> simp_all [Storage.zero, Storage.statistic, Storage.expression?]

end RecordStats
