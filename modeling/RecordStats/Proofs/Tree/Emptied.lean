import RecordStats.Record.Fill

/-! Nodes without their entries. Emptying a node leaves all else as it stands: names, keys, bins and stored
    expressions. So two nodes that are the same when emptied have the same structure, and no fill changes
    what a node is when emptied. A copy under another name depends on the structure alone, and a copy of a
    copy is a copy of the first. -/

namespace RecordStats

/-! ### Storages -/

theorem Storage.zero_zero (s : Storage) : s.zero.zero = s.zero := by
  cases s <;> rfl

theorem Storage.zero_fill (s : Storage) (w : Float) (sample : Sample) : (s.fill w sample).zero = s.zero := by
  cases s <;> cases sample <;> rfl

namespace Node

/-! ### Emptying -/

mutual

/-- The node without its entries. -/
def emptied : Node → Node
  | .namespace name children => .namespace name (emptiedChildren children)
  | binning name bins axis values u o v =>
    binning name bins axis (emptiedValues values) (emptied u) (emptied o) (emptied v)
  | storage name content => storage name content.zero

/-- Named children without their entries. -/
def emptiedChildren : List (String × Node) → List (String × Node)
  | [] => []
  | (key, node) :: rest => (key, emptied node) :: emptiedChildren rest

/-- Bins without their entries. -/
def emptiedValues : List Node → List Node
  | [] => []
  | node :: rest => emptied node :: emptiedValues rest

end

theorem emptiedChildren_eq_map (children : List (String × Node)) :
    emptiedChildren children = children.map fun c => (c.1, c.2.emptied) := by
  induction children with
  | nil => rfl
  | cons c rest ih =>
    obtain ⟨key, node⟩ := c
    rw [emptiedChildren, ih, List.map_cons]

theorem emptiedValues_eq_map (values : List Node) : emptiedValues values = values.map emptied := by
  induction values with
  | nil => rfl
  | cons node rest ih => rw [emptiedValues, ih, List.map_cons]

@[simp] theorem name_emptied (node : Node) : node.emptied.name = node.name := by
  cases node <;> simp only [emptied, name]

@[simp] theorem length_emptiedValues (values : List Node) : (emptiedValues values).length = values.length := by
  rw [emptiedValues_eq_map, List.length_map]

mutual

theorem emptied_emptied : ∀ node : Node, node.emptied.emptied = node.emptied
  | .namespace name children => by
    simp only [emptied, emptiedChildren_emptiedChildren children]
  | binning name bins axis values u o v => by
    simp only [emptied, emptiedValues_emptiedValues values, emptied_emptied u, emptied_emptied o,
      emptied_emptied v]
  | storage name content => by
    simp only [emptied, Storage.zero_zero]

theorem emptiedChildren_emptiedChildren : ∀ children : List (String × Node),
    emptiedChildren (emptiedChildren children) = emptiedChildren children
  | [] => rfl
  | (key, node) :: rest => by
    simp only [emptiedChildren, emptied_emptied node, emptiedChildren_emptiedChildren rest]

theorem emptiedValues_emptiedValues : ∀ values : List Node,
    emptiedValues (emptiedValues values) = emptiedValues values
  | [] => rfl
  | node :: rest => by
    simp only [emptiedValues, emptied_emptied node, emptiedValues_emptiedValues rest]

end

/-! ### Copies under another name -/

theorem binned_eq (name : Path) (bins : Bins Float) (axis : Expr) (template : Node) :
    binned name bins axis template =
      binning name bins axis
        ((List.range bins.count).map fun i => zerosLike (name ++ [(Slot.bin i).segment]) template)
        (zerosLike (name ++ [Slot.underflow.segment]) template)
        (zerosLike (name ++ [Slot.overflow.segment]) template)
        (zerosLike (name ++ [Slot.nanflow.segment]) template) := rfl

/-- A copy of a binning is made of its last flow bin. -/
theorem zerosLike_binning (name old : Path) (bins : Bins Float) (axis : Expr) (values : List Node)
    (u o v : Node) : zerosLike name (binning old bins axis values u o v) = binned name bins axis v := by
  rw [zerosLike, binned]

theorem childrenLike_eq_map (name : Path) (children : List (String × Node)) :
    childrenLike name children = children.map fun c => (c.1, zerosLike (name ++ [.field c.1]) c.2) := by
  induction children with
  | nil => rfl
  | cons c rest ih =>
    obtain ⟨key, node⟩ := c
    rw [childrenLike, ih, List.map_cons]

mutual

/-- A copy has no entries. -/
theorem emptied_zerosLike (name : Path) : ∀ node : Node, (zerosLike name node).emptied = zerosLike name node
  | .namespace old children => by
    simp only [zerosLike, emptied, emptied_childrenLike name children]
  | binning old bins axis values u o v => by
    rw [zerosLike_binning, binned_eq, emptied, emptiedValues_eq_map, List.map_map]
    have copy : ∀ s : Slot, (zerosLike (name ++ [s.segment]) v).emptied = zerosLike (name ++ [s.segment]) v :=
      fun s => emptied_zerosLike _ v
    simp only [Function.comp_def, copy]
  | storage old content => by
    simp only [zerosLike, emptied, Storage.zero_zero]

theorem emptied_childrenLike (name : Path) : ∀ children : List (String × Node),
    emptiedChildren (childrenLike name children) = childrenLike name children
  | [] => rfl
  | (key, node) :: rest => by
    simp only [childrenLike, emptiedChildren, emptied_zerosLike _ node, emptied_childrenLike name rest]

end

mutual

/-- A copy does not depend on the entries. -/
theorem zerosLike_emptied (name : Path) : ∀ node : Node, zerosLike name node.emptied = zerosLike name node
  | .namespace old children => by
    simp only [emptied, zerosLike, childrenLike_emptied name children]
  | binning old bins axis values u o v => by
    rw [emptied, zerosLike_binning, zerosLike_binning, binned_eq, binned_eq]
    have copy : ∀ s : Slot, zerosLike (name ++ [s.segment]) v.emptied = zerosLike (name ++ [s.segment]) v :=
      fun s => zerosLike_emptied _ v
    simp only [copy]
  | storage old content => by
    simp only [emptied, zerosLike, Storage.zero_zero]

theorem childrenLike_emptied (name : Path) : ∀ children : List (String × Node),
    childrenLike name (emptiedChildren children) = childrenLike name children
  | [] => rfl
  | (key, node) :: rest => by
    simp only [emptiedChildren, childrenLike, zerosLike_emptied _ node, childrenLike_emptied name rest]

end

mutual

/-- A copy of a copy is a copy of the first. -/
theorem zerosLike_zerosLike (name other : Path) : ∀ node : Node,
    zerosLike name (zerosLike other node) = zerosLike name node
  | .namespace old children => by
    simp only [zerosLike, childrenLike_childrenLike name other children]
  | binning old bins axis values u o v => by
    rw [zerosLike_binning, zerosLike_binning, binned_eq other, zerosLike_binning, binned_eq, binned_eq]
    have copy : ∀ s t : Slot, zerosLike (name ++ [s.segment]) (zerosLike (other ++ [t.segment]) v) =
        zerosLike (name ++ [s.segment]) v :=
      fun s t => zerosLike_zerosLike _ _ v
    simp only [copy]
  | storage old content => by
    simp only [zerosLike, Storage.zero_zero]

theorem childrenLike_childrenLike (name other : Path) : ∀ children : List (String × Node),
    childrenLike name (childrenLike other children) = childrenLike name children
  | [] => rfl
  | (key, node) :: rest => by
    simp only [childrenLike, zerosLike_zerosLike _ _ node, childrenLike_childrenLike name other rest]

end

/-! ### Changes of one storage -/

mutual

/-- A change of one storage that only concerns its entries is not seen when all are taken away. -/
theorem emptied_modifyAt {f : Storage → Storage} (keeps : ∀ s, (f s).zero = s.zero) :
    ∀ (path : Path) (node : Node), (modifyAt f path node).emptied = node.emptied
  | [], storage name content => by
    simp only [modifyAt, emptied, keeps]
  | .field key :: rest, .namespace name children => by
    simp only [modifyAt, emptied, emptied_modifyChild keeps key rest children]
  | .index n :: rest, binning name bins axis values u o v => by
    rw [modifyAt]
    split
    · simp only [emptied, emptied_modifyAt keeps rest u]
    · split
      · simp only [emptied, emptied_modifyNth keeps n.toInt.toNat rest values]
      · simp only [emptied, emptied_modifyAt keeps rest o]
  | .field key :: rest, binning name bins axis values u o v => by
    unfold modifyAt
    split
    · simp only [emptied, emptied_modifyAt keeps rest u]
    · simp only [emptied, emptied_modifyAt keeps rest o]
    · simp only [emptied, emptied_modifyAt keeps rest v]
    · rfl
  | [], .namespace _ _ => by simp only [modifyAt]
  | [], binning _ _ _ _ _ _ _ => by simp only [modifyAt]
  | .index _ :: _, .namespace _ _ => by simp only [modifyAt]
  | _ :: _, storage _ _ => by simp only [modifyAt]

theorem emptied_modifyChild {f : Storage → Storage} (keeps : ∀ s, (f s).zero = s.zero) (key : String)
    (path : Path) : ∀ children : List (String × Node),
      emptiedChildren (modifyChild f key path children) = emptiedChildren children
  | [] => rfl
  | (k, node) :: rest => by
    rw [modifyChild]
    split
    · simp only [emptiedChildren, emptied_modifyAt keeps path node]
    · simp only [emptiedChildren, emptied_modifyChild keeps key path rest]

theorem emptied_modifyNth {f : Storage → Storage} (keeps : ∀ s, (f s).zero = s.zero) :
    ∀ (i : Nat) (path : Path) (values : List Node),
      emptiedValues (modifyNth f i path values) = emptiedValues values
  | _, _, [] => by simp only [modifyNth]
  | 0, path, node :: rest => by
    simp only [modifyNth, emptiedValues, emptied_modifyAt keeps path node]
  | i + 1, path, node :: rest => by
    simp only [modifyNth, emptiedValues, emptied_modifyNth keeps i path rest]

end

/-! ### All nodes -/

mutual

theorem nodes_emptied : ∀ node : Node, nodes node.emptied = (nodes node).map emptied
  | .namespace name children => by
    simp only [emptied, nodes, nodesOfChildren_emptied children, List.map_cons]
  | binning name bins axis values u o v => by
    simp only [emptied, nodes, nodesOfValues_emptied values, nodes_emptied u, nodes_emptied o, nodes_emptied v,
      List.map_cons, List.map_append]
  | storage name content => by
    simp only [emptied, nodes, List.map_cons, List.map_nil]

theorem nodesOfChildren_emptied : ∀ children : List (String × Node),
    nodesOfChildren (emptiedChildren children) = (nodesOfChildren children).map emptied
  | [] => by simp only [emptiedChildren, nodesOfChildren, List.map_nil]
  | (key, node) :: rest => by
    simp only [emptiedChildren, nodesOfChildren, nodes_emptied node, nodesOfChildren_emptied rest, List.map_append]

theorem nodesOfValues_emptied : ∀ values : List Node,
    nodesOfValues (emptiedValues values) = (nodesOfValues values).map emptied
  | [] => by simp only [emptiedValues, nodesOfValues, List.map_nil]
  | node :: rest => by
    simp only [emptiedValues, nodesOfValues, nodes_emptied node, nodesOfValues_emptied rest, List.map_append]

end

theorem mem_nodesOfChildren {n : Node} {children : List (String × Node)} :
    n ∈ nodesOfChildren children ↔ ∃ c ∈ children, n ∈ nodes c.2 := by
  induction children with
  | nil => simp [nodesOfChildren]
  | cons c rest ih =>
    obtain ⟨key, node⟩ := c
    rw [nodesOfChildren, List.mem_append, ih]
    simp only [List.mem_cons, exists_eq_or_imp]

theorem nodesOfValues_eq_flatMap (values : List Node) : nodesOfValues values = values.flatMap nodes := by
  induction values with
  | nil => rfl
  | cons node rest ih => rw [nodesOfValues, ih, List.flatMap_cons]

theorem mem_nodesOfValues {n : Node} {values : List Node} :
    n ∈ nodesOfValues values ↔ ∃ node ∈ values, n ∈ nodes node := by
  induction values with
  | nil => simp [nodesOfValues]
  | cons node rest ih =>
    rw [nodesOfValues, List.mem_append, ih]
    simp only [List.mem_cons, exists_eq_or_imp]

end Node

end RecordStats
