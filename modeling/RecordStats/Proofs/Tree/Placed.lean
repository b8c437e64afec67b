import RecordStats.Proofs.Tree.Emptied

/-! Where nodes stand. In a placed tree every node has the name that leads to it, the keys of a namespace are
    in order, and a binning has as many bins as its edges make, each with an index of 64 bits. Copies of a
    placed node are placed under their new name, and emptying says nothing about places. In a placed tree
    every node is found under its own name, and no two nodes share one. -/

namespace RecordStats

/-- How many bins can have an index. -/
def Bins.mostCount : Nat := 9223372036854775808

theorem Slot.toInt_ofNat {i : Nat} (h : i < Bins.mostCount) : (Int64.ofNat i).toInt = i := by
  unfold Bins.mostCount at h
  exact Int64.toInt_ofNat_of_lt (by omega)

namespace Node

mutual

/-- The node stands at a path, and all below it stands where its name says. -/
def Placed (name : Path) : Node → Prop
  | .namespace own children => own = name ∧ Dict.Sorted children ∧ PlacedChildren name children
  | binning own bins _ values u o v =>
    own = name ∧ values.length = bins.count ∧ bins.count ≤ Bins.mostCount ∧ PlacedValues name 0 values ∧
      Placed (name ++ [Slot.underflow.segment]) u ∧ Placed (name ++ [Slot.overflow.segment]) o ∧
      Placed (name ++ [Slot.nanflow.segment]) v
  | storage own _ => own = name

/-- Children stand under their keys. -/
def PlacedChildren (name : Path) : List (String × Node) → Prop
  | [] => True
  | (key, node) :: rest => Placed (name ++ [.field key]) node ∧ PlacedChildren name rest

/-- Bins stand under their indices, which are counted from `i`. -/
def PlacedValues (name : Path) : Nat → List Node → Prop
  | _, [] => True
  | i, node :: rest => Placed (name ++ [(Slot.bin i).segment]) node ∧ PlacedValues name (i + 1) rest

end

variable {name : Path} {node : Node}

theorem placedChildren_iff {children : List (String × Node)} :
    PlacedChildren name children ↔ ∀ c ∈ children, Placed (name ++ [.field c.1]) c.2 := by
  induction children with
  | nil => simp [PlacedChildren]
  | cons c rest ih =>
    obtain ⟨key, node⟩ := c
    simp only [PlacedChildren, ih, List.forall_mem_cons]

theorem placedValues_iff {start : Nat} {values : List Node} :
    PlacedValues name start values ↔
      ∀ i node, values[i]? = some node → Placed (name ++ [(Slot.bin (start + i)).segment]) node := by
  induction values generalizing start with
  | nil => simp [PlacedValues]
  | cons first rest ih =>
    rw [PlacedValues, ih]
    constructor
    · rintro ⟨hfirst, hrest⟩ i node hi
      cases i with
      | zero =>
        cases hi
        exact hfirst
      | succ i =>
        have := hrest i node hi
        rwa [Nat.add_assoc, Nat.add_comm 1 i] at this
    · intro h
      refine ⟨h 0 first rfl, fun i node hi => ?_⟩
      have := h (i + 1) node hi
      rwa [Nat.add_comm i 1, ← Nat.add_assoc] at this

theorem Placed.name_eq : ∀ {node : Node}, Placed name node → node.name = name
  | .namespace _ _, h => h.1
  | binning _ _ _ _ _ _ _, h => h.1
  | storage _ _, h => h

/-! ### Emptying and copying -/

theorem sorted_emptiedChildren {children : Dict Node} :
    Dict.Sorted (emptiedChildren children) ↔ children.Sorted := by
  rw [Dict.sorted_iff_names, Dict.sorted_iff_names, emptiedChildren_eq_map, Dict.names, Dict.names, List.map_map]
  rfl

theorem sorted_childrenLike {children : Dict Node} :
    Dict.Sorted (childrenLike name children) ↔ children.Sorted := by
  rw [Dict.sorted_iff_names, Dict.sorted_iff_names, childrenLike_eq_map, Dict.names, Dict.names, List.map_map]
  rfl

mutual

theorem placed_emptied : ∀ {name : Path} (node : Node), Placed name node.emptied ↔ Placed name node
  | name, .namespace own children => by
    simp only [emptied, Placed, sorted_emptiedChildren, placed_emptiedChildren children]
  | name, binning own bins axis values u o v => by
    simp only [emptied, Placed, length_emptiedValues, placed_emptiedValues values, placed_emptied u,
      placed_emptied o, placed_emptied v]
  | name, storage own content => by
    simp only [emptied, Placed]

theorem placed_emptiedChildren : ∀ {name : Path} (children : List (String × Node)),
    PlacedChildren name (emptiedChildren children) ↔ PlacedChildren name children
  | name, [] => Iff.rfl
  | name, (key, node) :: rest => by
    simp only [emptiedChildren, PlacedChildren, placed_emptied node, placed_emptiedChildren rest]

theorem placed_emptiedValues : ∀ {name : Path} {i : Nat} (values : List Node),
    PlacedValues name i (emptiedValues values) ↔ PlacedValues name i values
  | name, i, [] => Iff.rfl
  | name, i, node :: rest => by
    simp only [emptiedValues, PlacedValues, placed_emptied node, placed_emptiedValues rest]

end

/-- A binning stands wherever the copies of its template stand. -/
theorem placed_binned {bins : Bins Float} {axis : Expr} {template : Node}
    (few : bins.count ≤ Bins.mostCount) (h : ∀ path, Placed path (zerosLike path template)) :
    Placed name (binned name bins axis template) := by
  rw [binned_eq, Placed]
  refine ⟨rfl, ?_, few, ?_, h _, h _, h _⟩
  · rw [List.length_map, List.length_range]
  · refine placedValues_iff.mpr fun i node hi => ?_
    rw [List.getElem?_map] at hi
    obtain ⟨j, hj, rfl⟩ := Option.map_eq_some_iff.mp hi
    obtain ⟨hlt, rfl⟩ := List.getElem?_eq_some_iff.mp hj
    rw [List.getElem_range, Nat.zero_add]
    exact h _

mutual

/-- A copy of a placed node stands where it is put. -/
theorem placed_zerosLike : ∀ {old : Path} {node : Node}, Placed old node →
    ∀ name : Path, Placed name (zerosLike name node)
  | _, .namespace own children, ⟨_, hs, hc⟩, name => by
    rw [zerosLike, Placed]
    exact ⟨rfl, sorted_childrenLike.mpr hs, placed_childrenLike hc name⟩
  | _, binning own bins axis values u o v, ⟨_, _, few, _, _, _, hv⟩, name => by
    rw [zerosLike_binning]
    exact placed_binned few fun path => placed_zerosLike hv path
  | _, storage own content, _, name => by
    rw [zerosLike, Placed]

theorem placed_childrenLike : ∀ {old : Path} {children : List (String × Node)},
    PlacedChildren old children → ∀ name : Path, PlacedChildren name (childrenLike name children)
  | _, [], _, name => trivial
  | _, (key, node) :: rest, ⟨hnode, hrest⟩, name => by
    rw [childrenLike, PlacedChildren]
    exact ⟨placed_zerosLike hnode _, placed_childrenLike hrest name⟩

end

end Node

end RecordStats
