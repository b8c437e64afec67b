import RecordStats.Proofs.Tree.Built
import RecordStats.Proofs.Tree.Fits

/-! Declarations under another name. Where a block stands has no part in what it declares but for the names of the
    nodes, so declaring it elsewhere gives a copy of what it declares here, and fails in the same way. -/

namespace RecordStats

open Segment (field)

/-! ### Copies of namespaces -/

theorem Node.childrenLike_insert (name : Path) (ns : Namespace) (key : String) (node : Node) :
    childrenLike name (Dict.insert ns key node) =
      Dict.insert (childrenLike name ns) key (node.zerosLike (name ++ [field key])) := by
  induction ns with
  | nil => rfl
  | cons c rest ih =>
    obtain ⟨k, other⟩ := c
    rw [Dict.insert, childrenLike, Dict.insert]
    split
    · next hk =>
      subst hk
      rfl
    · split
      · rfl
      · rw [childrenLike, ih]

theorem Namespace.declare_childrenLike (name : Path) (ns : Namespace) (n : Name) (node : Node) :
    Namespace.declare (Node.childrenLike name ns) n (node.zerosLike (name ++ [field n.text])) =
      (ns.declare n node).map (Node.childrenLike name) := by
  have taken : Dict.has (Node.childrenLike name ns) n.text = Dict.has ns n.text := by
    rw [Dict.has, Dict.has, Node.get?_childrenLike, Option.isSome_map]
  rw [declare, declare, taken]
  split
  · rfl
  · rw [← Node.childrenLike_insert]
    rfl

/-- A copy of what stands within binnings. -/
theorem Node.wrap_zerosLike (old new : Path) (node : Node) (axes : List (Axis Expr)) :
    Node.wrap new (node.zerosLike new) axes = (Node.wrap old node axes).map (zerosLike new) := by
  induction axes with
  | nil => rfl
  | cons axis rest ih =>
    rw [Node.wrap, Node.wrap, ih]
    cases Node.wrap old node rest with
    | error stop => rfl
    | ok inner =>
      cases Bins.ofCall axis.binning with
      | error stop => rfl
      | ok bins =>
        refine congrArg Except.ok ?_
        rw [binned_eq, binned_eq, zerosLike_binning, binned_eq]
        simp only [zerosLike_zerosLike]

theorem Storage.ofCollector_copied {c : Collector Expr} {s : Span} {content : Storage}
    (h : Storage.ofCollector c s = .ok content) (old new : Path) :
    (Node.storage old content).zerosLike new = .storage new content := by
  rw [Node.zerosLike, Storage.zero_ofCollector h]

/-- A copy of a copy of a block is a copy of any other one. -/
theorem Node.namespace_childrenLike (name old new : Path) (block : Namespace) :
    Node.namespace name (childrenLike name (childrenLike new block)) =
      (Node.namespace old (childrenLike old block)).zerosLike name := by
  rw [Node.zerosLike, Node.childrenLike_childrenLike, Node.childrenLike_childrenLike]

theorem Namespace.declareVariations_childrenLike (old new : Path) (block : Namespace)
    (variations : List (Variation Expr)) (ns : Namespace) :
    Namespace.declareVariations (Node.childrenLike new ns) new (Node.childrenLike new block) variations =
      (ns.declareVariations old block variations).map (Node.childrenLike new) := by
  induction variations generalizing ns with
  | nil => rfl
  | cons v rest ih =>
    rw [declareVariations, declareVariations, Node.namespace_childrenLike _ (old ++ [field v.name.text]) new,
      declare_childrenLike]
    cases ns.declare v.name _ with
    | error stop => rfl
    | ok next => exact ih next

/-! ### Statements and blocks -/

mutual

/-- What a statement declares under another name. -/
theorem Statement.declare_childrenLike (old new : Path) : ∀ (s : Statement) (ns : Namespace),
    s.declare new (Node.childrenLike new ns) = (s.declare old ns).map (Node.childrenLike new)
  | .collect c s, ns => by
    rw [Statement.declare, Statement.declare]
    cases hcontent : Storage.ofCollector c s with
    | error stop => rfl
    | ok content =>
      have copied := Storage.ofCollector_copied hcontent (old ++ [field c.name.text]) (new ++ [field c.name.text])
      have wrapped := Node.wrap_zerosLike (old ++ [field c.name.text]) (new ++ [field c.name.text])
        (.storage (old ++ [field c.name.text]) content) c.axes
      rw [copied] at wrapped
      simp only [bind, Except.bind, wrapped]
      cases Node.wrap (old ++ [field c.name.text]) (.storage (old ++ [field c.name.text]) content) c.axes with
      | error stop => rfl
      | ok node => exact Namespace.declare_childrenLike new ns c.name node
  | .region n _ axes block _, ns => by
    have inner := declareBlock_childrenLike (old ++ [field n.text]) (new ++ [field n.text]) block []
    rw [Node.childrenLike] at inner
    rw [Statement.declare, Statement.declare]
    simp only [inner]
    cases declareBlock (old ++ [field n.text]) [] block with
    | error stop => rfl
    | ok children =>
      have wrapped := Node.wrap_zerosLike (old ++ [field n.text]) (new ++ [field n.text])
        (.namespace (old ++ [field n.text]) children) axes
      rw [Node.zerosLike] at wrapped
      simp only [bind, Except.bind, Except.map, wrapped]
      cases Node.wrap (old ++ [field n.text]) (.namespace (old ++ [field n.text]) children) axes with
      | error stop => rfl
      | ok node => exact Namespace.declare_childrenLike new ns n node
  | .vary variations block _, ns => by
    have inner := declareBlock_childrenLike old new block []
    rw [Node.childrenLike] at inner
    rw [Statement.declare, Statement.declare, inner]
    cases declareBlock old [] block with
    | error stop => rfl
    | ok children => exact Namespace.declareVariations_childrenLike old new children variations ns
  | .loop _ block _, ns => by
    rw [Statement.declare, Statement.declare]
    exact declareBlock_childrenLike old new block ns
  | .source _ _ block _, ns => by
    rw [Statement.declare, Statement.declare]
    exact declareBlock_childrenLike old new block ns
  | .define _ _ _, _ => rfl
  | .function _ _ _ _, _ => rfl
  | .result _ _, _ => rfl

/-- What a block declares under another name. -/
theorem declareBlock_childrenLike (old new : Path) : ∀ (block : List Statement) (ns : Namespace),
    declareBlock new (Node.childrenLike new ns) block = (declareBlock old ns block).map (Node.childrenLike new)
  | [], _ => rfl
  | s :: rest, ns => by
    rw [declareBlock, declareBlock, Statement.declare_childrenLike old new s ns]
    cases s.declare old ns with
    | error stop => rfl
    | ok next => exact declareBlock_childrenLike old new rest next

end

end RecordStats
