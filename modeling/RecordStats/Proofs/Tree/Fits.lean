import RecordStats.Proofs.Program.Axes
import RecordStats.Proofs.Tree.Routing

/-! A tree with a place for every statement. What a program declares has, for every statement that works on the
    tree, the child that it works on: with as many binnings as the statement has axes, a slot for every number,
    and below them a storage or a namespace which fits the statements of the block. Later declarations only add
    children, and a copy under another name has a place for whatever its original has. -/

namespace RecordStats

/-! ### Bins have a slot for every number -/

namespace Bins

/-- Where a number is sorted into a bin, there is such a bin. -/
def Selects (bins : Bins Float) : Prop := ∀ (x : Float) (i : Nat), bins.select x = .bin i → i < bins.count

theorem regular_selects {n : Nat} (hn : n < 2 ^ 64) (low high : Float) :
    (regular n low high).Selects := by
  intro x i h
  simp only [select] at h
  split at h
  · cases h
  next hzero =>
  split at h
  · cases h
  next habove =>
  split at h
  · next hnumber =>
    cases h
    exact Double.whole_lt hn hzero habove hnumber
  · cases h

theorem edged_selects (edges : List Float) : (edged edges).Selects := by
  intro x i h
  simp only [select] at h
  split at h
  · split at h
    · cases h
    split at h
    · cases h
    cases hbin : between x 0 edges with
    | none =>
      rw [hbin] at h
      cases h
    | some k =>
      rw [hbin] at h
      cases h
      obtain ⟨j, rfl, inside, -⟩ := holds_of_between hbin
      rw [count, Nat.zero_add]
      exact Nat.lt_sub_of_add_lt inside
  · cases h

theorem selects_of_ofCall {e : Expr} {bins : Bins Float} (h : ofCall e = .ok bins) : bins.Selects := by
  rcases eq_of_ofCall h with ⟨n, a, b, -, rfl⟩ | ⟨-, -, -, edges, -, -, rfl⟩
  · have hlt := Int64.toInt_lt n
    have few_bins : n.toInt.toNat < 2 ^ 64 := by omega
    exact regular_selects few_bins a b
  · exact edged_selects edges

end Bins

/-! ### Places -/

/-- The expression of a storage is one that a text can hold. -/
def Storage.WellFormed (most : Nat) : Storage → Prop
  | count _ => True
  | sum e _ | profile e _ | fraction e _ => e.WellFormed most

namespace Node

/-- The node is a storage that a collector can fill. -/
def Fillable (most : Nat) : Node → Prop
  | storage _ content => content.WellFormed most
  | _ => False

/-- The node is a namespace with such children. -/
def Holds (P : Namespace → Prop) : Node → Prop
  | .namespace _ children => P children
  | _ => False

/-- Through so many binnings, whatever their slots, a record comes to a node of the given kind. -/
inductive Opens (most : Nat) (P : Node → Prop) : Nat → Node → Prop where
  | here {node : Node} (h : P node) : Opens most P 0 node
  | binning {axes : Nat} {name : Path} {bins : Bins Float} {axis : Expr} {values : List Node} {u o v : Node}
      (axis_wf : axis.WellFormed most) (selects : bins.Selects) (length : values.length = bins.count)
      (values_open : ∀ c ∈ values, Opens most P axes c) (u_open : Opens most P axes u) (o_open : Opens most P axes o)
      (v_open : Opens most P axes v) : Opens most P (axes + 1) (.binning name bins axis values u o v)

/-- Such nodes may be copied under another name. -/
def Copied (P : Node → Prop) : Prop := ∀ node name, P node → P (zerosLike name node)

theorem fillable_copied (most : Nat) : Copied (Fillable most) := by
  intro node name h
  cases node with
  | storage old content =>
    rw [zerosLike]
    cases content with
    | count totals => exact trivial
    | sum e totals => exact h
    | profile e totals => exact h
    | fraction e totals => exact h
  | _ => exact h.elim

theorem holds_copied {P : Namespace → Prop} (h : ∀ ns name, P ns → P (childrenLike name ns)) : Copied (Holds P) := by
  intro node name hnode
  cases node with
  | «namespace» old children =>
    rw [zerosLike]
    exact h children name hnode
  | _ => exact hnode.elim

variable {most : Nat} {P : Node → Prop}

theorem Opens.binned {axes : Nat} {bins : Bins Float} {axis : Expr} {template : Node} (axis_wf : axis.WellFormed most)
    (selects : bins.Selects) (copies : ∀ name, Opens most P axes (zerosLike name template)) (name : Path) :
    Opens most P (axes + 1) (binned name bins axis template) := by
  rw [binned_eq]
  refine .binning axis_wf selects ?_ (fun c hc => ?_) (copies _) (copies _) (copies _)
  · rw [List.length_map, List.length_range]
  · obtain ⟨i, -, rfl⟩ := List.mem_map.mp hc
    exact copies _

theorem Opens.zerosLike (hP : Copied P) {axes : Nat} {node : Node} (h : Opens most P axes node) (name : Path) :
    Opens most P axes (node.zerosLike name) := by
  induction h generalizing name with
  | here h => exact .here (hP _ name h)
  | binning axis_wf selects length values_open u_open o_open v_open ihvalues ihu iho ihv =>
    rw [zerosLike_binning]
    exact .binned axis_wf selects ihv name

theorem Opens.wrap (hP : Copied P) {name : Path} {node : Node} (h : P node) :
    ∀ {axes : List (Axis Expr)} {wrapped : Node}, (∀ a ∈ axes, a.WellFormed most) →
      Node.wrap name node axes = .ok wrapped → Opens most P axes.length wrapped
  | [], _, _, hw => by
    cases hw
    exact .here h
  | axis :: rest, wrapped, wf, hw => by
    obtain ⟨haxis, hrest⟩ := List.forall_mem_cons.mp wf
    obtain ⟨inner, bins, hinner, hbins, rfl⟩ := Node.wrap_cons_eq_ok.mp hw
    have inner_opens := wrap hP h hrest hinner
    exact .binned haxis.expression (Bins.selects_of_ofCall hbins) (inner_opens.zerosLike hP) name

end Node

mutual

/-- The namespace has a place for the statement. -/
def Statement.Fits (most : Nat) : Statement → Namespace → Prop
  | .collect c _, ns =>
    ∃ node, Dict.get? ns c.name.text = some node ∧ node.Opens most (Node.Fillable most) c.axes.length
  | .region name _ axes block _, ns =>
    ∃ node, Dict.get? ns name.text = some node ∧
      node.Opens most (Node.Holds fun children => FitsBlock most block children) axes.length
  | .vary variations block _, ns =>
    ∀ v ∈ variations, ∃ node, Dict.get? ns v.name.text = some node ∧
      node.Holds fun children => FitsBlock most block children
  | .loop _ block _, ns => FitsBlock most block ns
  | .source _ _ block _, ns => FitsBlock most block ns
  | .define _ _ _, _ => True
  | .function _ _ _ _, _ => True
  | .result _ _, _ => True

/-- The namespace has a place for every statement of the block. -/
def FitsBlock (most : Nat) : List Statement → Namespace → Prop
  | [], _ => True
  | s :: rest, ns => s.Fits most ns ∧ FitsBlock most rest ns

end

/-! ### Copies and later declarations -/

theorem Node.get?_childrenLike (name : Path) (ns : Namespace) (key : String) :
    Dict.get? (childrenLike name ns) key = (Dict.get? ns key).map (zerosLike (name ++ [.field key])) := by
  induction ns with
  | nil => rfl
  | cons c rest ih =>
    obtain ⟨k, node⟩ := c
    rw [childrenLike, Dict.get?_cons, Dict.get?_cons]
    split
    · next hk =>
      subst hk
      rfl
    · exact ih

theorem Node.get?_childrenLike_some {name : Path} {ns : Namespace} {key : String} {node : Node}
    (h : Dict.get? ns key = some node) :
    Dict.get? (childrenLike name ns) key = some (zerosLike (name ++ [.field key]) node) := by
  rw [get?_childrenLike, h]
  rfl

variable {most : Nat}

mutual

theorem Statement.Fits.childrenLike : ∀ {s : Statement} {ns : Namespace} (name : Path), s.Fits most ns →
    s.Fits most (Node.childrenLike name ns)
  | .collect c s, ns, name, h => by
    simp only [Statement.Fits] at h ⊢
    obtain ⟨node, hnode, hopens⟩ := h
    exact ⟨_, Node.get?_childrenLike_some hnode, hopens.zerosLike (Node.fillable_copied most) _⟩
  | .region n predicate axes block s, ns, name, h => by
    simp only [Statement.Fits] at h ⊢
    obtain ⟨node, hnode, hopens⟩ := h
    have copied := Node.holds_copied fun ns name (h : FitsBlock most block ns) => h.childrenLike name
    exact ⟨_, Node.get?_childrenLike_some hnode, hopens.zerosLike copied _⟩
  | .vary variations block s, ns, name, h => by
    simp only [Statement.Fits] at h ⊢
    intro v hv
    obtain ⟨node, hnode, hholds⟩ := h v hv
    exact ⟨_, Node.get?_childrenLike_some hnode, Node.holds_copied (fun _ name h => h.childrenLike name) node _ hholds⟩
  | .loop ranges block s, ns, name, h => by
    simp only [Statement.Fits] at h ⊢
    exact h.childrenLike name
  | .source inclusive patterns block s, ns, name, h => by
    simp only [Statement.Fits] at h ⊢
    exact h.childrenLike name
  | .define _ _ _, _, _, _ => by simp only [Statement.Fits]
  | .function _ _ _ _, _, _, _ => by simp only [Statement.Fits]
  | .result _ _, _, _, _ => by simp only [Statement.Fits]

theorem FitsBlock.childrenLike : ∀ {block : List Statement} {ns : Namespace} (name : Path), FitsBlock most block ns →
    FitsBlock most block (Node.childrenLike name ns)
  | [], _, _, _ => by simp only [FitsBlock]
  | s :: rest, ns, name, h => by
    simp only [FitsBlock] at h ⊢
    exact ⟨h.1.childrenLike name, h.2.childrenLike name⟩

end

/-- What is found in one namespace is found in the other. -/
def Namespace.Within (ns later : Namespace) : Prop :=
  ∀ key node, Dict.get? ns key = some node → Dict.get? later key = some node

theorem Namespace.Within.refl (ns : Namespace) : ns.Within ns := fun _ _ h => h

theorem Namespace.Within.trans {a b c : Namespace} (h : a.Within b) (h' : b.Within c) : a.Within c :=
  fun key node hfound => h' key node (h key node hfound)

mutual

theorem Statement.Fits.later : ∀ {s : Statement} {ns later : Namespace}, s.Fits most ns → ns.Within later →
    s.Fits most later
  | .collect c s, ns, later, h, hw => by
    simp only [Statement.Fits] at h ⊢
    obtain ⟨node, hnode, hopens⟩ := h
    exact ⟨node, hw _ _ hnode, hopens⟩
  | .region n predicate axes block s, ns, later, h, hw => by
    simp only [Statement.Fits] at h ⊢
    obtain ⟨node, hnode, hopens⟩ := h
    exact ⟨node, hw _ _ hnode, hopens⟩
  | .vary variations block s, ns, later, h, hw => by
    simp only [Statement.Fits] at h ⊢
    intro v hv
    obtain ⟨node, hnode, hholds⟩ := h v hv
    exact ⟨node, hw _ _ hnode, hholds⟩
  | .loop ranges block s, ns, later, h, hw => by
    simp only [Statement.Fits] at h ⊢
    exact h.later hw
  | .source inclusive patterns block s, ns, later, h, hw => by
    simp only [Statement.Fits] at h ⊢
    exact h.later hw
  | .define _ _ _, _, _, _, _ => by simp only [Statement.Fits]
  | .function _ _ _ _, _, _, _, _ => by simp only [Statement.Fits]
  | .result _ _, _, _, _, _ => by simp only [Statement.Fits]

theorem FitsBlock.later : ∀ {block : List Statement} {ns later : Namespace}, FitsBlock most block ns → ns.Within later →
    FitsBlock most block later
  | [], _, _, _, _ => by simp only [FitsBlock]
  | s :: rest, ns, later, h, hw => by
    simp only [FitsBlock] at h ⊢
    exact ⟨h.1.later hw, h.2.later hw⟩

end

/-! ### Declarations -/

theorem Namespace.within_declare {ns declared : Namespace} {own : Name} {node : Node}
    (h : ns.declare own node = .ok declared) : ns.Within declared ∧ Dict.get? declared own.text = some node := by
  unfold Namespace.declare at h
  split at h
  · exact absurd h Outcome.failAt_ne_ok
  · next hfree =>
    cases h
    refine ⟨fun key other hother => ?_, ?_⟩
    · rw [Dict.get?_insert, if_neg, hother]
      rintro rfl
      rw [Dict.has, hother] at hfree
      exact hfree rfl
    · rw [Dict.get?_insert, if_pos rfl]

/-- Every label of a variation gets a namespace that holds a copy of the block's. -/
theorem Namespace.within_declareVariations {name : Path} {block : Namespace} :
    ∀ {variations : List (Variation Expr)} {ns declared : Namespace},
      ns.declareVariations name block variations = .ok declared →
        ns.Within declared ∧ ∀ v ∈ variations, ∃ label, Dict.get? declared v.name.text =
          some (.namespace label (Node.childrenLike label block))
  | [], ns, _, h => by
    cases h
    exact ⟨.refl ns, nofun⟩
  | v :: rest, ns, declared, h => by
    obtain ⟨next, hnext, h⟩ := Namespace.declareVariations_cons_eq_ok.mp h
    obtain ⟨hwithin, hfound⟩ := within_declare hnext
    obtain ⟨hlater, hothers⟩ := within_declareVariations h
    exact ⟨hwithin.trans hlater, List.forall_mem_cons.mpr ⟨⟨_, hlater _ _ hfound⟩, hothers⟩⟩

theorem Storage.wellFormed_of_ofCollector {c : Collector Expr} {s : Span} {content : Storage} (wf : c.WellFormed most)
    (h : Storage.ofCollector c s = .ok content) : content.WellFormed most := by
  have measured : ∀ e, c.expression = some e → e.WellFormed most := fun e he => wf.expression e he
  unfold Storage.ofCollector at h
  split at h
  · cases h
    exact trivial
  · next e _ he =>
    cases h
    exact measured e he
  · next e _ he =>
    cases h
    exact measured e he
  · next e _ he =>
    cases h
    exact measured e he
  · exact absurd h Outcome.failAt_ne_ok

mutual

/-- A declaration keeps what is there and makes a place for the statement. -/
theorem Statement.fits_declare {name : Path} : ∀ {s : Statement} {ns declared : Namespace}, s.WellFormed most →
    s.declare name ns = .ok declared → ns.Within declared ∧ s.Fits most declared
  | .collect c s, ns, declared, wf, h => by
    obtain ⟨content, node, hcontent, hnode, h⟩ := Statement.declare_collect_eq_ok.mp h
    obtain ⟨hwithin, hfound⟩ := Namespace.within_declare h
    refine ⟨hwithin, ?_⟩
    have leaf : Node.Fillable most (.storage (name ++ [.field c.name.text]) content) :=
      Storage.wellFormed_of_ofCollector wf hcontent
    rw [Statement.Fits]
    exact ⟨node, hfound, .wrap (Node.fillable_copied most) leaf wf.axes hnode⟩
  | .region n predicate axes block s, ns, declared, ⟨_, haxes, hblock⟩, h => by
    obtain ⟨inner, node, hinner, hnode, h⟩ := Statement.declare_region_eq_ok.mp h
    obtain ⟨hwithin, hfound⟩ := Namespace.within_declare h
    refine ⟨hwithin, ?_⟩
    have fits := (fitsBlock_declare hblock hinner).2
    rw [Statement.Fits]
    refine ⟨node, hfound, .wrap (Node.holds_copied fun _ name h => h.childrenLike name) ?_ haxes hnode⟩
    exact fits
  | .vary variations block s, ns, declared, ⟨_, _, hblock⟩, h => by
    obtain ⟨inner, hinner, h⟩ := Statement.declare_vary_eq_ok.mp h
    obtain ⟨hwithin, hlabels⟩ := Namespace.within_declareVariations h
    refine ⟨hwithin, ?_⟩
    have fits := (fitsBlock_declare hblock hinner).2
    rw [Statement.Fits]
    intro v hv
    obtain ⟨label, hfound⟩ := hlabels v hv
    exact ⟨_, hfound, fits.childrenLike label⟩
  | .loop ranges block s, ns, declared, ⟨_, _, hblock⟩, h => by
    rw [Statement.declare] at h
    rw [Statement.Fits]
    exact fitsBlock_declare hblock h
  | .source inclusive patterns block s, ns, declared, ⟨_, hblock⟩, h => by
    rw [Statement.declare] at h
    rw [Statement.Fits]
    exact fitsBlock_declare hblock h
  | .define _ _ _, ns, _, _, h => by
    cases h
    rw [Statement.Fits]
    exact ⟨.refl ns, trivial⟩
  | .function _ _ _ _, ns, _, _, h => by
    cases h
    rw [Statement.Fits]
    exact ⟨.refl ns, trivial⟩
  | .result _ _, _, _, wf, _ => wf.elim

/-- What a block declares has a place for every statement of it. -/
theorem fitsBlock_declare {name : Path} : ∀ {block : List Statement} {ns declared : Namespace},
    Statement.WellFormedBlock most block → declareBlock name ns block = .ok declared →
      ns.Within declared ∧ FitsBlock most block declared
  | [], ns, _, _, h => by
    cases h
    rw [FitsBlock]
    exact ⟨.refl ns, trivial⟩
  | s :: rest, ns, declared, ⟨hs, hrest⟩, h => by
    obtain ⟨next, hnext, h⟩ := declareBlock_cons_eq_ok.mp h
    obtain ⟨hwithin, hfits⟩ := s.fits_declare hs hnext
    obtain ⟨hlater, hothers⟩ := fitsBlock_declare hrest h
    rw [FitsBlock]
    exact ⟨hwithin.trans hlater, hfits.later hlater, hothers⟩

end

/-- The tree that a program declares has a place for every statement of the program. -/
theorem Program.fits_tree {p : Program} {tree : Namespace} (wf : p.WellFormed most) (h : p.tree = .ok tree) :
    FitsBlock most p.block tree :=
  (fitsBlock_declare wf h).2

end RecordStats
