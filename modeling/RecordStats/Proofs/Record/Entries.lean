import RecordStats.Proofs.Record.Route
import RecordStats.Proofs.Tree.Lookup

/-! What the storages hold after some fills. A fill changes the one storage that it names, so a storage holds what the
    fills under its own name make of it, in their order; fills of other storages may stand anywhere between them. A tree
    is its structure and what its storages hold. -/

namespace RecordStats

/-- A storage after some entries in order. -/
def Storage.fillAll (s : Storage) (fills : List Fill) : Storage :=
  fills.foldl (fun s f => s.fill f.weight f.sample) s

namespace Node

/-- The name and the content of a storage. -/
def storage? : Node → Option (Path × Storage)
  | storage name content => some (name, content)
  | _ => none

/-- The storages among some nodes, by name. -/
def storages (ns : List Node) : List (Path × Storage) := ns.filterMap storage?

@[simp] theorem storages_nil : storages [] = [] := rfl

@[simp] theorem storages_append (ms ns : List Node) : storages (ms ++ ns) = storages ms ++ storages ns :=
  List.filterMap_append

@[simp] theorem storages_namespace (name : Path) (children : List (String × Node)) (ns : List Node) :
    storages (.namespace name children :: ns) = storages ns := rfl

@[simp] theorem storages_binning (name : Path) (bins : Bins Float) (axis : Expr) (values : List Node) (u o v : Node)
    (ns : List Node) : storages (binning name bins axis values u o v :: ns) = storages ns := rfl

@[simp] theorem storages_storage (name : Path) (content : Storage) (ns : List Node) :
    storages (storage name content :: ns) = (name, content) :: storages ns := rfl

theorem mem_storages {name : Path} {content : Storage} {ns : List Node} :
    (name, content) ∈ storages ns ↔ .storage name content ∈ ns := by
  rw [storages, List.mem_filterMap]
  constructor
  · rintro ⟨n, hn, h⟩
    cases n <;> cases h
    exact hn
  · intro h
    exact ⟨_, h, rfl⟩

theorem names_sublist (ns : List Node) : ((storages ns).map Prod.fst).Sublist (ns.map name) := by
  induction ns with
  | nil => exact .slnil
  | cons n rest ih =>
    cases n with
    | storage own content => exact ih.cons_cons _
    | _ => exact ih.cons _

/-! ### One change -/

/-- The storage after a change of the one under a name. -/
def changed (f : Storage → Storage) (path : Path) (s : Path × Storage) : Path × Storage :=
  if s.1 = path then (s.1, f s.2) else s

variable {f : Storage → Storage}

/-- Where no storage has the name, nothing is changed. -/
theorem map_changed_of_ne {path : Path} {l : List (Path × Storage)} (h : ∀ s ∈ l, s.1 ≠ path) :
    l.map (changed f path) = l :=
  (List.map_congr_left fun s hs => if_neg (h s hs)).trans (List.map_id' l)

/-- A change among some of the storages, when no other has the name. -/
theorem map_changed_around {before l after : List (Path × Storage)} {path : Path}
    (distinct : ((before ++ (l ++ after)).map Prod.fst).Nodup) (hl : ∃ s ∈ l, s.1 = path) :
    (before ++ (l ++ after)).map (changed f path) = before ++ (l.map (changed f path) ++ after) := by
  obtain ⟨s, hs, rfl⟩ := hl
  simp only [List.map_append, List.nodup_append, List.forall_mem_map, List.mem_append] at distinct
  obtain ⟨-, ⟨-, -, back⟩, front⟩ := distinct
  have earlier : before.map (changed f s.1) = before :=
    map_changed_of_ne fun t ht => front t ht s.1 (.inl (List.mem_map_of_mem hs))
  have later : after.map (changed f s.1) = after := map_changed_of_ne fun t ht => (back s hs t ht).symm
  rw [List.map_append, List.map_append, earlier, later]

/-! ### Parts and what is around them -/

theorem storages_withSlot {node next : Node} {slot : Slot} (h : node.slotChild slot = .ok next) :
    ∃ before after, ∀ child, storages (nodes (node.withSlot slot child)) = before ++ (storages (nodes child) ++ after) := by
  cases node with
  | binning name bins axis values u o v =>
    cases slot with
    | bin i =>
      obtain ⟨hlt, -⟩ := List.getElem?_eq_some_iff.mp (slotChild_bin.mp h)
      refine ⟨storages (nodesOfValues (values.take i)),
        storages (nodesOfValues (values.drop (i + 1)) ++ (nodes u ++ (nodes o ++ nodes v))), fun child => ?_⟩
      rw [withSlot, nodes, storages_binning, List.set_eq_take_append_cons_drop, if_pos hlt]
      simp only [nodesOfValues_eq_flatMap, List.flatMap_append, List.flatMap_cons, storages_append, List.append_assoc]
    | underflow =>
      refine ⟨storages (nodesOfValues values), storages (nodes o ++ nodes v), fun child => ?_⟩
      rw [withSlot, nodes, storages_binning, storages_append, storages_append]
    | overflow =>
      refine ⟨storages (nodesOfValues values ++ nodes u), storages (nodes v), fun child => ?_⟩
      rw [withSlot, nodes, storages_binning]
      simp only [storages_append, List.append_assoc]
    | nanflow =>
      refine ⟨storages (nodesOfValues values ++ (nodes u ++ nodes o)), [], fun child => ?_⟩
      rw [withSlot, nodes, storages_binning]
      simp only [storages_append, List.append_assoc, List.append_nil]
  | _ => cases h

theorem slot_of_mem {name : Path} {bins : Bins Float} {axis : Expr} {values : List Node} {u o v n : Node}
    (hn : n ∈ nodes (binning name bins axis values u o v)) :
    n = binning name bins axis values u o v ∨
      ∃ slot next, slotChild slot (binning name bins axis values u o v) = .ok next ∧ n ∈ nodes next := by
  rw [nodes] at hn
  simp only [List.mem_cons, List.mem_append, mem_nodesOfValues] at hn
  rcases hn with rfl | ⟨c, hc, hn⟩ | hn | hn | hn
  · exact .inl rfl
  · obtain ⟨i, hi⟩ := List.mem_iff_getElem?.mp hc
    exact .inr ⟨.bin i, c, slotChild_bin.mpr hi, hn⟩
  · exact .inr ⟨.underflow, u, rfl, hn⟩
  · exact .inr ⟨.overflow, o, rfl, hn⟩
  · exact .inr ⟨.nanflow, v, rfl, hn⟩

theorem storages_modifyChild {children : Namespace} {key : String} {node : Node}
    (h : Dict.get? children key = some node) :
    ∃ before after, storages (nodesOfChildren children) = before ++ (storages (nodes node) ++ after) ∧ ∀ f rest,
      storages (nodesOfChildren (modifyChild f key rest children)) =
        before ++ (storages (nodes (modifyAt f rest node)) ++ after) := by
  induction children with
  | nil => cases h
  | cons c others ih =>
    obtain ⟨k, first⟩ := c
    rw [Dict.get?_cons] at h
    split at h
    · next hk =>
      cases h
      refine ⟨[], storages (nodesOfChildren others), ?_, fun f rest => ?_⟩
      · rw [nodesOfChildren, storages_append, List.nil_append]
      · rw [modifyChild, if_pos hk, nodesOfChildren, storages_append, List.nil_append]
    · next hk =>
      obtain ⟨before, after, hnodes, hmodified⟩ := ih h
      refine ⟨storages (nodes first) ++ before, after, ?_, fun f rest => ?_⟩
      · rw [nodesOfChildren, storages_append, hnodes, List.append_assoc]
      · rw [modifyChild, if_neg hk, nodesOfChildren, storages_append, hmodified, List.append_assoc]

/-- A step down to a storage leads to the part that has the storage. A change below the step changes this part alone. -/
theorem storages_around {name rest : Path} {node : Node} {s : Segment} {content : Storage} (hp : Placed name node)
    (h : storage (name ++ s :: rest) content ∈ nodes node) :
    ∃ next before after, Placed (name ++ [s]) next ∧ storage (name ++ s :: rest) content ∈ nodes next ∧
      storages (nodes node) = before ++ (storages (nodes next) ++ after) ∧
      ∀ f, storages (nodes (modifyAt f (s :: rest) node)) = before ++ (storages (nodes (modifyAt f rest next)) ++ after) := by
  have below : storage (name ++ s :: rest) content ≠ node := by
    intro heq
    have named := hp.name_eq
    rw [← heq, Node.name] at named
    exact List.cons_ne_nil _ _ (List.append_right_eq_self.mp named)
  -- Names below two different steps differ.
  have step_eq : ∀ {t : Segment} {c : Node}, Placed (name ++ [t]) c →
      storage (name ++ s :: rest) content ∈ nodes c → t = s := by
    intro t c hc hn
    obtain ⟨path, hstep⟩ := hc.prefix_of_mem hn
    rw [Node.name, List.append_assoc] at hstep
    exact (List.cons.inj (List.append_cancel_left hstep)).1.symm
  cases node with
  | storage own content =>
    rw [nodes] at h
    exact (below (List.mem_singleton.mp h)).elim
  | «namespace» own children =>
    obtain ⟨-, sorted, placed⟩ := hp
    rw [nodes] at h
    obtain ⟨c, hc, hn⟩ := mem_nodesOfChildren.mp ((List.mem_cons.mp h).resolve_left below)
    have there := placedChildren_iff.mp placed c hc
    obtain rfl := step_eq there hn
    obtain ⟨before, after, hnodes, hmodified⟩ := storages_modifyChild (Dict.get?_of_mem sorted hc)
    refine ⟨c.2, before, after, there, hn, ?_, fun f => ?_⟩
    · rw [nodes, storages_namespace, hnodes]
    · rw [modifyAt, nodes, storages_namespace, hmodified]
  | binning own bins axis values u o v =>
    obtain ⟨slot, next, hslot, hn⟩ := (slot_of_mem h).resolve_left below
    have there := hp.slotChild hslot
    obtain rfl := step_eq there hn
    obtain ⟨before, after, hnodes⟩ := storages_withSlot hslot
    refine ⟨next, before, after, there, hn, ?_, fun f => ?_⟩
    · rw [← hnodes, withSlot_self hslot]
    · rw [modifyAt_slot f rest hp hslot, hnodes]

/-- The node under the name of a placed node is the node itself. -/
theorem Placed.eq_of_name {name : Path} {node n : Node} (hp : Placed name node) (hn : n ∈ nodes node)
    (hname : n.name = name) : n = node := by
  obtain ⟨path, heq, hfound⟩ := lookup_of_mem_nodes hp n hn
  obtain rfl : path = [] := List.self_eq_append_right.mp (hname.symm.trans heq)
  cases hfound
  rfl

/-- A change at the name of a storage changes this storage and no other. -/
theorem storages_modifyAt {name path : Path} {node : Node} {content : Storage} (hp : Placed name node)
    (h : storage (name ++ path) content ∈ nodes node) :
    storages (nodes (modifyAt f path node)) = (storages (nodes node)).map (changed f (name ++ path)) := by
  induction path generalizing name node with
  | nil =>
    rw [List.append_nil] at h
    obtain rfl := hp.eq_of_name h rfl
    simp [modifyAt, nodes, changed]
  | cons s rest ih =>
    obtain ⟨next, before, after, there, hnext, hnodes, hmodified⟩ := storages_around hp h
    have distinct := (names_sublist (nodes node)).nodup (distinct_nodes hp)
    have inside := ih there (by rwa [List.append_assoc, List.singleton_append])
    rw [List.append_assoc, List.singleton_append] at inside
    rw [hnodes] at distinct
    rw [hmodified, hnodes, map_changed_around distinct ⟨_, mem_storages.mpr hnext, rfl⟩, inside]

/-! ### Structure and entries -/

theorem storages_emptied (ns : List Node) :
    storages (ns.map emptied) = (storages ns).map fun s => (s.1, s.2.zero) := by
  induction ns with
  | nil => rfl
  | cons n rest ih => cases n <;> simp [emptied, ih]

theorem storages_split {a b : Node} {l m : List (Path × Storage)} (he : a.emptied = b.emptied)
    (h : storages (nodes a) ++ l = storages (nodes b) ++ m) : storages (nodes a) = storages (nodes b) ∧ l = m := by
  refine List.append_inj h ?_
  have lengths := congrArg (fun n => (storages (nodes n)).length) he
  simpa only [nodes_emptied, storages_emptied, List.length_map] using lengths

theorem storagesOfValues_split {a b : List Node} {l m : List (Path × Storage)} (he : emptiedValues a = emptiedValues b)
    (h : storages (nodesOfValues a) ++ l = storages (nodesOfValues b) ++ m) :
    storages (nodesOfValues a) = storages (nodesOfValues b) ∧ l = m := by
  refine List.append_inj h ?_
  have lengths := congrArg (fun values => (storages (nodesOfValues values)).length) he
  simpa only [nodesOfValues_emptied, storages_emptied, List.length_map] using lengths

mutual

/-- A node is its structure and what its storages hold. -/
theorem eq_of_storages : ∀ {a b : Node}, a.emptied = b.emptied → storages (nodes a) = storages (nodes b) → a = b
  | .namespace name children, b, he, hs => by
    cases b <;> simp only [emptied, reduceCtorEq, Node.namespace.injEq] at he
    obtain ⟨rfl, he⟩ := he
    rw [nodes, nodes, storages_namespace, storages_namespace] at hs
    rw [eq_of_storagesOfChildren he hs]
  | binning name bins axis values u o v, b, he, hs => by
    cases b <;> simp only [emptied, reduceCtorEq, Node.binning.injEq] at he
    obtain ⟨rfl, rfl, rfl, hvalues, hu, ho, hv⟩ := he
    rw [nodes, nodes, storages_binning, storages_binning] at hs
    simp only [storages_append] at hs
    obtain ⟨values_eq, hs⟩ := storagesOfValues_split hvalues hs
    obtain ⟨u_eq, hs⟩ := storages_split hu hs
    obtain ⟨o_eq, v_eq⟩ := storages_split ho hs
    rw [eq_of_storagesOfValues hvalues values_eq, eq_of_storages hu u_eq, eq_of_storages ho o_eq, eq_of_storages hv v_eq]
  | storage name content, b, he, hs => by
    cases b <;> simp only [emptied, reduceCtorEq, Node.storage.injEq] at he
    simp only [nodes, storages_storage, storages_nil, List.cons.injEq, Prod.mk.injEq, and_true] at hs
    rw [hs.1, hs.2]

theorem eq_of_storagesOfChildren : ∀ {a b : List (String × Node)}, emptiedChildren a = emptiedChildren b →
    storages (nodesOfChildren a) = storages (nodesOfChildren b) → a = b
  | [], [], _, _ => rfl
  | [], _ :: _, he, _ => nomatch he
  | _ :: _, [], he, _ => nomatch he
  | (key, node) :: rest, (other, c) :: more, he, hs => by
    simp only [emptiedChildren, List.cons.injEq, Prod.mk.injEq] at he
    obtain ⟨⟨rfl, hnode⟩, hrest⟩ := he
    rw [nodesOfChildren, nodesOfChildren, storages_append, storages_append] at hs
    obtain ⟨first, others⟩ := storages_split hnode hs
    rw [eq_of_storages hnode first, eq_of_storagesOfChildren hrest others]

theorem eq_of_storagesOfValues : ∀ {a b : List Node}, emptiedValues a = emptiedValues b →
    storages (nodesOfValues a) = storages (nodesOfValues b) → a = b
  | [], [], _, _ => rfl
  | [], _ :: _, he, _ => nomatch he
  | _ :: _, [], he, _ => nomatch he
  | node :: rest, c :: more, he, hs => by
    simp only [emptiedValues, List.cons.injEq] at he
    obtain ⟨hnode, hrest⟩ := he
    rw [nodesOfValues, nodesOfValues, storages_append, storages_append] at hs
    obtain ⟨first, others⟩ := storages_split hnode hs
    rw [eq_of_storages hnode first, eq_of_storagesOfValues hrest others]

end

end Node

/-! ### Some fills -/

theorem Fill.filter_eq_nil {fills : List Fill} {path : Path} (h : ∀ f ∈ fills, f.path ≠ path) :
    (fills.filter fun f => f.path = path) = [] :=
  List.filter_eq_nil_iff.mpr fun f hf => by simpa using h f hf

/-- The names of the storages of a tree. -/
def Namespace.leafNames (tree : Namespace) : List Path := (Node.storages (Node.nodesOfChildren tree)).map Prod.fst

namespace Namespace

variable {tree other : Namespace} {fills more : List Fill}

theorem mem_leafNames {path : Path} :
    path ∈ tree.leafNames ↔ ∃ content, .storage path content ∈ Node.nodesOfChildren tree := by
  simp only [leafNames, List.mem_map, Prod.exists, Node.mem_storages, exists_and_right, exists_eq_right]

@[simp] theorem leafNames_emptied (tree : Namespace) : leafNames (Node.emptiedChildren tree) = tree.leafNames := by
  simp [leafNames, Node.nodesOfChildren_emptied, Node.storages_emptied]

/-- Trees of the same structure have the same storages. -/
theorem leafNames_congr (h : Node.emptiedChildren tree = Node.emptiedChildren other) :
    tree.leafNames = other.leafNames := by
  rw [← leafNames_emptied, h, leafNames_emptied]

theorem emptied_fillAll (tree : Namespace) (fills : List Fill) :
    Node.emptiedChildren (tree.fillAll fills) = Node.emptiedChildren tree := by
  induction fills generalizing tree with
  | nil => rfl
  | cons f rest ih => exact (ih _).trans (Fill.emptied_apply tree f)

theorem placed_congr (h : Node.emptiedChildren tree = Node.emptiedChildren other) :
    Node.Placed [] (.namespace [] tree) ↔ Node.Placed [] (.namespace [] other) := by
  rw [← Node.placed_emptied, Node.emptied, h, ← Node.emptied, Node.placed_emptied]

theorem storages_apply (hp : Node.Placed [] (.namespace [] tree)) {f : Fill} (hf : f.path ∈ tree.leafNames) :
    Node.storages (Node.nodesOfChildren (f.apply tree)) =
      (Node.storages (Node.nodesOfChildren tree)).map (Node.changed (·.fill f.weight f.sample) f.path) := by
  obtain ⟨content, hmem⟩ := mem_leafNames.mp hf
  have step : Node.modifyAt (·.fill f.weight f.sample) f.path (.namespace [] tree) = .namespace [] (f.apply tree) :=
    Part.fill_namespace [] tree f
  have there : .storage ([] ++ f.path) content ∈ Node.nodes (.namespace [] tree) := by
    rw [Node.nodes]
    exact List.mem_cons_of_mem _ hmem
  have changed := Node.storages_modifyAt (f := (·.fill f.weight f.sample)) hp there
  rwa [step, Node.nodes, Node.nodes, Node.storages_namespace, Node.storages_namespace] at changed

/-- After some fills of its storages a tree holds in each of them what the fills of this one make of it. -/
theorem storages_fillAll (hp : Node.Placed [] (.namespace [] tree)) (hf : ∀ f ∈ fills, f.path ∈ tree.leafNames) :
    Node.storages (Node.nodesOfChildren (tree.fillAll fills)) =
      (Node.storages (Node.nodesOfChildren tree)).map fun s =>
        (s.1, s.2.fillAll (fills.filter fun f => f.path = s.1)) := by
  induction fills generalizing tree with
  | nil => exact (List.map_id' _).symm
  | cons f rest ih =>
    obtain ⟨here, later⟩ := List.forall_mem_cons.mp hf
    have shape := Fill.emptied_apply tree f
    have others := ih ((placed_congr shape).mpr hp) (by rwa [leafNames_congr shape])
    refine others.trans ?_
    rw [storages_apply hp here, List.map_map]
    refine List.map_congr_left fun s _ => ?_
    by_cases hs : s.1 = f.path
    · have mine : (f :: rest).filter (fun f => f.path = s.1) = f :: rest.filter fun f => f.path = s.1 :=
        List.filter_cons_of_pos (by simpa using hs.symm)
      simp only [Function.comp_apply, Node.changed, if_pos hs, mine, Storage.fillAll, List.foldl_cons]
    · have others : (f :: rest).filter (fun f => f.path = s.1) = rest.filter fun f => f.path = s.1 :=
        List.filter_cons_of_neg (by simpa using Ne.symm hs)
      simp only [Function.comp_apply, Node.changed, if_neg hs, others]

/-- Fills that are the same for each storage make the same tree, in whatever order the storages take turns. -/
theorem fillAll_congr (hp : Node.Placed [] (.namespace [] tree)) (hf : ∀ f ∈ fills, f.path ∈ tree.leafNames)
    (hm : ∀ f ∈ more, f.path ∈ tree.leafNames)
    (h : ∀ path, (fills.filter fun f => f.path = path) = more.filter fun f => f.path = path) :
    tree.fillAll fills = tree.fillAll more := by
  refine Node.eq_of_storagesOfChildren ?_ ?_
  · rw [emptied_fillAll, emptied_fillAll]
  · simp only [storages_fillAll hp hf, storages_fillAll hp hm, h]

end Namespace

end RecordStats
