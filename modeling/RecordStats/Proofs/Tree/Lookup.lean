import RecordStats.Proofs.Tree.Placed

/-! Names lead to nodes. In a placed tree the name of every node, at any depth and also in bins and flow bins,
    is a path that leads from the root to that node, and no two nodes have the same name. -/

namespace RecordStats
namespace Node

/-! ### Steps of a path -/

theorem lookup_cons (node : Node) (segment : Segment) (path : Path) :
    node.lookup (segment :: path) = (node.child segment).bind fun c => c.lookup path := rfl

theorem lookup_of_child {node c : Node} {segment : Segment} (h : node.child segment = .ok c) (path : Path) :
    node.lookup (segment :: path) = c.lookup path := by
  rw [lookup_cons, h]
  rfl

theorem child_field {name : Path} {children : Dict Node} (h : children.Sorted) {key : String} {c : Node}
    (hc : (key, c) ∈ children) : child (.namespace name children) (.field key) = .ok c := by
  rw [child, Dict.get?_of_mem h hc]
  rfl

theorem child_bin {name : Path} {bins : Bins Float} {axis : Expr} {values : List Node} {u o v c : Node} {i : Nat}
    (few : values.length ≤ Bins.mostCount) (hc : values[i]? = some c) :
    child (binning name bins axis values u o v) (Slot.bin i).segment = .ok c := by
  obtain ⟨hlt, -⟩ := List.getElem?_eq_some_iff.mp hc
  have hi : (Int64.ofNat i).toInt = i := Slot.toInt_ofNat (Nat.lt_of_lt_of_le hlt few)
  rw [Slot.segment, child, hi, if_neg (by omega), Int.toNat_natCast, hc, Option.getD_some]

/-! ### Every node is placed -/

mutual

theorem placed_of_mem_nodes : ∀ {name : Path} {node : Node}, Placed name node → ∀ n ∈ nodes node, Placed n.name n
  | name, .namespace own children, h, n, hn => by
    rw [nodes] at hn
    rcases List.mem_cons.mp hn with rfl | hn
    · rwa [h.name_eq]
    · exact placed_of_mem_children h.2.2 n hn
  | name, binning own bins axis values u o v, h, n, hn => by
    rw [nodes] at hn
    simp only [List.mem_cons, List.mem_append] at hn
    rcases hn with rfl | hn | hn | hn | hn
    · rwa [h.name_eq]
    · exact placed_of_mem_values h.2.2.2.1 n hn
    · exact placed_of_mem_nodes h.2.2.2.2.1 n hn
    · exact placed_of_mem_nodes h.2.2.2.2.2.1 n hn
    · exact placed_of_mem_nodes h.2.2.2.2.2.2 n hn
  | name, storage own content, h, n, hn => by
    rw [nodes] at hn
    obtain rfl := List.mem_singleton.mp hn
    rwa [h.name_eq]

theorem placed_of_mem_children : ∀ {name : Path} {children : List (String × Node)}, PlacedChildren name children →
    ∀ n ∈ nodesOfChildren children, Placed n.name n
  | _, [], _, n, hn => by
    rw [nodesOfChildren] at hn
    cases hn
  | name, (key, node) :: rest, ⟨hnode, hrest⟩, n, hn => by
    rw [nodesOfChildren] at hn
    rcases List.mem_append.mp hn with hn | hn
    · exact placed_of_mem_nodes hnode n hn
    · exact placed_of_mem_children hrest n hn

theorem placed_of_mem_values : ∀ {name : Path} {start : Nat} {values : List Node}, PlacedValues name start values →
    ∀ n ∈ nodesOfValues values, Placed n.name n
  | _, _, [], _, n, hn => by
    rw [nodesOfValues] at hn
    cases hn
  | name, start, node :: rest, ⟨hnode, hrest⟩, n, hn => by
    rw [nodesOfValues] at hn
    rcases List.mem_append.mp hn with hn | hn
    · exact placed_of_mem_nodes hnode n hn
    · exact placed_of_mem_values hrest n hn

end

/-! ### Every node is found -/

mutual

theorem lookup_of_mem_nodes : ∀ {name : Path} {node : Node}, Placed name node →
    ∀ n ∈ nodes node, ∃ path, n.name = name ++ path ∧ node.lookup path = .ok n
  | name, .namespace own children, h, n, hn => by
    obtain ⟨rfl, hs, hc⟩ := h
    rw [nodes] at hn
    rcases List.mem_cons.mp hn with rfl | hn
    · exact ⟨[], (List.append_nil _).symm, rfl⟩
    · obtain ⟨c, hmem, path, hname, hfound⟩ := lookup_of_mem_children hc n hn
      refine ⟨.field c.1 :: path, hname, ?_⟩
      rw [lookup_of_child (child_field hs hmem), hfound]
  | name, binning own bins axis values u o v, h, n, hn => by
    obtain ⟨rfl, hlen, few, hvalues, hu, ho, hv⟩ := h
    rw [nodes] at hn
    simp only [List.mem_cons, List.mem_append] at hn
    rcases hn with rfl | hn | hn | hn | hn
    · exact ⟨[], (List.append_nil _).symm, rfl⟩
    · obtain ⟨i, c, hi, path, hname, hfound⟩ := lookup_of_mem_values hvalues n hn
      rw [Nat.zero_add] at hname
      refine ⟨(Slot.bin i).segment :: path, hname, ?_⟩
      rw [lookup_of_child (child_bin (hlen ▸ few) hi), hfound]
    · obtain ⟨path, hname, hfound⟩ := lookup_of_mem_nodes hu n hn
      exact ⟨Slot.underflow.segment :: path, by rw [hname, List.append_assoc]; rfl, hfound⟩
    · obtain ⟨path, hname, hfound⟩ := lookup_of_mem_nodes ho n hn
      exact ⟨Slot.overflow.segment :: path, by rw [hname, List.append_assoc]; rfl, hfound⟩
    · obtain ⟨path, hname, hfound⟩ := lookup_of_mem_nodes hv n hn
      exact ⟨Slot.nanflow.segment :: path, by rw [hname, List.append_assoc]; rfl, hfound⟩
  | name, storage own content, h, n, hn => by
    rw [nodes] at hn
    obtain rfl := List.mem_singleton.mp hn
    exact ⟨[], by rw [h.name_eq, List.append_nil], rfl⟩

theorem lookup_of_mem_children : ∀ {name : Path} {children : List (String × Node)},
    PlacedChildren name children → ∀ n ∈ nodesOfChildren children,
      ∃ c ∈ children, ∃ path, n.name = name ++ .field c.1 :: path ∧ c.2.lookup path = .ok n
  | _, [], _, n, hn => by
    rw [nodesOfChildren] at hn
    cases hn
  | name, (key, node) :: rest, ⟨hnode, hrest⟩, n, hn => by
    rw [nodesOfChildren] at hn
    rcases List.mem_append.mp hn with hn | hn
    · obtain ⟨path, hname, hfound⟩ := lookup_of_mem_nodes hnode n hn
      exact ⟨(key, node), List.mem_cons_self, path, by rw [hname, List.append_assoc]; rfl, hfound⟩
    · obtain ⟨c, hc, path, hname, hfound⟩ := lookup_of_mem_children hrest n hn
      exact ⟨c, List.mem_cons_of_mem _ hc, path, hname, hfound⟩

theorem lookup_of_mem_values : ∀ {name : Path} {start : Nat} {values : List Node},
    PlacedValues name start values → ∀ n ∈ nodesOfValues values, ∃ i node, values[i]? = some node ∧
      ∃ path, n.name = name ++ (Slot.bin (start + i)).segment :: path ∧ node.lookup path = .ok n
  | _, _, [], _, n, hn => by
    rw [nodesOfValues] at hn
    cases hn
  | name, start, node :: rest, ⟨hnode, hrest⟩, n, hn => by
    rw [nodesOfValues] at hn
    rcases List.mem_append.mp hn with hn | hn
    · obtain ⟨path, hname, hfound⟩ := lookup_of_mem_nodes hnode n hn
      exact ⟨0, node, rfl, path, by rw [hname, List.append_assoc]; rfl, hfound⟩
    · obtain ⟨i, c, hi, path, hname, hfound⟩ := lookup_of_mem_values hrest n hn
      rw [Nat.add_assoc, Nat.add_comm 1 i] at hname
      exact ⟨i + 1, c, hi, path, hname, hfound⟩

end

end Node

/-! ### No two nodes share a name -/

/-- What the names below two children have in common ends before their steps. -/
theorem Path.ne_of_ne_step {name left right : Path} {s t : Segment} (h : s ≠ t) :
    name ++ s :: left ≠ name ++ t :: right := fun heq =>
  h (List.cons.inj (List.append_cancel_left heq)).1

/-- A name is none of those below it. -/
theorem Path.ne_of_below {name path : Path} {s : Segment} : name ≠ name ++ s :: path := fun heq =>
  List.cons_ne_nil _ _ (List.self_eq_append_right.mp heq)

theorem Slot.bin_segment_injective {i j : Nat} (hi : i < Bins.mostCount) (hj : j < Bins.mostCount)
    (h : (Slot.bin i).segment = (Slot.bin j).segment) : i = j := by
  have hint := congrArg Int64.toInt (Segment.index.inj h)
  rw [Slot.toInt_ofNat hi, Slot.toInt_ofNat hj] at hint
  omega

namespace Node

/-- The names of some nodes, each once. -/
def Distinct (nodes : List Node) : Prop := (nodes.map Node.name).Nodup

theorem distinct_singleton (node : Node) : Distinct [node] := List.nodup_cons.mpr ⟨List.not_mem_nil, List.nodup_nil⟩

theorem distinct_append {left right : List Node} :
    Distinct (left ++ right) ↔ Distinct left ∧ Distinct right ∧ ∀ m ∈ left, ∀ n ∈ right, m.name ≠ n.name := by
  unfold Distinct
  rw [List.map_append, List.nodup_append]
  simp only [List.forall_mem_map]

/-- The name of a node below a placed one goes on from the placed one's. -/
theorem Placed.prefix_of_mem {name : Path} {node : Node} (h : Placed name node) {n : Node} (hn : n ∈ nodes node) :
    ∃ path, n.name = name ++ path := by
  obtain ⟨path, hname, -⟩ := lookup_of_mem_nodes h n hn
  exact ⟨path, hname⟩

theorem ne_of_steps {name : Path} {a b m n : Node} {s t : Segment} (hne : s ≠ t) (ha : Placed (name ++ [s]) a)
    (hb : Placed (name ++ [t]) b) (hm : m ∈ nodes a) (hn : n ∈ nodes b) : m.name ≠ n.name := by
  obtain ⟨left, hl⟩ := ha.prefix_of_mem hm
  obtain ⟨right, hr⟩ := hb.prefix_of_mem hn
  rw [hl, hr, List.append_assoc, List.append_assoc]
  exact Path.ne_of_ne_step hne

theorem Placed.ne_of_below {name : Path} {s : Segment} {c n : Node} (h : Placed (name ++ [s]) c) (hn : n ∈ nodes c) :
    name ≠ n.name := by
  obtain ⟨path, hname⟩ := h.prefix_of_mem hn
  rw [hname, List.append_assoc]
  exact Path.ne_of_below

/-- Bins stand under indices, and flow bins under words. -/
theorem PlacedValues.ne_of_field {name : Path} {start : Nat} {values : List Node} (h : PlacedValues name start values)
    {key : String} {c m n : Node} (hc : Placed (name ++ [.field key]) c) (hm : m ∈ nodesOfValues values)
    (hn : n ∈ nodes c) : m.name ≠ n.name := by
  obtain ⟨i, -, -, left, hl, -⟩ := lookup_of_mem_values h m hm
  obtain ⟨right, hr⟩ := hc.prefix_of_mem hn
  rw [hl, hr, List.append_assoc]
  exact Path.ne_of_ne_step Segment.noConfusion

/-- Flow bins stand under three different words. -/
theorem distinct_flows {name : Path} {k k' k'' : String} {u o v : Node} (apart : [k, k', k''].Nodup)
    (hu : Placed (name ++ [.field k]) u) (ho : Placed (name ++ [.field k']) o) (hv : Placed (name ++ [.field k'']) v)
    (first : Distinct (nodes u)) (second : Distinct (nodes o)) (third : Distinct (nodes v)) :
    Distinct (nodes u ++ (nodes o ++ nodes v)) := by
  simp only [List.nodup_cons, List.mem_cons, not_or, List.not_mem_nil, not_false_eq_true, and_true,
    List.nodup_nil] at apart
  obtain ⟨⟨huo, huv⟩, hov⟩ := apart
  refine distinct_append.mpr ⟨first, distinct_append.mpr ⟨second, third, fun m hm n hn => ?_⟩, fun m hm n hn => ?_⟩
  · exact ne_of_steps (fun h => hov (Segment.field.inj h)) ho hv hm hn
  · rcases List.mem_append.mp hn with hn | hn
    · exact ne_of_steps (fun h => huo (Segment.field.inj h)) hu ho hm hn
    · exact ne_of_steps (fun h => huv (Segment.field.inj h)) hu hv hm hn

mutual

theorem distinct_nodes : ∀ {name : Path} {node : Node}, Placed name node → Distinct (nodes node)
  | name, .namespace own children, h => by
    obtain ⟨rfl, hs, hc⟩ := h
    rw [nodes, ← List.singleton_append, distinct_append]
    refine ⟨distinct_singleton _, distinct_nodesOfChildren hs hc, fun m hm n hn => ?_⟩
    obtain rfl := List.mem_singleton.mp hm
    obtain ⟨c, -, path, hname, -⟩ := lookup_of_mem_children hc n hn
    rw [hname]
    exact Path.ne_of_below
  | name, binning own bins axis values u o v, h => by
    obtain ⟨rfl, hlen, few, hvalues, hu, ho, hv⟩ := h
    have flows := distinct_flows (by decide) hu ho hv (distinct_nodes hu) (distinct_nodes ho) (distinct_nodes hv)
    rw [nodes, ← List.singleton_append, distinct_append]
    refine ⟨distinct_singleton _, distinct_append.mpr ⟨distinct_nodesOfValues (by omega) hvalues, flows,
      fun m hm n hn => ?_⟩, fun m hm n hn => ?_⟩
    · simp only [List.mem_append] at hn
      rcases hn with hn | hn | hn
      · exact hvalues.ne_of_field hu hm hn
      · exact hvalues.ne_of_field ho hm hn
      · exact hvalues.ne_of_field hv hm hn
    · obtain rfl := List.mem_singleton.mp hm
      simp only [List.mem_append] at hn
      rcases hn with hn | hn | hn | hn
      · obtain ⟨i, -, -, path, hname, -⟩ := lookup_of_mem_values hvalues n hn
        rw [hname]
        exact Path.ne_of_below
      · exact hu.ne_of_below hn
      · exact ho.ne_of_below hn
      · exact hv.ne_of_below hn
  | name, storage own content, h => by
    rw [nodes]
    exact distinct_singleton _

theorem distinct_nodesOfChildren : ∀ {name : Path} {children : Dict Node}, children.Sorted →
    PlacedChildren name children → Distinct (nodesOfChildren children)
  | _, [], _, _ => by
    rw [nodesOfChildren]
    exact List.nodup_nil
  | name, (key, node) :: rest, hs, ⟨hnode, hrest⟩ => by
    obtain ⟨first, others⟩ := List.pairwise_cons.mp hs
    rw [nodesOfChildren, distinct_append]
    refine ⟨distinct_nodes hnode, distinct_nodesOfChildren others hrest, fun m hm n hn => ?_⟩
    obtain ⟨left, hl⟩ := hnode.prefix_of_mem hm
    obtain ⟨c, hc, right, hr, -⟩ := lookup_of_mem_children hrest n hn
    rw [hl, hr, List.append_assoc]
    refine Path.ne_of_ne_step fun heq => ?_
    exact String.ne_of_lt (first c hc) (Segment.field.inj heq)

theorem distinct_nodesOfValues : ∀ {name : Path} {start : Nat} {values : List Node},
    start + values.length ≤ Bins.mostCount → PlacedValues name start values → Distinct (nodesOfValues values)
  | _, _, [], _, _ => by
    rw [nodesOfValues]
    exact List.nodup_nil
  | name, start, node :: rest, few, ⟨hnode, hrest⟩ => by
    rw [List.length_cons] at few
    rw [nodesOfValues, distinct_append]
    refine ⟨distinct_nodes hnode, distinct_nodesOfValues (by omega) hrest, fun m hm n hn => ?_⟩
    obtain ⟨left, hl⟩ := hnode.prefix_of_mem hm
    obtain ⟨i, c, hi, right, hr, -⟩ := lookup_of_mem_values hrest n hn
    obtain ⟨hlt, -⟩ := List.getElem?_eq_some_iff.mp hi
    rw [hl, hr, List.append_assoc]
    refine Path.ne_of_ne_step fun heq => ?_
    have := Slot.bin_segment_injective (by omega) (by omega) heq
    omega

end

end Node

end RecordStats
