import RecordStats.Proofs.Record.Reach
import RecordStats.Proofs.Tree.Leaves

/-! Trees of which one has all that the other has. A record that is routed in the smaller tree takes the same way in the
    larger one, and each storage of the smaller tree is one of the larger. -/

namespace RecordStats

namespace Node

/-! ### Slots of a binning like its template -/

theorem slotChild_binned {name : Path} {bins : Bins Float} {axis : Expr} {template : Node} {slot : Slot}
    (h : slot ∈ Slot.ofBins bins.count) :
    slotChild slot (binned name bins axis template) = .ok (zerosLike (name ++ [slot.segment]) template) := by
  rw [binned_eq]
  cases slot with
  | bin i =>
    have hi : i < bins.count := by simpa [Slot.ofBins] using h
    refine slotChild_bin.mpr ?_
    rw [List.getElem?_map, List.getElem?_range hi, Option.map_some]
  | underflow => rfl
  | overflow => rfl
  | nanflow => rfl

theorem slotChild_binned_of_notMem {name : Path} {bins : Bins Float} {axis : Expr} {template : Node} {slot : Slot}
    (h : slot ∉ Slot.ofBins bins.count) :
    slotChild slot (binned name bins axis template) = Outcome.fail (.noBin slot.text) := by
  rw [binned_eq]
  cases slot with
  | bin i =>
    have hi : bins.count ≤ i := by simpa [Slot.ofBins] using h
    rw [slotChild, inSlot, List.getElem?_eq_none (by simpa using hi), Option.elim_none]
  | _ => exact (h (by simp [Slot.ofBins])).elim

/-! ### Smaller and larger nodes -/

/-- The second node has what the first one has, and maybe more children in its namespaces. -/
inductive Under : Node → Node → Prop where
  | storage (name : Path) (content : Storage) : Under (storage name content) (storage name content)
  | binning {name : Path} {bins : Bins Float} {axis : Expr} {values values' : List Node} {u u' o o' v v' : Node}
      (length : values.length = values'.length)
      (below : ∀ slot c d, slotChild slot (binning name bins axis values u o v) = .ok c →
        slotChild slot (binning name bins axis values' u' o' v') = .ok d → Under c d) :
      Under (binning name bins axis values u o v) (binning name bins axis values' u' o' v')
  | namespace {name : Path} {children others : Namespace}
      (found : ∀ key, (Dict.get? children key).isSome → (Dict.get? others key).isSome)
      (below : ∀ key c d, Dict.get? children key = some c → Dict.get? others key = some d → Under c d) :
      Under (.namespace name children) (.namespace name others)

end Node

/-- Every child of the first namespace is found in the second, with all that it has. -/
def Namespace.Under (small big : Namespace) : Prop :=
  ∀ key c, Dict.get? small key = some c → ∃ d, Dict.get? big key = some d ∧ c.Under d

namespace Node

variable {a b : Node}

theorem under_namespace_iff {name : Path} {small big : Namespace} :
    Under (.namespace name small) (.namespace name big) ↔ small.Under big := by
  constructor
  · intro h key c hc
    cases h with
    | «namespace» found below =>
      obtain ⟨d, hd⟩ := Option.isSome_iff_exists.mp (found key (Option.isSome_iff_exists.mpr ⟨c, hc⟩))
      exact ⟨d, hd, below key c d hc hd⟩
  · intro h
    refine .namespace (fun key hkey => ?_) fun key c d hc hd => ?_
    · obtain ⟨c, hc⟩ := Option.isSome_iff_exists.mp hkey
      obtain ⟨d, hd, -⟩ := h key c hc
      exact Option.isSome_iff_exists.mpr ⟨d, hd⟩
    · obtain ⟨e, he, under⟩ := h key c hc
      rw [hd] at he
      cases he
      exact under

theorem Under.of_holds {P : Namespace → Prop} (h : Under a b) (holds : a.Holds P) :
    ∃ (name : Path) (small big : Namespace),
      a = .namespace name small ∧ b = .namespace name big ∧ small.Under big ∧ P small := by
  cases h with
  | @«namespace» name small big found below =>
    have both : Under (.namespace name small) (.namespace name big) := .namespace found below
    exact ⟨name, small, big, rfl, rfl, under_namespace_iff.mp both, holds⟩
  | _ => exact holds.elim

/-- Both nodes have a child in a slot, or none of them has. -/
theorem Under.slotChild (h : Under a b) (slot : Slot) :
    (∃ stop, a.slotChild slot = .error stop ∧ b.slotChild slot = .error stop) ∨
      ∃ c d, a.slotChild slot = .ok c ∧ b.slotChild slot = .ok d ∧ Under c d := by
  cases h with
  | @binning name bins axis values values' u u' o o' v v' length below =>
    cases slot with
    | bin i =>
      by_cases hi : i < values.length
      · have mine : Node.slotChild (.bin i) (Node.binning name bins axis values u o v) = .ok values[i] :=
          slotChild_bin.mpr (List.getElem?_eq_getElem hi)
        have yours : Node.slotChild (.bin i) (Node.binning name bins axis values' u' o' v') = .ok values'[i] :=
          slotChild_bin.mpr (List.getElem?_eq_getElem (length ▸ hi))
        exact .inr ⟨_, _, mine, yours, below _ _ _ mine yours⟩
      · have none : ∀ {values : List Node} {u o v : Node}, values.length ≤ i →
            Node.slotChild (.bin i) (Node.binning name bins axis values u o v) =
              Outcome.fail (.noBin (Slot.bin i).text) := by
          intro values u o v hi
          rw [Node.slotChild, inSlot, List.getElem?_eq_none hi, Option.elim_none]
        have hi := Nat.le_of_not_lt hi
        exact .inl ⟨_, none hi, none (length ▸ hi)⟩
    | underflow => exact .inr ⟨_, _, rfl, rfl, below .underflow _ _ rfl rfl⟩
    | overflow => exact .inr ⟨_, _, rfl, rfl, below .overflow _ _ rfl rfl⟩
    | nanflow => exact .inr ⟨_, _, rfl, rfl, below .nanflow _ _ rfl rfl⟩
  | _ => exact .inl ⟨_, rfl, rfl⟩

theorem Under.of_slots {name : Path} {bins : Bins Float} {axis : Expr} {template other : Node}
    (h : ∀ name, Under (zerosLike name template) (zerosLike name other)) :
    Under (binned name bins axis template) (binned name bins axis other) := by
  rw [binned_eq, binned_eq]
  refine .binning (by rw [List.length_map, List.length_map]) fun slot c d hc hd => ?_
  rw [← binned_eq] at hc hd
  by_cases hs : slot ∈ Slot.ofBins bins.count
  · rw [slotChild_binned hs] at hc hd
    cases hc
    cases hd
    exact h _
  · rw [slotChild_binned_of_notMem hs] at hc
    cases hc

/-- So have copies of them. -/
theorem Under.zerosLike (h : Under a b) (name : Path) : Under (a.zerosLike name) (b.zerosLike name) := by
  induction h generalizing name with
  | storage old content =>
    rw [Node.zerosLike]
    exact .storage name content.zero
  | binning length below ih =>
    rw [zerosLike_binning, zerosLike_binning]
    exact .of_slots fun name => ih .nanflow _ _ rfl rfl name
  | «namespace» found below ih =>
    rw [Node.zerosLike, Node.zerosLike]
    refine under_namespace_iff.mpr fun key c hc => ?_
    rw [get?_childrenLike] at hc
    obtain ⟨old, hold, rfl⟩ := Option.map_eq_some_iff.mp hc
    obtain ⟨other, hother⟩ := Option.isSome_iff_exists.mp (found key (Option.isSome_iff_exists.mpr ⟨old, hold⟩))
    exact ⟨_, get?_childrenLike_some hother, ih key old other hold hother _⟩

/-- Binnings may be put around both. -/
theorem Under.wrap {name : Path} (h : Under a b) : ∀ {axes : List (Axis Expr)} {wrapped : Node},
    Node.wrap name b axes = .ok wrapped → ∃ other, Node.wrap name a axes = .ok other ∧ Under other wrapped
  | [], wrapped, hw => by
    cases hw
    exact ⟨a, rfl, h⟩
  | axis :: rest, wrapped, hw => by
    obtain ⟨inner, bins, hinner, hbins, rfl⟩ := Node.wrap_cons_eq_ok.mp hw
    obtain ⟨other, hother, under⟩ := h.wrap hinner
    refine ⟨_, Node.wrap_cons_eq_ok.mpr ⟨other, bins, hother, hbins, rfl⟩, ?_⟩
    exact .of_slots fun name => under.zerosLike name

/-- Every storage of the smaller node is one of the larger. -/
theorem Under.mem_nodes (h : Under a b) {start : Path} (hp : Placed start a) {path : Path} {content : Storage}
    (hn : Node.storage path content ∈ nodes a) : Node.storage path content ∈ nodes b := by
  induction h generalizing start with
  | storage old content => exact hn
  | @binning name bins axis values values' u u' o o' v v' length below ih =>
    rcases slot_of_mem hn with heq | ⟨slot, next, hslot, hn⟩
    · cases heq
    · rcases Under.slotChild (.binning length below) slot with ⟨stop, hstop, -⟩ | ⟨c, d, hc, hd, -⟩
      · rw [hslot] at hstop
        cases hstop
      · rw [hslot] at hc
        cases hc
        exact mem_nodes_of_slotChild hd (ih slot next d hslot hd (hp.slotChild hslot) hn)
  | @«namespace» name children others found below ih =>
    obtain ⟨-, sorted, placed⟩ := hp
    rw [nodes] at hn ⊢
    obtain ⟨⟨key, c⟩, hc, hn⟩ := mem_nodesOfChildren.mp ((List.mem_cons.mp hn).resolve_left Node.noConfusion)
    have mine := Dict.get?_of_mem sorted hc
    obtain ⟨d, yours⟩ := Option.isSome_iff_exists.mp (found key (Option.isSome_iff_exists.mpr ⟨c, mine⟩))
    refine List.mem_cons_of_mem _ (mem_nodesOfChildren.mpr ⟨_, Dict.mem_of_get? yours, ?_⟩)
    exact ih key c d mine yours (placedChildren_iff.mp placed _ hc) hn

/-! ### Ways through both -/

variable {call : Caller} {scope : Scope} {most : Nat}

/-- A record reaches the same storage in both, and it measures the same. -/
theorem Under.target (h : Under a b) (path : Path) : a.target call scope path = b.target call scope path := by
  induction h generalizing path with
  | storage name content => rfl
  | @binning name bins axis values values' u u' o o' v v' length below ih =>
    cases hslot : bins.slot call scope axis with
    | error stop => rw [target_error hslot, target_error hslot]
    | ok slot =>
      rw [target_ok hslot, target_ok hslot]
      rcases Under.slotChild (.binning length below) slot with ⟨stop, hc, hd⟩ | ⟨c, d, hc, hd, -⟩
      · rw [hc, hd]
      · rw [hc, hd]
        exact ih slot c d hc hd _
  | «namespace» found below => rw [Node.target, Node.target]

theorem Opens.of_slotChild {P : Node → Prop} {axes : Nat} {name : Path} {bins : Bins Float} {axis : Expr}
    {values : List Node} {u o v next : Node} {slot : Slot}
    (h : Opens most P (axes + 1) (.binning name bins axis values u o v))
    (hslot : Node.slotChild slot (.binning name bins axis values u o v) = .ok next) : Opens most P axes next := by
  cases h with
  | binning axis_wf selects length values_open u_open o_open v_open =>
    cases slot with
    | bin i => exact values_open next (List.mem_of_getElem? (slotChild_bin.mp hslot))
    | underflow =>
      cases hslot
      exact u_open
    | overflow =>
      cases hslot
      exact o_open
    | nanflow =>
      cases hslot
      exact v_open

/-- Through binnings a record takes the same way in both. -/
theorem Under.descend {P : Node → Prop} {axes : Nat} (h : Under a b) (hopens : Opens most P axes a) (call : Caller)
    (scope : Scope) (blame : Span) (path : Path) :
    (∃ stop, a.descend call scope blame path axes = .error stop ∧ b.descend call scope blame path axes = .error stop) ∨
      ∃ below c d, a.descend call scope blame path axes = .ok (below, c) ∧
        b.descend call scope blame path axes = .ok (below, d) ∧ Under c d ∧ P c := by
  induction axes generalizing a b path with
  | zero =>
    cases hopens with
    | here hP => exact .inr ⟨path, a, b, rfl, rfl, h, hP⟩
  | succ axes ih =>
    cases h with
    | @binning name bins axis values values' u u' o o' v v' length below =>
      cases hslot : bins.slot call scope axis with
      | error stop => exact .inl ⟨stop, descend_error hslot path axes, descend_error hslot path axes⟩
      | ok slot =>
        rw [descend_ok hslot, descend_ok hslot]
        rcases Under.slotChild (.binning length below) slot with ⟨stop, hc, hd⟩ | ⟨c, d, hc, hd, under⟩
        · rw [hc, hd]
          exact .inl ⟨stop, rfl, rfl⟩
        · rw [hc, hd]
          exact ih under (hopens.of_slotChild hc) _
    | _ => cases hopens

end Node

namespace Namespace

variable {small big : Namespace}

theorem under_nil : Under [] [] := fun _ _ h => nomatch h

theorem Under.within {later : Namespace} (h : small.Under big) (hw : big.Within later) : small.Under later := by
  intro key c hc
  obtain ⟨d, hd, under⟩ := h key c hc
  exact ⟨d, hw key d hd, under⟩

theorem Under.childrenLike (h : small.Under big) (name : Path) :
    Under (Node.childrenLike name small) (Node.childrenLike name big) := by
  have named : Node.Under (.namespace name small) (.namespace name big) := Node.under_namespace_iff.mpr h
  have copies := named.zerosLike name
  rw [Node.zerosLike, Node.zerosLike] at copies
  exact Node.under_namespace_iff.mp copies

/-- Every storage of the smaller tree is one of the larger. -/
theorem Under.mem_nodes (h : small.Under big) {start : Path} (hp : Node.Placed start (.namespace start small))
    {path : Path} {content : Storage} (hn : .storage path content ∈ Node.nodesOfChildren small) :
    .storage path content ∈ Node.nodesOfChildren big := by
  have there : .storage path content ∈ Node.nodes (.namespace start small) := by
    rw [Node.nodes]
    exact List.mem_cons_of_mem _ hn
  have found := (Node.under_namespace_iff.mpr h).mem_nodes hp there
  rw [Node.nodes] at found
  exact (List.mem_cons.mp found).resolve_left Node.noConfusion

end Namespace

end RecordStats
