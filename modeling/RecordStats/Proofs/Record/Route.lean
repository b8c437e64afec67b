import RecordStats.Proofs.Record.Slot

/-! Steps down into the tree: to a child of a namespace, through binnings, and into a storage. An action below
    a part changes the part as the fills below it tell, each with the step before its path. -/

namespace RecordStats

open RecordStats.Part

variable {α : Type}

/-! ### Fills below a step -/

theorem Part.fill_namespace (name : Path) (ns : Namespace) (f : Fill) :
    fill (Node.namespace name ns) f = .namespace name (fill ns f) := by
  obtain ⟨path, w, sample⟩ := f
  rcases path with _ | ⟨key | n, path⟩
  · show Node.modifyAt _ [] _ = _
    simp only [Node.modifyAt]
    rfl
  · show Node.modifyAt _ (.field key :: path) _ = _
    simp only [Node.modifyAt]
    rfl
  · show Node.modifyAt _ (.index n :: path) _ = _
    simp only [Node.modifyAt]
    rfl

theorem Part.fillAll_namespace (name : Path) (ns : Namespace) (fills : List Fill) :
    fillAll (Node.namespace name ns) fills = .namespace name (fillAll ns fills) := by
  induction fills generalizing ns with
  | nil => rfl
  | cons f rest ih => exact (congrArg (fillAll · rest) (fill_namespace name ns f)).trans (ih _)

/-- Fills below the first child. -/
theorem Part.fillAll_below_head (key : String) (node : Node) (rest : Namespace) (fills : List Fill) :
    fillAll ((key, node) :: rest) (fills.map (Fill.below [.field key])) = (key, fillAll node fills) :: rest := by
  induction fills generalizing node with
  | nil => rfl
  | cons f more ih =>
    have step : fill ((key, node) :: rest) (f.below [.field key]) = (key, fill node f) :: rest := by
      show Node.modifyChild _ key f.path _ = _
      rw [Node.modifyChild, if_pos rfl]
      rfl
    exact (congrArg (fillAll · _) step).trans (ih _)

/-- Fills below a later child. -/
theorem Part.fillAll_below_tail {key other : String} (h : other ≠ key) (node : Node) (rest : Namespace)
    (fills : List Fill) :
    fillAll ((other, node) :: rest) (fills.map (Fill.below [.field key])) =
      (other, node) :: fillAll rest (fills.map (Fill.below [.field key])) := by
  induction fills generalizing rest with
  | nil => rfl
  | cons f more ih =>
    have step : fill ((other, node) :: rest) (f.below [.field key]) =
        (other, node) :: fill rest (f.below [.field key]) := by
      show Node.modifyChild _ key f.path _ = _
      rw [Node.modifyChild, if_neg h]
      rfl
    exact (congrArg (fillAll · _) step).trans (ih _)

/-! ### Actions below a step -/

theorem Namespace.entry_cons_ne {key : String} {name : Name} (h : key ≠ name.text) (node : Node) (rest : Namespace) :
    Namespace.entry ((key, node) :: rest) name = Namespace.entry rest name := by
  rw [Namespace.entry, Namespace.entry, Dict.get?_cons, if_neg h]

theorem Namespace.entry_cons_eq {key : String} {name : Name} (h : key = name.text) (node : Node) (rest : Namespace) :
    Namespace.entry ((key, node) :: rest) name = .ok node := by
  rw [Namespace.entry, Dict.get?_cons, if_pos h]

theorem Namespace.entry_emptied (ns : Namespace) (name : Name) :
    Namespace.entry (Node.emptiedChildren ns) name = (ns.entry name).map Node.emptied := by
  induction ns with
  | nil => rfl
  | cons c rest ih =>
    obtain ⟨key, node⟩ := c
    rw [Node.emptiedChildren]
    by_cases h : key = name.text
    · rw [entry_cons_eq h, entry_cons_eq h]
      rfl
    · rw [entry_cons_ne h, entry_cons_ne h, ih]

/-- The trace of a step into a part that has to be looked for. -/
def Trace.into {σ τ : Type} (find : σ → Outcome τ) (trace : τ → Trace α) (s : σ) : Trace α :=
  ofOutcome (find s) >>= trace

namespace Performs

variable {act : Action Node α} {trace : Path → Node → Trace α}

/-- All fills of a step to a child are below the child's key, wherever the child stands. -/
theorem into_entry_below (name : Name) (h : ∀ node, Performs act trace node) (ns : Namespace) :
    ∃ fills : List Fill,
      (Trace.into (fun ns : Namespace => ns.entry name) (trace ([] ++ [.field name.text])) ns).fills =
        fills.map (Fill.below [.field name.text]) := by
  rw [Trace.into]
  cases hentry : ns.entry name with
  | error stop => exact ⟨[], rfl⟩
  | ok node =>
    rw [Trace.ofOutcome_bind_ok rfl]
    exact ⟨_, (h node).below _⟩

/-- A step to a child is the same in the emptied namespace. -/
theorem into_entry_blind (name : Name) (h : ∀ node, Performs act trace node) (path : Path) (ns : Namespace) :
    Trace.into (fun ns : Namespace => ns.entry name) (trace (path ++ [.field name.text])) (emptied ns) =
      Trace.into (fun ns : Namespace => ns.entry name) (trace (path ++ [.field name.text])) ns := by
  have hempty : Namespace.entry (emptied ns) name = (ns.entry name).map Node.emptied :=
    Namespace.entry_emptied ns name
  rw [Trace.into, Trace.into, hempty]
  cases ns.entry name with
  | error stop => rfl
  | ok node =>
    have same := (h node).blind (path ++ [.field name.text])
    exact (Trace.ofOutcome_bind_ok rfl _).trans (same.trans (Trace.ofOutcome_bind_ok rfl _).symm)

/-- An action on a child of a namespace. -/
theorem within (name : Name) (h : ∀ node, Performs act trace node) (ns : Namespace) :
    Performs (Namespace.within name act)
      (fun path => Trace.into (fun ns : Namespace => ns.entry name) (trace (path ++ [.field name.text]))) ns := by
  induction ns with
  | nil => exact stopped rfl (fun _ => rfl) (fun _ => rfl)
  | cons c rest ih =>
    obtain ⟨key, node⟩ := c
    by_cases hkey : key = name.text
    · -- The first child is the one that is meant, and the others stay as they are.
      have run : Namespace.within name act ((key, node) :: rest) = ((act node).1, (key, (act node).2) :: rest) := by
        rw [Namespace.within, if_pos hkey]
      have told : ∀ path, Trace.into (fun ns : Namespace => ns.entry name) (trace (path ++ [.field name.text]))
          ((key, node) :: rest) = trace (path ++ [.field name.text]) node := fun path => by
        rw [Trace.into, Namespace.entry_cons_eq hkey, Trace.ofOutcome_bind_ok rfl]
      refine ⟨fun path => ?_, ?_, fun path => into_entry_blind name h path _, fun path => ?_, fun hi => ?_⟩
      · rw [run, told, (h node).outcome (path ++ [.field name.text])]
      · rw [run]
        exact congrArg (fun node => (key, node) :: Node.emptiedChildren rest) (h node).shape
      · rw [told, told, (h node).below, (h node).below ([] ++ _), List.map_map]
        refine List.map_congr_left fun f _ => ?_
        simp only [Function.comp_apply, Fill.below, List.nil_append, List.append_assoc]
      · obtain ⟨own, hplaced, -⟩ := hi
        rw [run, told, (h node).below, List.nil_append, ← hkey, fillAll_below_head, (h node).fills ⟨_, hplaced⟩]
    · -- The first child is passed by, so its fills are those among the others.
      have run : Namespace.within name act ((key, node) :: rest) =
          ((Namespace.within name act rest).1, (key, node) :: (Namespace.within name act rest).2) := by
        rw [Namespace.within, if_neg hkey]
      have told : ∀ path, Trace.into (fun ns : Namespace => ns.entry name) (trace (path ++ [.field name.text]))
          ((key, node) :: rest) =
            Trace.into (fun ns : Namespace => ns.entry name) (trace (path ++ [.field name.text])) rest := fun path => by
        rw [Trace.into, Namespace.entry_cons_ne hkey, Trace.into]
      refine ⟨fun path => ?_, ?_, fun path => into_entry_blind name h path _, fun path => ?_, fun hi => ?_⟩
      · rw [run, told, ih.outcome path]
      · rw [run]
        exact congrArg ((key, node.emptied) :: ·) ih.shape
      · rw [told, told, ih.below path]
      · obtain ⟨own, -, hrest⟩ := hi
        obtain ⟨fills, hfills⟩ := into_entry_below name h rest
        rw [run, told, ih.fills ⟨_, hrest⟩, hfills, fillAll_below_tail hkey]

/-- An action on the children of a namespace. -/
theorem opened (cause : Cause) (s : Span) {act : Action Namespace α} {trace : Path → Namespace → Trace α}
    (h : ∀ ns, Performs act trace ns) (node : Node) :
    Performs (Node.opened cause s act) (fun path => Trace.into (Node.children cause s) (trace path)) node := by
  cases node with
  | binning name bins axis values u o v => exact stopped rfl (fun _ => rfl) (fun _ => rfl)
  | storage name content => exact stopped rfl (fun _ => rfl) (fun _ => rfl)
  | _ name ns =>
    have told : ∀ path ns, Trace.into (Node.children cause s) (trace path) (.namespace name ns) = trace path ns :=
      fun path ns => Trace.ofOutcome_bind_ok rfl _
    refine ⟨fun path => ?_, ?_, fun path => ?_, fun path => ?_, fun hi => ?_⟩
    · rw [told]
      exact (h ns).outcome path
    · exact congrArg (Node.namespace name) (h ns).shape
    · rw [told]
      exact (told path _).trans ((h ns).blind path)
    · rw [told, told, (h ns).below]
    · obtain ⟨own, -, -, hplaced⟩ := hi
      rw [told, fillAll_namespace, ← (h ns).fills ⟨own, hplaced⟩]
      rfl

/-- An action on the child of a binning in a slot. -/
theorem atSlot {node : Node} (slot : Slot) (h : ∀ next, node.slotChild slot = .ok next → Performs act trace next) :
    Performs (Node.atSlot act slot)
      (fun path => Trace.into (Node.slotChild slot) (trace (path ++ [slot.segment]))) node := by
  cases hchild : node.slotChild slot with
  | error stop =>
    refine stopped (Node.atSlot_error act hchild) (fun path => ?_) (fun path => ?_)
    · rw [Trace.into, hchild]
      exact Trace.ofOutcome_bind_error rfl _
    · have hempty : (emptied node).slotChild slot = .error stop := by
        rw [show emptied node = node.emptied from rfl, Node.slotChild_emptied, hchild]
        rfl
      rw [Trace.into, hempty]
      exact Trace.ofOutcome_bind_error rfl _
  | ok next =>
    have run := Node.atSlot_ok act hchild
    have step := h next hchild
    have hempty : (emptied node).slotChild slot = .ok (emptied next) := by
      rw [show emptied node = node.emptied from rfl, Node.slotChild_emptied, hchild]
      rfl
    have told : ∀ path, Trace.into (Node.slotChild slot) (trace (path ++ [slot.segment])) node =
        trace (path ++ [slot.segment]) next := fun path => by
      rw [Trace.into, hchild, Trace.ofOutcome_bind_ok rfl]
    refine ⟨fun path => ?_, ?_, fun path => ?_, fun path => ?_, fun hi => ?_⟩
    · rw [run, told, step.outcome (path ++ [slot.segment])]
    · rw [run]
      show (node.withSlot slot (act next).2).emptied = node.emptied
      have shape : (act next).2.emptied = next.emptied := step.shape
      rw [Node.emptied_withSlot, shape]
      exact Node.withSlot_self hempty
    · rw [told, Trace.into, hempty, Trace.ofOutcome_bind_ok rfl, step.blind]
    · rw [told, told, step.below, step.below ([] ++ _), List.map_map]
      refine List.map_congr_left fun f _ => ?_
      simp only [Function.comp_apply, Fill.below, List.nil_append, List.append_assoc]
    · have ⟨own, hplaced⟩ := hi
      rw [run, told, step.below, List.nil_append, fillAll_below_slot _ hi hchild,
        ← step.fills ⟨_, hplaced.slotChild hchild⟩]

end Performs

/-! ### Regions -/

namespace Node

variable {call : Caller} {scope : Scope} {blame : Span} {name : Path} {bins : Bins Float} {axis : Expr}
  {values : List Node} {u o v : Node} {slot : Slot} {stop : Stop}

theorem descend_error (hslot : bins.slot call scope axis = .error stop) (path : Path) (axes : Nat) :
    descend call scope blame path (binning name bins axis values u o v) (axes + 1) = .error stop := by
  rw [descend, hslot]
  rfl

theorem descend_ok (hslot : bins.slot call scope axis = .ok slot) (path : Path) (axes : Nat) :
    descend call scope blame path (binning name bins axis values u o v) (axes + 1) =
      (slotChild slot (binning name bins axis values u o v) >>= fun next =>
        descend call scope blame (path ++ [slot.segment]) next axes) := by
  rw [descend, hslot]
  rfl

theorem routed_error {act : Action Namespace α} (hslot : bins.slot call scope axis = .error stop) (axes : Nat) :
    routed call scope blame act (axes + 1) (binning name bins axis values u o v) =
      (.error stop, binning name bins axis values u o v) := by
  rw [routed, hslot]

theorem routed_ok {act : Action Namespace α} (hslot : bins.slot call scope axis = .ok slot) (axes : Nat) :
    routed call scope blame act (axes + 1) (binning name bins axis values u o v) =
      atSlot (routed call scope blame act axes) slot (binning name bins axis values u o v) := by
  rw [routed, hslot]

end Node

namespace Performs

variable {call : Caller} {scope : Scope}

/-- An action on the namespace of a region, below as many binnings as the region has axes. -/
theorem routed (blame : Span) {act : Action Namespace α} {trace : Path → Namespace → Trace α}
    (h : ∀ ns, Performs act trace ns) (axes : Nat) (node : Node) :
    Performs (Node.routed call scope blame act axes)
      (fun path => Trace.into (fun node => node.descend call scope blame path axes) fun found =>
        Trace.into (Node.children .regionNotNamespace blame) (trace found.1) found.2) node := by
  induction axes generalizing node with
  | zero =>
    have step := opened .regionNotNamespace blame h node
    exact (step.congr_act rfl).congr_trace (fun path => Trace.ofOutcome_bind_ok rfl _)
      (fun path => Trace.ofOutcome_bind_ok rfl _)
  | succ axes ih =>
    cases node with
    | binning name bins axis values u o v =>
      -- The region's next axis decides the slot, and the rest of the axes are those of the child there.
      cases hslot : bins.slot call scope axis with
      | error stop =>
        have told : ∀ path values u o v, Trace.into (fun node => node.descend call scope blame path (axes + 1))
            (fun found => Trace.into (Node.children .regionNotNamespace blame) (trace found.1) found.2)
            (Node.binning name bins axis values u o v) = .ofOutcome (.error stop) := fun path values u o v => by
          rw [Trace.into, Node.descend_error hslot, Trace.ofOutcome_bind_error rfl]
        exact stopped (Node.routed_error hslot axes) (fun path => told path values u o v)
          (fun path => told path _ _ _ _)
      | ok slot =>
        have told : ∀ path values u o v, Trace.into (fun node => node.descend call scope blame path (axes + 1))
            (fun found => Trace.into (Node.children .regionNotNamespace blame) (trace found.1) found.2)
            (Node.binning name bins axis values u o v) =
              Trace.into (Node.slotChild slot) (fun next =>
                Trace.into (fun node => node.descend call scope blame (path ++ [slot.segment]) axes)
                  (fun found => Trace.into (Node.children .regionNotNamespace blame) (trace found.1) found.2) next)
                (Node.binning name bins axis values u o v) := fun path values u o v => by
          rw [Trace.into, Node.descend_ok hslot, Trace.ofOutcome_bind, Trace.bind_assoc, Trace.into]
          rfl
        exact ((atSlot slot fun next _ => ih next).congr_act (Node.routed_ok hslot axes)).congr_trace
          (fun path => told path values u o v) (fun path => told path _ _ _ _)
    | storage name content => exact stopped rfl (fun _ => rfl) (fun _ => rfl)
    | _ name ns => exact stopped rfl (fun _ => rfl) (fun _ => rfl)

end Performs

/-! ### Entries -/

namespace Node

variable {call : Caller} {scope : Scope} {w : Float} {name : Path} {bins : Bins Float} {axis : Expr}
  {values : List Node} {u o v : Node} {slot : Slot} {stop : Stop}

theorem enterNth_eq_nth (slot : Slot) (i : Nat) (values : List Node) :
    enterNth call scope w slot i values = nth (enter call scope w) slot i values := by
  induction values generalizing i with
  | nil => cases i <;> simp only [enterNth, nth]
  | cons node rest ih =>
    cases i with
    | zero => simp only [enterNth, nth]
    | succ i => simp only [enterNth, nth, ih]

theorem targetNth_eq (slot : Slot) (path : Path) (i : Nat) (values : List Node) :
    targetNth call scope path slot i values =
      ((values[i]?).elim (Outcome.fail (.noBin slot.text)) .ok >>= fun node => target call scope path node) := by
  induction values generalizing i with
  | nil =>
    simp only [targetNth]
    rfl
  | cons node rest ih =>
    cases i with
    | zero =>
      simp only [targetNth]
      rfl
    | succ i =>
      simp only [targetNth, ih]
      rfl

theorem enter_error (hslot : bins.slot call scope axis = .error stop) :
    enter call scope w (binning name bins axis values u o v) = (.error stop, binning name bins axis values u o v) := by
  rw [enter, hslot]

theorem enter_ok (hslot : bins.slot call scope axis = .ok slot) :
    enter call scope w (binning name bins axis values u o v) =
      atSlot (enter call scope w) slot (binning name bins axis values u o v) := by
  rw [enter, hslot]
  cases slot <;> simp only [atSlot, enterNth_eq_nth]

theorem target_error (hslot : bins.slot call scope axis = .error stop) (path : Path) :
    target call scope path (binning name bins axis values u o v) = .error stop := by
  rw [target, hslot]
  rfl

theorem target_ok (hslot : bins.slot call scope axis = .ok slot) (path : Path) :
    target call scope path (binning name bins axis values u o v) =
      (slotChild slot (binning name bins axis values u o v) >>= fun next =>
        target call scope (path ++ [slot.segment]) next) := by
  rw [target, hslot]
  cases slot with
  | bin i => exact targetNth_eq _ _ i values
  | underflow => rfl
  | overflow => rfl
  | nanflow => rfl

end Node

theorem Storage.sample_zero (call : Caller) (scope : Scope) (s : Storage) :
    s.zero.sample call scope = s.sample call scope := by
  cases s <;> rfl

namespace Performs

variable {call : Caller} {scope : Scope} {w : Float}

/-- The trace of an entry below a node. -/
def entering (call : Caller) (scope : Scope) (w : Float) (path : Path) : Node → Trace Unit :=
  Trace.into (fun node => node.target call scope path) fun found => Trace.fill ⟨found.1, w, found.2⟩

/-- An entry in a storage: it measures there what it would measure in an empty one, and fills it at once. -/
theorem enter_storage (name : Path) (content : Storage) :
    Performs (Node.enter call scope w) (entering call scope w) (.storage name content) := by
  have empty : Storage.sample call scope content.zero = content.sample call scope :=
    Storage.sample_zero call scope content
  cases hsample : content.sample call scope with
  | error stop =>
    have told : ∀ path content, Storage.sample call scope content = .error stop →
        entering call scope w path (.storage name content) = .ofOutcome (.error stop) := fun path content h => by
      rw [entering, Trace.into, Node.target, h]
      rfl
    refine stopped ?_ (fun path => told path content hsample) (fun path => told path _ (empty.trans hsample))
    rw [Node.enter, hsample]
  | ok sample =>
    have run : Node.enter call scope w (.storage name content) = (.ok (), .storage name (content.fill w sample)) := by
      rw [Node.enter, hsample]
    have told : ∀ path content, Storage.sample call scope content = .ok sample →
        entering call scope w path (.storage name content) = .fill ⟨path, w, sample⟩ := fun path content h => by
      rw [entering, Trace.into, Node.target, h]
      rfl
    refine ⟨fun path => ?_, ?_, fun path => ?_, fun path => ?_, fun _ => ?_⟩
    · rw [run, told path content hsample]
      rfl
    · rw [run]
      exact congrArg (Node.storage name) (Storage.zero_fill content w sample)
    · exact (told path _ (empty.trans hsample)).trans (told path content hsample).symm
    · rw [told path content hsample, told [] content hsample]
      simp only [Trace.fill, List.map_cons, List.map_nil, Fill.below, List.append_nil]
    · rw [run, told [] content hsample]
      have one : fillAll (Node.storage name content) [⟨[], w, sample⟩] =
          Node.modifyAt (fun s => s.fill w sample) [] (.storage name content) := rfl
      simp only [Trace.fill, one, Node.modifyAt]

mutual

/-- An entry fills the one storage that the record reaches. -/
theorem enter : ∀ node : Node, Performs (Node.enter call scope w) (entering call scope w) node
  | .storage name content => enter_storage name content
  | .binning name bins axis values u o v => by
    have inside : ∀ slot next, (Node.binning name bins axis values u o v).slotChild slot = .ok next →
        Performs (Node.enter call scope w) (entering call scope w) next := by
      intro slot next hchild
      cases slot with
      | bin i => exact enterValues values next (List.mem_of_getElem? (Node.slotChild_bin.mp hchild))
      | underflow =>
        cases hchild
        exact enter u
      | overflow =>
        cases hchild
        exact enter o
      | nanflow =>
        cases hchild
        exact enter v
    cases hslot : bins.slot call scope axis with
    | error stop =>
      have told : ∀ path values u o v, entering call scope w path (Node.binning name bins axis values u o v) =
          .ofOutcome (.error stop) := fun path values u o v => by
        rw [entering, Trace.into, Node.target_error hslot, Trace.ofOutcome_bind_error rfl]
      exact stopped (Node.enter_error hslot) (fun path => told path values u o v) (fun path => told path _ _ _ _)
    | ok slot =>
      have told : ∀ path values u o v, entering call scope w path (Node.binning name bins axis values u o v) =
          Trace.into (Node.slotChild slot) (entering call scope w (path ++ [slot.segment]))
            (Node.binning name bins axis values u o v) := fun path values u o v => by
        rw [entering, Trace.into, Node.target_ok hslot, Trace.ofOutcome_bind, Trace.bind_assoc, Trace.into]
        rfl
      exact ((atSlot slot (inside slot)).congr_act (Node.enter_ok hslot)).congr_trace
        (fun path => told path values u o v) (fun path => told path _ _ _ _)
  | .namespace name children => by
    have told : ∀ path children, entering call scope w path (.namespace name children) =
        .ofOutcome (Outcome.fail (.fillsNamespace name)) := fun path children => by
      rw [entering, Trace.into, Node.target]
      rfl
    refine stopped ?_ (fun path => told path children) (fun path => told path _)
    rw [Node.enter]
    rfl

theorem enterValues : ∀ values : List Node, ∀ node ∈ values,
    Performs (Node.enter call scope w) (entering call scope w) node
  | [] => fun _ h => by cases h
  | first :: rest => List.forall_mem_cons.mpr ⟨enter first, enterValues rest⟩

end

end Performs

end RecordStats
