import RecordStats.Proofs.Evaluation.Call
import RecordStats.Proofs.Record.Route
import RecordStats.Proofs.Tree.Fits

/-! Statements on a tree that has a place for them. A block that a text can hold, run in a sound scope on a
    namespace that it fits, finds every child, bin and namespace that it works on; so what stops it is never an
    internal error, and the scope after it is sound. -/

namespace RecordStats

variable {call : Caller} {scope : Scope} {most : Nat}

/-! ### What is evaluated beside the tree -/

theorem weightOf_faultless (hcall : Caller.Sound call) (hscope : scope.Sound) {weight : Option Expr}
    (h : ∀ e ∈ weight, e.WellFormed most) : Faultless (fun _ => True) (weightOf call scope weight) := by
  cases weight with
  | none => exact .ok trivial
  | some e =>
    rw [weightOf]
    refine (Scope.evaluate_faultless hcall hscope (h e rfl)).bind fun v _ => ?_
    split
    · exact .ok trivial
    · exact .error ErrorKind.noConfusion

theorem takes_faultless (hcall : Caller.Sound call) (hscope : scope.Sound) {predicate : Option Expr}
    (h : ∀ e ∈ predicate, e.WellFormed most) : Faultless (fun _ => True) (takes call scope predicate) := by
  cases predicate with
  | none => exact .ok trivial
  | some e =>
    rw [takes]
    refine (Scope.evaluate_faultless hcall hscope (h e rfl)).bind fun v _ => ?_
    split
    · exact .ok trivial
    · exact .error ErrorKind.noConfusion

theorem sequences_faultless (hcall : Caller.Sound call) (hscope : scope.Sound) :
    ∀ {ranges : List (Binding Expr)} (i : Nat), (∀ b ∈ ranges, b.expression.WellFormed most) →
      Faultless (fun columns => ∀ c ∈ columns, ∀ v ∈ c.2, v.Sound) (sequences call scope i ranges)
  | [], i, _ => .ok nofun
  | b :: rest, i, h => by
    obtain ⟨hb, hrest⟩ := List.forall_mem_cons.mp h
    rw [sequences]
    refine (Expr.evaluate_faultless hcall hscope _ hb).bind fun v hv => ?_
    split
    · next items hitems =>
      refine (sequences_faultless hcall hscope (i + 1) hrest).bind fun columns hcolumns => .ok ?_
      exact List.forall_mem_cons.mpr ⟨hv.of_mem_items hitems, hcolumns⟩
    · exact .error ErrorKind.noConfusion

theorem turns_faultless (hcall : Caller.Sound call) (hscope : scope.Sound) {ranges : List (Binding Expr)}
    (h : ∀ b ∈ ranges, b.expression.WellFormed most) (s : Span) :
    Faultless (fun turns => ∀ row ∈ turns, Value.SoundFields row) (turns call scope ranges s) := by
  refine (sequences_faultless hcall hscope 0 h).bind fun columns hcolumns => ?_
  extract_lets length
  split
  · exact .ok (forall_mem_rows _ hcolumns)
  · exact .error ErrorKind.noConfusion

theorem variationScope_faultless (hcall : Caller.Sound call) (hscope : scope.Sound) :
    ∀ {assignments : List (Binding Expr)} {inner : Scope}, (∀ b ∈ assignments, b.expression.WellFormed most) →
      inner.Sound → Faultless Scope.Sound (variationScope call scope inner assignments)
  | [], _, _, hinner => .ok hinner
  | b :: rest, inner, h, hinner => by
    obtain ⟨hb, hrest⟩ := List.forall_mem_cons.mp h
    rw [variationScope]
    refine (Expr.evaluate_faultless hcall hscope _ hb).bind fun v hv => ?_
    exact variationScope_faultless hcall hscope hrest (hinner.define _ hv)

/-! ### The way through the tree -/

theorem Storage.sample_faultless (hcall : Caller.Sound call) (hscope : scope.Sound) {content : Storage}
    (h : content.WellFormed most) : Faultless (fun _ => True) (content.sample call scope) := by
  cases content with
  | count totals => exact .ok trivial
  | sum e totals | profile e totals | fraction e totals =>
    rw [sample]
    refine (Scope.evaluate_faultless hcall hscope h).bind fun v _ => ?_
    split
    · exact .ok trivial
    · exact .error ErrorKind.noConfusion

theorem Namespace.entry_eq {ns : Namespace} {name : Name} {node : Node} (h : Dict.get? ns name.text = some node) :
    ns.entry name = .ok node := by
  rw [entry, h]

namespace Node

variable {P : Node → Prop}

theorem children_faultless {Q : Namespace → Prop} {node : Node} (h : node.Holds Q) (cause : Cause) (s : Span) :
    Faultless Q (node.children cause s) := by
  cases node with
  | «namespace» name children => exact .ok h
  | _ => exact h.elim

/-- What a number opens in a binning that is open. -/
theorem Opens.slotChild {axes : Nat} {name : Path} {bins : Bins Float} {axis : Expr} {values : List Node} {u o v : Node}
    (h : Opens most P (axes + 1) (.binning name bins axis values u o v)) (x : Float) :
    ∃ next, slotChild (bins.select x) (.binning name bins axis values u o v) = .ok next ∧ Opens most P axes next := by
  cases h with
  | binning axis_wf selects length values_open u_open o_open v_open =>
    cases hslot : bins.select x with
    | bin i =>
      have hlt : i < values.length := length ▸ selects x i hslot
      exact ⟨values[i], slotChild_bin.mpr (List.getElem?_eq_getElem hlt), values_open _ (List.getElem_mem hlt)⟩
    | underflow => exact ⟨u, rfl, u_open⟩
    | overflow => exact ⟨o, rfl, o_open⟩
    | nanflow => exact ⟨v, rfl, v_open⟩

/-- The slot of a record in a binning that is open. -/
theorem Opens.slot_faultless (hcall : Caller.Sound call) (hscope : scope.Sound) {axes : Nat} {name : Path}
    {bins : Bins Float} {axis : Expr} {values : List Node} {u o v : Node}
    (h : Opens most P (axes + 1) (.binning name bins axis values u o v)) :
    Faultless (fun slot => ∃ next, Node.slotChild slot (.binning name bins axis values u o v) = .ok next ∧
      Opens most P axes next) (bins.slot call scope axis) := by
  have found := h.slotChild
  cases h with
  | binning axis_wf =>
    refine (Scope.evaluate_faultless hcall hscope axis_wf).bind fun v _ => ?_
    split
    · exact .ok (found _)
    · exact .error ErrorKind.noConfusion

theorem Opens.eq_binning {axes : Nat} {node : Node} (h : Opens most P (axes + 1) node) :
    ∃ name bins axis values u o v, node = .binning name bins axis values u o v := by
  cases h with
  | binning => exact ⟨_, _, _, _, _, _, _, rfl⟩

/-- Through as many binnings as it has, a record finds a storage or fails for a reason of its own. -/
theorem Opens.target_faultless (hcall : Caller.Sound call) (hscope : scope.Sound) {axes : Nat} {node : Node}
    (h : node.Opens most (Fillable most) axes) (path : Path) :
    Faultless (fun _ => True) (target call scope path node) := by
  induction axes generalizing node path with
  | zero =>
    cases h with
    | here h =>
      cases node with
      | storage name content =>
        rw [target]
        exact (Storage.sample_faultless hcall hscope h).bind fun _ _ => .ok trivial
      | _ => exact h.elim
  | succ axes ih =>
    obtain ⟨name, bins, axis, values, u, o, v, rfl⟩ := h.eq_binning
    rcases (h.slot_faultless hcall hscope).ok_or_error with ⟨slot, hslot, next, hnext, hopens⟩ | ⟨stop, hslot, hstop⟩
    · rw [target_ok hslot, hnext]
      exact ih hopens _
    · rw [target_error hslot]
      exact .error hstop

/-- Through as many binnings as it has, a record finds what is below them or fails for a reason of its own. -/
theorem Opens.descend_faultless (hcall : Caller.Sound call) (hscope : scope.Sound) (blame : Span) {axes : Nat}
    {node : Node} (h : node.Opens most P axes) (path : Path) :
    Faultless (fun below => P below.2) (descend call scope blame path node axes) := by
  induction axes generalizing node path with
  | zero =>
    cases h with
    | here h =>
      rw [descend]
      exact .ok h
  | succ axes ih =>
    obtain ⟨name, bins, axis, values, u, o, v, rfl⟩ := h.eq_binning
    rcases (h.slot_faultless hcall hscope).ok_or_error with ⟨slot, hslot, next, hnext, hopens⟩ | ⟨stop, hslot, hstop⟩
    · rw [descend_ok hslot, hnext]
      exact ih hopens _
    · rw [descend_error hslot]
      exact .error hstop

end Node

/-! ### Statements -/

theorem Trace.faultless_bind {α β : Type} {P : α → Prop} {Q : β → Prop} {t : Trace α} {next : α → Trace β}
    (h : Faultless P t.outcome) (hn : ∀ a, P a → Faultless Q (next a).outcome) : Faultless Q (t >>= next).outcome := by
  rcases h.ok_or_error with ⟨a, ht, ha⟩ | ⟨stop, ht, hstop⟩
  · rw [Trace.bind_ok ht]
    exact hn a ha
  · rw [Trace.bind_error ht]
    exact .error hstop

theorem Trace.faultless_ofOutcome_bind {α β : Type} {P : α → Prop} {Q : β → Prop} {o : Outcome α} {next : α → Trace β}
    (h : Faultless P o) (hn : ∀ a, P a → Faultless Q (next a).outcome) :
    Faultless Q (Trace.ofOutcome o >>= next).outcome :=
  Trace.faultless_bind h hn

theorem Collector.fillOf_faultless (hcall : Caller.Sound call) (hscope : scope.Sound) {c : Collector Expr}
    (wf : c.WellFormed most) {ns : Namespace} {node : Node} (hnode : Dict.get? ns c.name.text = some node)
    (hopens : node.Opens most (Node.Fillable most) c.axes.length) (path : Path) :
    Faultless (fun _ => True) (c.fillOf call path ns scope) := by
  refine (weightOf_faultless hcall hscope wf.weight).bind fun w _ => ?_
  rw [Namespace.entry_eq hnode]
  exact (hopens.target_faultless hcall hscope _).bind fun _ _ => .ok trivial

theorem runTurns_faultless {block : Scope → Trace Scope}
    (hblock : ∀ inner : Scope, inner.Sound → Faultless Scope.Sound (block inner).outcome) (hscope : scope.Sound) :
    ∀ {turns : List (List (String × Value))}, (∀ row ∈ turns, Value.SoundFields row) →
      Faultless (fun _ => True) (runTurns block scope turns).outcome
  | [], _ => .ok trivial
  | row :: rest, h => by
    obtain ⟨hrow, hrest⟩ := List.forall_mem_cons.mp h
    rw [runTurns]
    refine Trace.faultless_bind (hblock _ (hscope.child.defineAll hrow)) fun _ _ => ?_
    exact runTurns_faultless hblock hscope hrest

theorem runVariations_faultless (hcall : Caller.Sound call) {block : Path → Namespace → Scope → Trace Scope}
    {Q : Namespace → Prop}
    (hblock : ∀ (path : Path) (ns : Namespace) (inner : Scope), Q ns → inner.Sound →
      Faultless Scope.Sound (block path ns inner).outcome)
    (hscope : scope.Sound) (path : Path) (ns : Namespace) :
    ∀ {variations : List (Variation Expr)},
      (∀ v ∈ variations, ∃ node, Dict.get? ns v.name.text = some node ∧ node.Holds Q) →
      (∀ v ∈ variations, ∀ b ∈ v.assignments, b.expression.WellFormed most) →
      Faultless (fun _ => True) (runVariations call block path ns scope variations).outcome
  | [], _, _ => .ok trivial
  | v :: rest, h, wf => by
    obtain ⟨⟨node, hnode, hholds⟩, hrest⟩ := List.forall_mem_cons.mp h
    obtain ⟨hv, wfrest⟩ := List.forall_mem_cons.mp wf
    rw [runVariations]
    refine Trace.faultless_ofOutcome_bind (variationScope_faultless hcall hscope hv hscope.child) fun inner hinner => ?_
    rw [Namespace.entry_eq hnode]
    refine Trace.faultless_ofOutcome_bind (.ok hholds) fun node hholds => ?_
    refine Trace.faultless_ofOutcome_bind (Node.children_faultless hholds _ _) fun children hchildren => ?_
    refine Trace.faultless_bind (hblock _ children inner hchildren hinner) fun _ _ => ?_
    exact runVariations_faultless hcall hblock hscope path ns hrest wfrest

variable {tag : Option String}

mutual

/-- A statement on a namespace that has a place for it. -/
theorem Statement.run_faultless (hcall : Caller.Sound call) :
    ∀ {s : Statement} {ns : Namespace} {scope : Scope} (path : Path), s.WellFormed most → s.Fits most ns → scope.Sound →
      Faultless Scope.Sound (s.run call tag path ns scope).outcome
  | .define target e s, ns, scope, path, wf, _, hscope => by
    rw [Statement.run]
    exact Scope.bind_define_faultless hcall hscope target wf s
  | .function target parameters body s, ns, scope, path, ⟨_, hbody⟩, _, hscope => by
    rw [Statement.run]
    exact Scope.bind_function_faultless call hscope target parameters hbody s
  | .collect c s, ns, scope, path, wf, fits, hscope => by
    rw [Statement.Fits] at fits
    obtain ⟨node, hnode, hopens⟩ := fits
    rw [Statement.run]
    refine Trace.faultless_ofOutcome_bind (c.fillOf_faultless hcall hscope wf hnode hopens path) fun f _ => ?_
    exact .ok hscope
  | .loop ranges block s, ns, scope, path, ⟨_, hranges, hblock⟩, fits, hscope => by
    rw [Statement.Fits] at fits
    rw [Statement.run]
    refine Trace.faultless_ofOutcome_bind (turns_faultless hcall hscope hranges s) fun turns hturns => ?_
    refine Trace.faultless_bind (runTurns_faultless (fun inner hinner => ?_) hscope hturns) fun _ _ => .ok hscope
    exact runBlock_faultless hcall path hblock fits hinner
  | .vary variations block s, ns, scope, path, ⟨_, hvariations, hblock⟩, fits, hscope => by
    rw [Statement.Fits] at fits
    rw [Statement.run]
    refine Trace.faultless_bind (runVariations_faultless hcall (fun path children inner hfits hinner => ?_) hscope path
      ns fits hvariations) fun _ _ => .ok hscope
    exact runBlock_faultless hcall path hblock hfits hinner
  | .region name predicate axes block s, ns, scope, path, ⟨hpredicate, _, hblock⟩, fits, hscope => by
    rw [Statement.Fits] at fits
    obtain ⟨node, hnode, hopens⟩ := fits
    rw [Statement.run]
    refine Trace.faultless_ofOutcome_bind (takes_faultless hcall hscope hpredicate) fun accepted _ => ?_
    split
    · rw [Namespace.entry_eq hnode]
      refine Trace.faultless_ofOutcome_bind (.ok hopens) fun node hopens => ?_
      refine Trace.faultless_ofOutcome_bind (hopens.descend_faultless hcall hscope _ _) fun below hbelow => ?_
      refine Trace.faultless_ofOutcome_bind (Node.children_faultless hbelow _ _) fun children hchildren => ?_
      refine Trace.faultless_bind (runBlock_faultless hcall _ hblock hchildren hscope.child) fun _ _ => ?_
      exact .ok hscope
    · exact .ok hscope
  | .source inclusive patterns block s, ns, scope, path, ⟨_, hblock⟩, fits, hscope => by
    rw [Statement.Fits] at fits
    rw [Statement.run]
    split
    · exact runBlock_faultless hcall path hblock fits hscope
    · exact .ok hscope
  | .result _ _, _, _, _, wf, _, _ => wf.elim

/-- A block on a namespace that has a place for every statement of it. -/
theorem runBlock_faultless (hcall : Caller.Sound call) :
    ∀ {block : List Statement} {ns : Namespace} {scope : Scope} (path : Path),
      Statement.WellFormedBlock most block → FitsBlock most block ns → scope.Sound →
      Faultless Scope.Sound (runBlock call tag path ns scope block).outcome
  | [], ns, scope, path, _, _, hscope => by
    rw [runBlock]
    exact .ok hscope
  | s :: rest, ns, scope, path, ⟨hs, hrest⟩, fits, hscope => by
    rw [FitsBlock] at fits
    rw [runBlock]
    refine Trace.faultless_bind (s.run_faultless hcall path hs fits.1 hscope) fun after hafter => ?_
    exact runBlock_faultless hcall path hrest fits.2 hafter

end

end RecordStats
