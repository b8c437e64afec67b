import RecordStats.Proofs.Record.Resolved
import RecordStats.Proofs.Tree.Leaves
import RecordStats.Proofs.Tree.Renamed

/-! Ways through binnings. A region leads a record down to a namespace, and a collector with axes leads it down to a
    storage. Both take the slots that the axes select, and the fresh scope of a region's block changes no value. So a
    region by some axes with a collector in it makes the entries that the collector makes by these axes itself. -/

namespace RecordStats

open Segment (field)

variable {call : Caller}

/-! ### Values in a fresh scope -/

namespace Expr

variable {s t : Scope}

mutual

/-- The value of an expression depends on what names mean, and on what a function made there takes with it. -/
theorem evaluate_congr (means : ∀ name, s.get? name = t.get? name) (freeze : s.freeze = t.freeze) :
    ∀ (e : Expr) (origin : Origin), e.evaluate call s origin = e.evaluate call t origin
  | literal _ _, origin => by rw [evaluate, evaluate]
  | name text _, origin => by rw [evaluate, evaluate, means text]
  | lambda _ _ _, origin => by rw [evaluate, evaluate, freeze]
  | operator op operands place, origin => by
    by_cases selects : ∃ receiver member, op = .member ∧ operands = [receiver, member]
    · obtain ⟨receiver, member, rfl, rfl⟩ := selects
      simp only [evaluate, evaluate_congr means freeze receiver]
    · rw [evaluate_operator _ _ _ selects, evaluate_operator _ _ _ selects, evaluateAll_congr means freeze operands]
  | Expr.call callee arguments place, origin => by
    rw [evaluate, evaluate, evaluateAll_congr means freeze arguments]
    simp only [evaluate_congr means freeze callee]

theorem evaluateAll_congr (means : ∀ name, s.get? name = t.get? name) (freeze : s.freeze = t.freeze) :
    ∀ (es : List Expr) (origin : Origin) (i : Nat), evaluateAll call s origin i es = evaluateAll call t origin i es
  | [], origin, i => by rw [evaluateAll, evaluateAll]
  | e :: rest, origin, i => by
    rw [evaluateAll, evaluateAll, evaluate_congr means freeze e]
    simp only [evaluateAll_congr means freeze rest]

end

end Expr

/-- In the fresh scope of a block an expression has the value that it has around the block. -/
theorem Scope.evaluate_child (s : Scope) (e : Expr) : s.child.evaluate call e = s.evaluate call e :=
  Expr.evaluate_congr (s := s.child) (t := s) (fun _ => rfl) s.freeze_child e s.place

theorem weightOf_child (s : Scope) (e : Option Expr) : weightOf call s.child e = weightOf call s e := by
  cases e with
  | none => rfl
  | some e => rw [weightOf, weightOf, Scope.evaluate_child]

theorem Storage.sample_child (s : Scope) (content : Storage) :
    content.sample call s.child = content.sample call s := by
  cases content <;> simp only [Storage.sample, Scope.evaluate_child]

variable {scope : Scope}

/-! ### Routes -/

/-- A slot that is selected is one that the binning has. -/
theorem Bins.slot_mem {bins : Bins Float} (selects : bins.Selects) {axis : Expr} {slot : Slot}
    (h : bins.slot call scope axis = .ok slot) : slot ∈ Slot.ofBins bins.count := by
  rw [Bins.slot] at h
  obtain ⟨v, -, h⟩ := Outcome.bind_eq_ok.mp h
  split at h
  · next x _ =>
    have selected : bins.select x = slot := Except.ok.inj h
    rw [Slot.ofBins, List.mem_append]
    cases slot with
    | bin i => exact .inl (List.mem_map_of_mem (List.mem_range.mpr (selects x i selected)))
    | _ => exact .inr (by simp)
  · exact absurd h Outcome.failAt_ne_ok

namespace Axis

/-- The slots into which some axes sort a record, as a path with the first axis outermost. -/
def route (call : Caller) (scope : Scope) : List (Axis Expr) → Outcome Path
  | [] => .ok []
  | a :: rest => do
    let bins ← Bins.ofCall a.binning
    let slot ← bins.slot call scope a.expression
    return slot.segment :: (← route call scope rest)

theorem route_cons {a : Axis Expr} {bins : Bins Float} (h : Bins.ofCall a.binning = .ok bins)
    (rest : List (Axis Expr)) :
    route call scope (a :: rest) =
      bins.slot call scope a.expression >>= fun slot => (route call scope rest).map (slot.segment :: ·) := by
  rw [route, h]
  show (bins.slot call scope a.expression >>= _) = _
  congr 1

/-- A record is routed to one of the choices that the axes leave. -/
theorem route_mem : ∀ {axes : List (Axis Expr)} {slots : Path}, route call scope axes = .ok slots →
    slots ∈ choices axes
  | [], slots, h => by
    cases h
    exact List.mem_singleton_self _
  | a :: rest, slots, h => by
    rw [route] at h
    obtain ⟨bins, hbins, h⟩ := Outcome.bind_eq_ok.mp h
    obtain ⟨slot, hslot, h⟩ := Outcome.bind_eq_ok.mp h
    obtain ⟨others, hothers, h⟩ := Outcome.bind_eq_ok.mp h
    cases h
    rw [choices, Axis.slots, ← (Bins.ofCall_eq_ok_iff.mp hbins).count_eq]
    have selected := Bins.slot_mem (Bins.selects_of_ofCall hbins) hslot
    exact List.mem_flatMap.mpr ⟨slot, selected, List.mem_map_of_mem (route_mem hothers)⟩

end Axis

namespace Node

/-- Through binnings a record comes to a copy of what they stand around, by the slots that the axes select. -/
theorem descend_wrap {name : Path} {node : Node} {blame : Span} : ∀ {axes : List (Axis Expr)} {wrapped : Node},
    wrap name node axes = .ok wrapped → ∀ path,
      descend call scope blame path (zerosLike path wrapped) axes.length =
        (Axis.route call scope axes).map fun slots => (path ++ slots, zerosLike (path ++ slots) node)
  | [], wrapped, h, path => by
    cases h
    simp [Axis.route, descend, Except.map]
  | a :: rest, wrapped, h, path => by
    rw [wrap] at h
    obtain ⟨inner, hinner, h⟩ := Outcome.bind_eq_ok.mp h
    obtain ⟨bins, hbins, h⟩ := Outcome.bind_eq_ok.mp h
    cases h
    rw [binned_eq, zerosLike_binning, Axis.route_cons hbins, List.length_cons]
    cases hslot : bins.slot call scope a.expression with
    | error stop =>
      rw [binned_eq, descend_error hslot]
      rfl
    | ok slot =>
      have selected := Bins.slot_mem (Bins.selects_of_ofCall hbins) hslot
      rw [binned_eq, descend_ok hslot, ← binned_eq, slotChild_binned selected, zerosLike_zerosLike]
      show descend call scope blame _ _ _ = Except.map _ (Except.map _ _)
      rw [descend_wrap hinner]
      cases Axis.route call scope rest with
      | error stop => rfl
      | ok slots => simp [Except.map]

variable {most : Nat}

/-- Through as many binnings a record comes to its storage by the way that leads to a region's namespace. -/
theorem Opens.target_eq {P : Node → Prop} {axes : Nat} {node : Node} (h : Opens most P axes node) (blame : Span)
    (path : Path) :
    node.target call scope path =
      descend call scope blame path node axes >>= fun found => found.2.target call scope found.1 := by
  induction axes generalizing node path with
  | zero => rfl
  | succ axes ih =>
    cases node with
    | binning name bins axis values u o v =>
      cases hslot : bins.slot call scope axis with
      | error stop =>
        rw [target_error hslot, descend_error hslot]
        rfl
      | ok slot =>
        rw [target_ok hslot, descend_ok hslot]
        cases hnext : Node.slotChild slot (Node.binning name bins axis values u o v) with
        | error stop => rfl
        | ok next => exact ih (h.of_slotChild hnext) _
    | _ => cases h

/-- A storage within binnings is reached by the slots that the axes select. -/
theorem target_wrap {name own : Path} {content : Storage} {axes : List (Axis Expr)} {wrapped : Node}
    (wf : ∀ a ∈ axes, a.WellFormed most) (h : wrap name (.storage own content) axes = .ok wrapped) (path : Path) :
    target call scope path (zerosLike path wrapped) = (do
      let slots ← Axis.route call scope axes
      let sample ← content.sample call scope
      return (path ++ slots, sample)) := by
  have opens : Opens most (fun _ => True) axes.length wrapped := .wrap (fun _ _ => id) trivial wf h
  rw [(opens.zerosLike (fun _ _ => id) path).target_eq default, descend_wrap h]
  cases Axis.route call scope axes with
  | error stop => rfl
  | ok slots =>
    show target call scope (path ++ slots) (zerosLike (path ++ slots) (.storage own content)) = _
    rw [zerosLike, target, Storage.sample_zero]
    rfl

end Node

/-! ### Entries of both programs -/

/-- The entry of a collector, by whatever axes its storage is declared. -/
theorem Collector.fillOf_wrap {most : Nat} {c : Collector Expr} {path own name : Path} {ns : Namespace}
    {content : Storage} {axes : List (Axis Expr)} {wrapped : Node} (wf : ∀ a ∈ axes, a.WellFormed most)
    (h : Node.wrap name (.storage own content) axes = .ok wrapped)
    (found : ns.entry c.name = .ok (wrapped.zerosLike (path ++ [field c.name.text]))) :
    c.fillOf call path ns scope = (do
      let w ← weightOf call scope c.weight
      let slots ← Axis.route call scope axes
      let sample ← content.sample call scope
      return ⟨path ++ [field c.name.text] ++ slots, w, sample⟩) := by
  rw [Collector.fillOf, found]
  cases weightOf call scope c.weight with
  | error stop => rfl
  | ok w =>
    show (Node.target call scope _ _ >>= _) = _
    rw [Node.target_wrap wf h]
    cases Axis.route call scope axes with
    | error stop => rfl
    | ok slots =>
      cases content.sample call scope <;> rfl

theorem Namespace.eq_of_declare {n : Name} {node : Node} {own : Namespace} (h : Namespace.declare [] n node = .ok own) :
    own = [(n.text, node)] :=
  (Namespace.declare_iff.mp h).2

section

variable {most : Nat} {tag : Option String} {r : Name} {axes : List (Axis Expr)} {c : Collector Expr} {s s' : Span}
  {tree tree' : Namespace} {content : Storage}

/-- The entry of a collector that is by itself in a program. -/
theorem Collector.fillOf_single (call : Caller) (scope : Scope) (wf : ∀ a ∈ c.axes, a.WellFormed most)
    (htree : declareBlock [] [] [.collect c s] = .ok tree) :
    ∃ content, Storage.ofCollector c s = .ok content ∧ c.fillOf call [] tree scope = (do
      let w ← weightOf call scope c.weight
      let slots ← Axis.route call scope c.axes
      let sample ← content.sample call scope
      return ⟨.field c.name.text :: slots, w, sample⟩) := by
  have copied := Program.childrenLike_tree (p := ⟨_, default⟩) htree
  rw [declareBlock_singleton] at htree
  obtain ⟨content, wrapped, hcontent, hwrapped, htree⟩ := Statement.declare_collect_eq_ok.mp htree
  obtain rfl := Namespace.eq_of_declare htree
  have same : wrapped.zerosLike [field c.name.text] = wrapped := (Prod.mk.inj (List.cons.inj copied).1).2
  refine ⟨content, hcontent, fillOf_wrap wf hwrapped ?_⟩
  rw [Namespace.entry_cons_eq rfl, List.nil_append, same]

/-- The namespace of a region that holds one collector without axes, where a record comes to it. -/
theorem Namespace.reach_region (plain : c.axes = []) (hcontent : Storage.ofCollector c s = .ok content)
    (htree : declareBlock [] [] [.region r none axes [.collect c s] s'] = .ok tree) :
    Namespace.reach call scope [] tree r axes.length =
      (Axis.route call scope axes).map fun slots =>
        (.field r.text :: slots,
          [(c.name.text, .storage (.field r.text :: (slots ++ [field c.name.text])) content)]) := by
  have copied := Program.childrenLike_tree (p := ⟨_, default⟩) htree
  rw [declareBlock_singleton] at htree
  obtain ⟨inner, wrapped, hinner, hwrapped, htree⟩ := Statement.declare_region_eq_ok.mp htree
  obtain rfl := eq_of_declare htree
  rw [declareBlock_singleton, Statement.declare, hcontent, plain] at hinner
  obtain rfl := eq_of_declare hinner
  have same : wrapped.zerosLike [field r.text] = wrapped := (Prod.mk.inj (List.cons.inj copied).1).2
  rw [Namespace.reach, entry_cons_eq rfl]
  show (Node.descend call scope r.span [field r.text] wrapped axes.length >>= _) = _
  rw [← same, Node.descend_wrap hwrapped]
  cases Axis.route call scope axes with
  | error stop => rfl
  | ok slots =>
    refine congrArg Except.ok (Prod.ext rfl ?_)
    show Node.childrenLike (.field r.text :: slots) _ = _
    rw [Node.childrenLike, Node.childrenLike, Storage.ofCollector_copied hcontent, List.cons_append]

end

/-! ### Entries of both programs -/

/-- What one record does in two programs of which the first has a leaf `r/slots/n` where the second has `n/slots`: it
    fails in both without an entry, or makes the same entry in two such leaves. -/
inductive Trace.Transposes (axes : List (Axis Expr)) (r n : String) : Trace Scope → Trace Scope → Prop where
  | filled {slots : Path} (routed : slots ∈ Axis.choices axes) (w : Float) (sample : Sample) (after after' : Scope) :
      Transposes axes r n ⟨[⟨.field r :: (slots ++ [field n]), w, sample⟩], .ok after⟩
        ⟨[⟨.field n :: slots, w, sample⟩], .ok after'⟩
  | stopped (stop stop' : Stop) : Transposes axes r n ⟨[], .error stop⟩ ⟨[], .error stop'⟩

/-- The collector by some axes. -/
def Collector.binnedBy (c : Collector Expr) (axes : List (Axis Expr)) : Collector Expr := { c with axes := axes }

/-- A region by some axes around a collector, and the collector by these axes, do the same with a record. -/
theorem runBlock_transposes {most : Nat} {tag : Option String} {r : Name} {axes : List (Axis Expr)} {c : Collector Expr}
    {s s' : Span} {tree tree' : Namespace} (wf : ∀ a ∈ axes, a.WellFormed most) (plain : c.axes = [])
    (left : declareBlock [] [] [.region r none axes [.collect c s] s'] = .ok tree)
    (right : declareBlock [] [] [.collect (c.binnedBy axes) s] = .ok tree') :
    Trace.Transposes axes r.text c.name.text
      (runBlock call tag [] tree scope [.region r none axes [.collect c s] s'])
      (runBlock call tag [] tree' scope [.collect (c.binnedBy axes) s]) := by
  obtain ⟨content, hcontent, direct⟩ := Collector.fillOf_single call scope wf right
  have hcontent : Storage.ofCollector c s = .ok content := hcontent
  -- In the region, weight and sample are evaluated in a scope below, where the same is visible.
  have inside : ∀ slots, c.fillOf call (.field r.text :: slots)
      [(c.name.text, .storage (.field r.text :: (slots ++ [field c.name.text])) content)] scope.child = (do
        let w ← weightOf call scope c.weight
        let sample ← content.sample call scope
        return ⟨.field r.text :: (slots ++ [field c.name.text]), w, sample⟩) := by
    intro slots
    rw [Collector.fillOf, weightOf_child, Namespace.entry_cons_eq rfl, ← Storage.sample_child scope]
    cases weightOf call scope c.weight with
    | error stop => rfl
    | ok w =>
      show (Node.target _ _ _ _ >>= _) = _
      rw [Node.target]
      cases content.sample call scope.child <;> rfl
  rw [runBlock_singleton, runBlock_singleton, run_region rfl, Namespace.reach_region plain hcontent left,
    Statement.run, direct]
  cases hroute : Axis.route call scope axes with
  | error stop =>
    have route : Axis.route call scope (c.binnedBy axes).axes = .error stop := hroute
    rw [route]
    cases weightOf call scope (c.binnedBy axes).weight with
    | error stop' => exact .stopped stop stop'
    | ok w => exact .stopped stop stop
  | ok slots =>
    have route : Axis.route call scope (c.binnedBy axes).axes = .ok slots := hroute
    show Trace.Transposes _ _ _ (runBlock call tag (.field r.text :: slots) _ scope.child [.collect c s] >>= _) _
    rw [runBlock_singleton, Statement.run, inside, route]
    show Trace.Transposes _ _ _ _ (liftM (weightOf call scope c.weight >>= _) >>= _)
    cases weightOf call scope c.weight with
    | error stop => exact .stopped stop stop
    | ok w =>
      cases content.sample call scope with
      | error stop => exact .stopped stop stop
      | ok sample => exact .filled (Axis.route_mem hroute) w sample scope scope

end RecordStats
