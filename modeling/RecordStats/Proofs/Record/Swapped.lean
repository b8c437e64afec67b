import RecordStats.Proofs.Record.Reach
import RecordStats.Proofs.Tree.Accepted

/-! Statements that change places. Collectors, regions, varied blocks and loops bind nothing in the scope around them, and
    beside each other they declare different names. So two of them may change places: the same tree is declared, and a
    record that both let pass makes the same fills in every storage. -/

namespace RecordStats

/-! ### Two statements changed -/

/-- The statement leaves the scope around it as it is. -/
def Statement.Detached : Statement → Prop
  | .collect _ _ | .region _ _ _ _ _ | .vary _ _ _ | .loop _ _ _ => True
  | .define _ _ _ | .function _ _ _ _ | .result _ _ | .source _ _ _ _ => False

namespace Statement

/-- Two adjacent statements of the first block, or of a block within it, have changed places in the second. -/
inductive Swaps : List Statement → List Statement → Prop where
  | here {s t : Statement} (first : s.Detached) (second : t.Detached) (rest : List Statement) :
      Swaps (s :: t :: rest) (t :: s :: rest)
  | later (s : Statement) {rest rest' : List Statement} (h : Swaps rest rest') : Swaps (s :: rest) (s :: rest')
  | loop (ranges : List (Binding Expr)) {block block' : List Statement} (h : Swaps block block') (s : Span)
      (rest : List Statement) : Swaps (.loop ranges block s :: rest) (.loop ranges block' s :: rest)
  | vary (variations : List (Variation Expr)) {block block' : List Statement} (h : Swaps block block') (s : Span)
      (rest : List Statement) : Swaps (.vary variations block s :: rest) (.vary variations block' s :: rest)
  | region (name : Name) (predicate : Option Expr) (axes : List (Axis Expr)) {block block' : List Statement}
      (h : Swaps block block') (s : Span) (rest : List Statement) :
      Swaps (.region name predicate axes block s :: rest) (.region name predicate axes block' s :: rest)
  | source (inclusive : Bool) (patterns : List Pattern) {block block' : List Statement} (h : Swaps block block')
      (s : Span) (rest : List Statement) :
      Swaps (.source inclusive patterns block s :: rest) (.source inclusive patterns block' s :: rest)

theorem Swaps.wellFormed {most : Nat} {block block' : List Statement} (h : Swaps block block')
    (wf : WellFormedBlock most block) : WellFormedBlock most block' := by
  induction h with
  | here first second rest =>
    obtain ⟨hs, ht, hrest⟩ := wf
    exact ⟨ht, hs, hrest⟩
  | later s _ ih => exact ⟨wf.1, ih wf.2⟩
  | loop ranges _ s rest ih =>
    obtain ⟨⟨any, hranges, hblock⟩, hrest⟩ := wf
    exact ⟨⟨any, hranges, ih hblock⟩, hrest⟩
  | vary variations _ s rest ih =>
    obtain ⟨⟨any, hvariations, hblock⟩, hrest⟩ := wf
    exact ⟨⟨any, hvariations, ih hblock⟩, hrest⟩
  | region name predicate axes _ s rest ih =>
    obtain ⟨⟨hpredicate, haxes, hblock⟩, hrest⟩ := wf
    exact ⟨⟨hpredicate, haxes, ih hblock⟩, hrest⟩
  | source inclusive patterns _ s rest ih =>
    obtain ⟨⟨any, hblock⟩, hrest⟩ := wf
    exact ⟨⟨any, ih hblock⟩, hrest⟩

end Statement

/-! ### What is declared -/

/-- Declarations may be made in either order. -/
theorem Adds.comm {names others : List String} {f g : Namespace → Outcome Namespace} (hf : Adds names f)
    (hg : Adds others g) {ns d : Namespace} (hns : Dict.Sorted ns) (h : (f ns >>= g) = .ok d) :
    (g ns >>= f) = .ok d := by
  obtain ⟨a, b, ha, hb, apart, apart', inner, rfl⟩ := (hf.bind_iff hg hns).mp h
  refine (hg.bind_iff hf hns).mpr ⟨b, a, hb, ha, apart', apart, inner.symm, ?_⟩
  rw [Dict.union_comm (hf.sorted ha) (hg.sorted hb) inner]

/-- A block whose first statement is exchanged declares the same if the other statement does. -/
theorem declareBlock_head {name : Path} {ns d : Namespace} {s s' : Statement} (rest : List Statement)
    (hs : ∀ d, s.declare name ns = .ok d → s'.declare name ns = .ok d) (h : declareBlock name ns (s :: rest) = .ok d) :
    declareBlock name ns (s' :: rest) = .ok d := by
  obtain ⟨next, hnext, h⟩ := declareBlock_cons_eq_ok.mp h
  exact declareBlock_cons_eq_ok.mpr ⟨next, hs next hnext, h⟩

theorem declareBlock_swap {name : Path} {ns d : Namespace} {s t : Statement} {rest : List Statement}
    (hns : Dict.Sorted ns) (h : declareBlock name ns (s :: t :: rest) = .ok d) :
    declareBlock name ns (t :: s :: rest) = .ok d := by
  obtain ⟨m, hm, h⟩ := declareBlock_cons_eq_ok.mp h
  obtain ⟨both, hboth, h⟩ := declareBlock_cons_eq_ok.mp h
  have changed := (Statement.declare_adds name s).comm (Statement.declare_adds name t) hns
    (Outcome.bind_eq_ok.mpr ⟨m, hm, hboth⟩)
  obtain ⟨m', hm', hboth'⟩ := Outcome.bind_eq_ok.mp changed
  exact declareBlock_cons_eq_ok.mpr ⟨m', hm', declareBlock_cons_eq_ok.mpr ⟨both, hboth', h⟩⟩

/-- Two statements that have changed places declare the same. -/
theorem Statement.Swaps.declare {block block' : List Statement} (h : Statement.Swaps block block') :
    ∀ {name : Path} {ns d : Namespace}, Dict.Sorted ns → declareBlock name ns block = .ok d →
      declareBlock name ns block' = .ok d := by
  induction h with
  | here _ _ rest => exact declareBlock_swap
  | later s _ ih =>
    intro name ns d hns h
    obtain ⟨next, hnext, h⟩ := declareBlock_cons_eq_ok.mp h
    refine declareBlock_cons_eq_ok.mpr ⟨next, hnext, ih ?_ h⟩
    exact (Statement.declare_adds name s).sorted_of hns hnext
  | loop ranges _ s rest ih =>
    intro name ns d hns
    refine declareBlock_head rest fun d h => ?_
    rw [Statement.declare] at h ⊢
    exact ih hns h
  | vary variations _ s rest ih =>
    intro name ns d hns
    refine declareBlock_head rest fun d h => ?_
    obtain ⟨inner, hinner, h⟩ := Statement.declare_vary_eq_ok.mp h
    exact Statement.declare_vary_eq_ok.mpr ⟨inner, ih Dict.sorted_nil hinner, h⟩
  | region n predicate axes _ s rest ih =>
    intro name ns d hns
    refine declareBlock_head rest fun d h => ?_
    obtain ⟨inner, node, hinner, hnode, h⟩ := Statement.declare_region_eq_ok.mp h
    exact Statement.declare_region_eq_ok.mpr ⟨inner, node, ih Dict.sorted_nil hinner, hnode, h⟩
  | source inclusive patterns _ s rest ih =>
    intro name ns d hns
    refine declareBlock_head rest fun d h => ?_
    rw [Statement.declare] at h ⊢
    exact ih hns h

/-! ### What is filled -/

/-- Where the first trace ends well the second ends alike, and each storage gets the same fills in the same order. -/
def Trace.Regroups {α : Type} (t u : Trace α) : Prop :=
  ∀ a, t.outcome = .ok a → u.outcome = .ok a ∧
    ∀ path : Path, (t.fills.filter fun f => f.path = path) = u.fills.filter fun f => f.path = path

namespace Trace

variable {α β : Type} {t u : Trace α} {f g : α → Trace β}

theorem outcome_bind_eq_ok {b : β} : (t >>= f).outcome = .ok b ↔ ∃ a, t.outcome = .ok a ∧ (f a).outcome = .ok b := by
  cases ht : t.outcome with
  | error stop => simp [bind_error ht]
  | ok a => simp [bind_ok ht]

theorem Regroups.refl (t : Trace α) : t.Regroups t := fun _ h => ⟨h, fun _ => rfl⟩

theorem Regroups.bind (h : t.Regroups u) (hn : ∀ a, t.outcome = .ok a → (f a).Regroups (g a)) :
    (t >>= f).Regroups (u >>= g) := by
  intro b hb
  obtain ⟨a, ha, hb⟩ := outcome_bind_eq_ok.mp hb
  obtain ⟨hu, first⟩ := h a ha
  obtain ⟨hg, second⟩ := hn a ha b hb
  refine ⟨outcome_bind_eq_ok.mpr ⟨a, hu, hg⟩, fun path => ?_⟩
  rw [bind_ok ha, bind_ok hu, List.filter_append, List.filter_append, first path, second path]

/-- Two steps may change places when they fill different storages and both give the same. -/
theorem Regroups.swap {a : α} {next : α → Trace β} (ht : ∀ x, t.outcome = .ok x → x = a)
    (hu : ∀ x, u.outcome = .ok x → x = a) (apart : ∀ p ∈ t.fills, ∀ q ∈ u.fills, p.path ≠ q.path)
    (hf : f a = u >>= next) (hg : g a = t >>= next) : (t >>= f).Regroups (u >>= g) := by
  intro b hb
  obtain ⟨x, hx, hb⟩ := outcome_bind_eq_ok.mp hb
  obtain rfl := ht x hx
  rw [hf] at hb
  obtain ⟨y, hy, hb⟩ := outcome_bind_eq_ok.mp hb
  obtain rfl := hu y hy
  refine ⟨?_, fun path => ?_⟩
  · refine outcome_bind_eq_ok.mpr ⟨y, hy, ?_⟩
    rw [hg]
    exact outcome_bind_eq_ok.mpr ⟨y, hx, hb⟩
  · rw [bind_ok hx, bind_ok hy, hf, hg, bind_ok hy, bind_ok hx]
    simp only [List.filter_append, ← List.append_assoc]
    congr 1
    by_cases mine : ∃ p ∈ t.fills, p.path = path
    · obtain ⟨p, hp, rfl⟩ := mine
      rw [Fill.filter_eq_nil fun q hq => (apart p hp q hq).symm, List.append_nil, List.nil_append]
    · rw [Fill.filter_eq_nil fun p hp heq => mine ⟨p, hp, heq⟩, List.append_nil, List.nil_append]

end Trace

variable {call : Caller} {tag : Option String}

theorem runTurns_regroups {block block' : Scope → Trace Scope} (h : ∀ inner, (block inner).Regroups (block' inner))
    (scope : Scope) (rows : List (List (String × Value))) :
    (runTurns block scope rows).Regroups (runTurns block' scope rows) := by
  induction rows with
  | nil => exact .refl _
  | cons row rest ih =>
    rw [runTurns, runTurns]
    exact (h _).bind fun _ _ => ih

theorem runVariations_regroups {block block' : Path → Namespace → Scope → Trace Scope} {path : Path} {ns : Namespace}
    (hp : Node.PlacedChildren path ns) (scope : Scope)
    (h : ∀ {below children} inner, Node.PlacedChildren below children →
      (block below children inner).Regroups (block' below children inner)) (vs : List (Variation Expr)) :
    (runVariations call block path ns scope vs).Regroups (runVariations call block' path ns scope vs) := by
  induction vs with
  | nil => exact .refl _
  | cons v rest ih =>
    rw [runVariations_cons, runVariations_cons]
    refine (Trace.Regroups.refl _).bind fun begun hbegun => (h _ ?_).bind fun _ _ => ih
    obtain ⟨name, hmem⟩ := Namespace.vary_eq_ok hbegun
    obtain ⟨-, -, placed⟩ := Node.placedChildren_iff.mp hp _ hmem
    exact placed

/-- After a detached statement the scope is what it was. -/
theorem Statement.Detached.scope_eq {s : Statement} (h : s.Detached) {path : Path} {ns : Namespace} {scope next : Scope}
    (hs : (s.run call tag path ns scope).outcome = .ok next) : next = scope := by
  have last : ∀ {α : Type} {t : Trace α}, (t >>= fun _ => pure scope).outcome = .ok next → next = scope := by
    intro α t ht
    obtain ⟨_, -, ht⟩ := Trace.outcome_bind_eq_ok.mp ht
    cases ht
    rfl
  cases s with
  | collect c s =>
    rw [Statement.run] at hs
    obtain ⟨f, -, hs⟩ := Trace.outcome_bind_eq_ok.mp hs
    exact last hs
  | loop ranges block s =>
    rw [Statement.run] at hs
    obtain ⟨rows, -, hs⟩ := Trace.outcome_bind_eq_ok.mp hs
    exact last hs
  | vary variations block s =>
    rw [Statement.run] at hs
    exact last hs
  | region name predicate axes block s =>
    rw [run_region_eq] at hs
    obtain ⟨taken, -, hs⟩ := Trace.outcome_bind_eq_ok.mp hs
    split at hs
    · obtain ⟨found, -, hs⟩ := Trace.outcome_bind_eq_ok.mp hs
      exact last hs
    · cases hs
      rfl
  | _ => exact h.elim

theorem runBlock_head_regroups {path : Path} {ns : Namespace} {scope : Scope} {s s' : Statement} (rest : List Statement)
    (hs : (s.run call tag path ns scope).Regroups (s'.run call tag path ns scope)) :
    (runBlock call tag path ns scope (s :: rest)).Regroups (runBlock call tag path ns scope (s' :: rest)) := by
  rw [runBlock, runBlock]
  exact hs.bind fun _ _ => .refl _

/-- Detached statements that declare different names fill different storages, so either may be first. -/
theorem runBlock_swap_regroups {path : Path} {ns : Namespace} {scope : Scope} {s t : Statement} (first : s.Detached)
    (second : t.Detached) (rest : List Statement) (named : RecordStats.WellNamed (s :: t :: rest))
    (hp : Node.PlacedChildren path ns) :
    (runBlock call tag path ns scope (s :: t :: rest)).Regroups (runBlock call tag path ns scope (t :: s :: rest)) := by
  obtain ⟨-, -, apart⟩ := wellNamed_cons.mp named
  rw [declaredNamesOf, List.disjoint_append_right] at apart
  rw [runBlock, runBlock]
  refine .swap (fun _ hs => first.scope_eq hs) (fun _ ht => second.scope_eq ht) (fun p hs q ht heq => ?_)
    (by rw [runBlock]) (by rw [runBlock])
  have reached := Statement.fills_reach hp hs
  rw [heq] at reached
  exact reached.disjoint hp apart.1 (Statement.fills_reach hp ht)

/-- With two statements that have changed places a block does the same for a record that it lets pass. -/
theorem Statement.Swaps.regroups {block block' : List Statement} (h : Statement.Swaps block block') :
    ∀ {path : Path} {ns : Namespace} {scope : Scope}, RecordStats.WellNamed block → Node.PlacedChildren path ns →
      (runBlock call tag path ns scope block).Regroups (runBlock call tag path ns scope block') := by
  induction h with
  | here first second rest => exact runBlock_swap_regroups first second rest
  | later s _ ih =>
    intro path ns scope named hp
    rw [runBlock, runBlock]
    exact (Trace.Regroups.refl _).bind fun _ _ => ih (wellNamed_cons.mp named).2.1 hp
  | loop ranges _ s rest ih =>
    intro path ns scope named hp
    obtain ⟨⟨own, blocks⟩, -, -⟩ := wellNamed_cons.mp named
    refine runBlock_head_regroups rest ?_
    rw [Statement.run, Statement.run]
    refine (Trace.Regroups.refl _).bind fun rows _ => .bind ?_ fun _ _ => .refl _
    exact runTurns_regroups (fun inner => ih (List.forall_mem_cons.mpr ⟨own, blocks⟩) hp) scope rows
  | vary variations _ s rest ih =>
    intro path ns scope named hp
    obtain ⟨⟨-, blocks⟩, -, -⟩ := wellNamed_cons.mp named
    refine runBlock_head_regroups rest ?_
    rw [Statement.run, Statement.run]
    refine .bind ?_ fun _ _ => .refl _
    exact runVariations_regroups hp scope (fun inner hp => ih blocks hp) variations
  | region name predicate axes _ s rest ih =>
    intro path ns scope named hp
    obtain ⟨⟨-, blocks⟩, -, -⟩ := wellNamed_cons.mp named
    refine runBlock_head_regroups rest ?_
    rw [run_region_eq, run_region_eq]
    refine (Trace.Regroups.refl _).bind fun taken _ => ?_
    split
    · refine (Trace.Regroups.refl _).bind fun found hfound => .bind ?_ fun _ _ => .refl _
      obtain ⟨-, -, -, ⟨-, -, placed⟩, -⟩ := Namespace.reach_eq_ok hp hfound
      exact ih blocks placed
    · exact .refl _
  | source inclusive patterns _ s rest ih =>
    intro path ns scope named hp
    obtain ⟨⟨own, blocks⟩, -, -⟩ := wellNamed_cons.mp named
    refine runBlock_head_regroups rest ?_
    rw [Statement.run, Statement.run]
    split
    · exact ih (List.forall_mem_cons.mpr ⟨own, blocks⟩) hp
    · exact .refl _

end RecordStats
