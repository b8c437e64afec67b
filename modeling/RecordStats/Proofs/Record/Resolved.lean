import RecordStats.Proofs.Program.WellFormed
import RecordStats.Proofs.Record.Faultless
import RecordStats.Proofs.Record.Under
import RecordStats.Record.Statement

/-! Programs for one tag. Whether a source block takes a record is known from the tag alone, so for records with one tag
    a program may be written without source blocks: with the statements of those that take the tag in their place. A
    source block opens no scope and no namespace. So for a tag the resolved statements declare a part of the tree, and
    fill it as the statements they stand for do. -/

namespace RecordStats

mutual

/-- The statements that stand for a statement when source blocks are resolved for a tag. -/
def Statement.resolved (tag : Option String) : Statement → List Statement
  | .source inclusive patterns block _ => if acceptsTag inclusive patterns tag then resolvedBlock tag block else []
  | .loop ranges block s => [.loop ranges (resolvedBlock tag block) s]
  | .vary variations block s => [.vary variations (resolvedBlock tag block) s]
  | .region name predicate axes block s => [.region name predicate axes (resolvedBlock tag block) s]
  | .collect c s => [.collect c s]
  | .define target e s => [.define target e s]
  | .function target parameters body s => [.function target parameters body s]
  | .result e s => [.result e s]

/-- A block with every source block within it resolved for a tag. -/
def resolvedBlock (tag : Option String) : List Statement → List Statement
  | [] => []
  | s :: rest => s.resolved tag ++ resolvedBlock tag rest

end

/-- The program with every source block resolved for a tag. -/
def Program.resolved (tag : Option String) (p : Program) : Program := { p with block := resolvedBlock tag p.block }

variable {most : Nat} {tag : Option String}

theorem Statement.wellFormedBlock_append {block rest : List Statement} :
    WellFormedBlock most (block ++ rest) ↔ WellFormedBlock most block ∧ WellFormedBlock most rest := by
  simp only [wellFormedBlock_iff, List.forall_mem_append]

mutual

theorem Statement.wellFormed_resolved : ∀ {s : Statement}, s.WellFormed most →
    Statement.WellFormedBlock most (s.resolved tag)
  | .source inclusive patterns block s, ⟨_, hblock⟩ => by
    rw [Statement.resolved]
    split
    · exact wellFormed_resolvedBlock hblock
    · exact trivial
  | .loop ranges block s, ⟨any, hranges, hblock⟩ => by
    rw [Statement.resolved]
    exact ⟨⟨any, hranges, wellFormed_resolvedBlock hblock⟩, trivial⟩
  | .vary variations block s, ⟨any, hvariations, hblock⟩ => by
    rw [Statement.resolved]
    exact ⟨⟨any, hvariations, wellFormed_resolvedBlock hblock⟩, trivial⟩
  | .region name predicate axes block s, ⟨hpredicate, haxes, hblock⟩ => by
    rw [Statement.resolved]
    exact ⟨⟨hpredicate, haxes, wellFormed_resolvedBlock hblock⟩, trivial⟩
  | .collect c s, wf => by
    rw [Statement.resolved]
    exact ⟨wf, trivial⟩
  | .define target e s, wf => by
    rw [Statement.resolved]
    exact ⟨wf, trivial⟩
  | .function target parameters body s, wf => by
    rw [Statement.resolved]
    exact ⟨wf, trivial⟩
  | .result e s, wf => wf.elim

/-- Resolving source blocks keeps what a text can hold. -/
theorem wellFormed_resolvedBlock : ∀ {block : List Statement}, Statement.WellFormedBlock most block →
    Statement.WellFormedBlock most (resolvedBlock tag block)
  | [], _ => trivial
  | s :: rest, ⟨wf, wfRest⟩ => by
    rw [resolvedBlock]
    exact Statement.wellFormedBlock_append.mpr ⟨Statement.wellFormed_resolved wf, wellFormed_resolvedBlock wfRest⟩

end

/-! ### What is declared -/

namespace Namespace

variable {small big : Namespace}

theorem Under.declare (h : small.Under big) {n : Name} {c d : Node} (under : c.Under d) {after : Namespace}
    (hd : big.declare n d = .ok after) : ∃ later, small.declare n c = .ok later ∧ later.Under after := by
  obtain ⟨free, rfl⟩ := declare_iff.mp hd
  have free' : Dict.get? small n.text = none := by
    cases hs : Dict.get? small n.text with
    | none => rfl
    | some e =>
      obtain ⟨_, taken, -⟩ := h _ e hs
      rw [free] at taken
      cases taken
  refine ⟨_, declare_iff.mpr ⟨free', rfl⟩, fun key e he => ?_⟩
  rw [Dict.get?_insert] at he ⊢
  split at he
  · next hkey =>
    cases he
    rw [if_pos hkey]
    exact ⟨d, rfl, under⟩
  · next hkey =>
    rw [if_neg hkey]
    exact h key e he

theorem Under.declareVariations {name : Path} {block other : Namespace} (hblock : block.Under other) :
    ∀ {vs : List (Variation Expr)} {small big after : Namespace}, small.Under big →
      big.declareVariations name other vs = .ok after →
        ∃ later, small.declareVariations name block vs = .ok later ∧ later.Under after
  | [], small, _, _, h, hd => by
    cases hd
    exact ⟨small, rfl, h⟩
  | v :: rest, small, big, after, h, hd => by
    obtain ⟨next, hnext, hd⟩ := Namespace.declareVariations_cons_eq_ok.mp hd
    have copies : Node.Under (.namespace (name ++ [.field v.name.text]) _) (.namespace _ _) :=
      Node.under_namespace_iff.mpr (hblock.childrenLike (name ++ [.field v.name.text]))
    obtain ⟨mine, hmine, under⟩ := h.declare copies hnext
    obtain ⟨later, hlater, last⟩ := declareVariations hblock under hd
    exact ⟨later, Namespace.declareVariations_cons_eq_ok.mpr ⟨mine, hmine, hlater⟩, last⟩

end Namespace

theorem declaredAxesOf_append (block rest : List Statement) :
    declaredAxesOf (block ++ rest) = declaredAxesOf block ++ declaredAxesOf rest := by
  induction block with
  | nil => rfl
  | cons s more ih => simp only [List.cons_append, declaredAxesOf, ih, List.append_assoc]

theorem declareBlock_append (name : Path) (ns : Namespace) (block rest : List Statement) :
    declareBlock name ns (block ++ rest) = declareBlock name ns block >>= fun ns => declareBlock name ns rest := by
  induction block generalizing ns with
  | nil => rfl
  | cons s more ih =>
    rw [List.cons_append, declareBlock, declareBlock, bind_assoc]
    exact congrArg _ (funext fun ns => ih ns)

theorem declareBlock_singleton (name : Path) (ns : Namespace) (s : Statement) :
    declareBlock name ns [s] = s.declare name ns := by
  rw [declareBlock]
  exact bind_pure _

mutual

/-- The resolved statements declare a part of what a statement declares. -/
theorem Statement.declare_resolved {name : Path} : ∀ {s : Statement} {small big after : Namespace}, s.WellFormed most →
    small.Under big → s.declare name big = .ok after →
      ∃ later, declareBlock name small (s.resolved tag) = .ok later ∧ later.Under after
  | .collect c s, small, big, after, _, h, hd => by
    rw [Statement.resolved, declareBlock_singleton]
    obtain ⟨content, node, hcontent, hnode, hd⟩ := Statement.declare_collect_eq_ok.mp hd
    have same : Node.Under (.storage (name ++ [.field c.name.text]) content) _ := .storage _ content
    obtain ⟨other, hother, below⟩ := same.wrap hnode
    obtain ⟨later, hlater, last⟩ := h.declare below hd
    exact ⟨later, Statement.declare_collect_eq_ok.mpr ⟨content, other, hcontent, hother, hlater⟩, last⟩
  | .region n predicate axes block s, small, big, after, ⟨_, _, wf⟩, h, hd => by
    rw [Statement.resolved, declareBlock_singleton]
    obtain ⟨inner, node, hinner, hnode, hd⟩ := Statement.declare_region_eq_ok.mp hd
    obtain ⟨part, hpart, under⟩ := declareBlock_resolved wf Namespace.under_nil hinner
    obtain ⟨other, hother, below⟩ := (Node.under_namespace_iff.mpr under).wrap hnode
    obtain ⟨later, hlater, last⟩ := h.declare below hd
    exact ⟨later, Statement.declare_region_eq_ok.mpr ⟨part, other, hpart, hother, hlater⟩, last⟩
  | .vary variations block s, small, big, after, ⟨_, _, wf⟩, h, hd => by
    rw [Statement.resolved, declareBlock_singleton]
    obtain ⟨inner, hinner, hd⟩ := Statement.declare_vary_eq_ok.mp hd
    obtain ⟨part, hpart, under⟩ := declareBlock_resolved wf Namespace.under_nil hinner
    obtain ⟨later, hlater, last⟩ := under.declareVariations h hd
    exact ⟨later, Statement.declare_vary_eq_ok.mpr ⟨part, hpart, hlater⟩, last⟩
  | .loop ranges block s, small, big, after, ⟨_, _, wf⟩, h, hd => by
    rw [Statement.resolved, declareBlock_singleton]
    rw [Statement.declare] at hd ⊢
    exact declareBlock_resolved wf h hd
  | .source inclusive patterns block s, small, big, after, ⟨_, wf⟩, h, hd => by
    rw [Statement.resolved]
    rw [Statement.declare] at hd
    split
    · exact declareBlock_resolved wf h hd
    · exact ⟨small, rfl, h.within (fitsBlock_declare wf hd).1⟩
  | .define _ _ _, small, _, _, _, h, hd => by
    cases hd
    exact ⟨small, rfl, h⟩
  | .function _ _ _ _, small, _, _, _, h, hd => by
    cases hd
    exact ⟨small, rfl, h⟩
  | .result _ _, _, _, _, wf, _, _ => wf.elim

/-- A resolved block declares a part of what the block declares. -/
theorem declareBlock_resolved {name : Path} : ∀ {block : List Statement} {small big after : Namespace},
    Statement.WellFormedBlock most block → small.Under big → declareBlock name big block = .ok after →
      ∃ later, declareBlock name small (resolvedBlock tag block) = .ok later ∧ later.Under after
  | [], small, _, _, _, h, hd => by
    cases hd
    exact ⟨small, rfl, h⟩
  | s :: rest, small, big, after, ⟨wf, wfRest⟩, h, hd => by
    obtain ⟨next, hnext, hd⟩ := declareBlock_cons_eq_ok.mp hd
    obtain ⟨mine, hmine, under⟩ := Statement.declare_resolved wf h hnext
    obtain ⟨later, hlater, last⟩ := declareBlock_resolved wfRest under hd
    rw [resolvedBlock, declareBlock_append]
    exact ⟨later, Outcome.bind_eq_ok.mpr ⟨mine, hmine, hlater⟩, last⟩

end

mutual

theorem Statement.mem_declaredAxes_of_resolved {a : Axis Expr} : ∀ {s : Statement},
    a ∈ declaredAxesOf (s.resolved tag) → a ∈ s.declaredAxes
  | .source inclusive patterns block s, h => by
    rw [Statement.resolved] at h
    rw [Statement.declaredAxes]
    split at h
    · exact mem_declaredAxesOf_of_resolvedBlock h
    · cases h
  | .loop ranges block s, h => by
    simp only [Statement.resolved, declaredAxesOf, Statement.declaredAxes, List.append_nil] at h ⊢
    exact mem_declaredAxesOf_of_resolvedBlock h
  | .vary variations block s, h => by
    simp only [Statement.resolved, declaredAxesOf, Statement.declaredAxes, List.append_nil] at h ⊢
    exact mem_declaredAxesOf_of_resolvedBlock h
  | .region name predicate axes block s, h => by
    simp only [Statement.resolved, declaredAxesOf, Statement.declaredAxes, List.append_nil] at h ⊢
    rcases List.mem_append.mp h with h | h
    · exact List.mem_append_left _ h
    · exact List.mem_append_right _ (mem_declaredAxesOf_of_resolvedBlock h)
  | .collect c s, h => by simpa [Statement.resolved, declaredAxesOf] using h
  | .define target e s, h => by simpa [Statement.resolved, declaredAxesOf] using h
  | .function target parameters body s, h => by simpa [Statement.resolved, declaredAxesOf] using h
  | .result e s, h => by simpa [Statement.resolved, declaredAxesOf] using h

/-- Resolved blocks declare no other axes. -/
theorem mem_declaredAxesOf_of_resolvedBlock {a : Axis Expr} : ∀ {block : List Statement},
    a ∈ declaredAxesOf (resolvedBlock tag block) → a ∈ declaredAxesOf block
  | [], h => nomatch h
  | s :: rest, h => by
    rw [resolvedBlock, declaredAxesOf_append] at h
    rw [declaredAxesOf]
    rcases List.mem_append.mp h with h | h
    · exact List.mem_append_left _ (Statement.mem_declaredAxes_of_resolved h)
    · exact List.mem_append_right _ (mem_declaredAxesOf_of_resolvedBlock h)

end

/-! ### What is done with a record -/

variable {call : Caller}

theorem runBlock_singleton (path : Path) (ns : Namespace) (scope : Scope) (s : Statement) :
    runBlock call tag path ns scope [s] = s.run call tag path ns scope := by
  simp only [runBlock]
  exact Trace.bind_pure _

theorem fitsBlock_append {block rest : List Statement} {ns : Namespace} :
    FitsBlock most (block ++ rest) ns ↔ FitsBlock most block ns ∧ FitsBlock most rest ns := by
  induction block with
  | nil => simp [FitsBlock]
  | cons s more ih => simp only [List.cons_append, FitsBlock, ih, and_assoc]

theorem fitsBlock_singleton {s : Statement} {ns : Namespace} : FitsBlock most [s] ns ↔ s.Fits most ns := by
  simp [FitsBlock]

namespace Namespace

variable {small big : Namespace} {scope : Scope}

theorem Under.entry (h : small.Under big) {n : Name} {c : Node} (hc : Dict.get? small n.text = some c) :
    ∃ d, small.entry n = .ok c ∧ big.entry n = .ok d ∧ c.Under d := by
  obtain ⟨d, hd, under⟩ := h _ c hc
  exact ⟨d, entry_eq hc, entry_eq hd, under⟩

/-- A record reaches the namespace of a region in both, or in none of them. -/
theorem Under.reach (h : small.Under big) {P : Namespace → Prop} {path : Path} {name : Name} {axes : Nat} {c : Node}
    (hc : Dict.get? small name.text = some c) (hopens : c.Opens most (Node.Holds P) axes) :
    (∃ stop, small.reach call scope path name axes = .error stop ∧ big.reach call scope path name axes = .error stop) ∨
      ∃ below part whole, small.reach call scope path name axes = .ok (below, part) ∧
        big.reach call scope path name axes = .ok (below, whole) ∧ part.Under whole ∧ P part := by
  obtain ⟨d, mine, yours, under⟩ := h.entry hc
  rcases under.descend hopens call scope name.span (path ++ [.field name.text]) with
    ⟨stop, hs, hb⟩ | ⟨below, e, f, hs, hb, inner, holds⟩
  · refine .inl ⟨stop, ?_, ?_⟩
    · simp only [Namespace.reach, mine, hs, bind, Except.bind]
    · simp only [Namespace.reach, yours, hb, bind, Except.bind]
  · obtain ⟨own, part, whole, rfl, rfl, inside, hpart⟩ := inner.of_holds holds
    refine .inr ⟨below, part, whole, ?_, ?_, inside, hpart⟩
    · simp only [Namespace.reach, mine, hs, bind, Except.bind]
      rfl
    · simp only [Namespace.reach, yours, hb, bind, Except.bind]
      rfl

/-- A variation begins in both, in the same scope, or in none of them. -/
theorem Under.vary (h : small.Under big) {P : Namespace → Prop} {v : Variation Expr} {c : Node}
    (hc : Dict.get? small v.name.text = some c) (holds : c.Holds P) :
    (∃ stop, small.vary call scope v = .error stop ∧ big.vary call scope v = .error stop) ∨
      ∃ inner part whole, small.vary call scope v = .ok (inner, part) ∧ big.vary call scope v = .ok (inner, whole) ∧
        part.Under whole ∧ P part := by
  obtain ⟨d, mine, yours, under⟩ := h.entry hc
  obtain ⟨own, part, whole, rfl, rfl, inside, hpart⟩ := under.of_holds holds
  cases hinner : variationScope call scope scope.child v.assignments with
  | error stop =>
    refine .inl ⟨stop, ?_, ?_⟩
    · simp only [Namespace.vary, hinner, bind, Except.bind]
    · simp only [Namespace.vary, hinner, bind, Except.bind]
  | ok inner =>
    refine .inr ⟨inner, part, whole, ?_, ?_, inside, hpart⟩
    · simp only [Namespace.vary, hinner, mine, bind, Except.bind]
      rfl
    · simp only [Namespace.vary, hinner, yours, bind, Except.bind]
      rfl

end Namespace

theorem runVariations_under {small big : Namespace} (h : small.Under big) {P : Namespace → Prop} {path : Path}
    {scope : Scope} {block block' : Path → Namespace → Scope → Trace Scope}
    (hblock : ∀ below part whole inner, part.Under whole → P part →
      block below whole inner = block' below part inner) : ∀ {vs : List (Variation Expr)},
      (∀ v ∈ vs, ∃ node, Dict.get? small v.name.text = some node ∧ node.Holds P) →
        runVariations call block path big scope vs = runVariations call block' path small scope vs
  | [], _ => rfl
  | v :: rest, hv => by
    obtain ⟨⟨node, hnode, holds⟩, others⟩ := List.forall_mem_cons.mp hv
    rw [runVariations_cons, runVariations_cons]
    rcases h.vary hnode holds with ⟨stop, mine, yours⟩ | ⟨inner, part, whole, mine, yours, inside, hpart⟩
    · rw [mine, yours]
      rfl
    · rw [mine, yours, Trace.ofOutcome_bind_ok rfl, Trace.ofOutcome_bind_ok rfl, hblock _ part whole inner inside hpart,
        runVariations_under h hblock others]

mutual

/-- What a statement does with a record, the resolved statements do on a part of the tree that has a place for them. -/
theorem Statement.run_resolved : ∀ {s : Statement} {path : Path} {small big : Namespace} {scope : Scope},
    small.Under big → FitsBlock most (s.resolved tag) small →
      s.run call tag path big scope = runBlock call tag path small scope (s.resolved tag)
  | .collect c s, path, small, big, scope, h, fits => by
    rw [Statement.resolved, fitsBlock_singleton, Statement.Fits] at fits
    obtain ⟨node, hnode, -⟩ := fits
    obtain ⟨other, mine, yours, under⟩ := h.entry hnode
    have same : c.fillOf call path big scope = c.fillOf call path small scope := by
      simp only [Collector.fillOf, mine, yours, bind, Except.bind, under.target]
    rw [Statement.resolved, runBlock_singleton, Statement.run, Statement.run, same]
  | .region n predicate axes block s, path, small, big, scope, h, fits => by
    rw [Statement.resolved, fitsBlock_singleton, Statement.Fits] at fits
    obtain ⟨node, hnode, hopens⟩ := fits
    rw [Statement.resolved, runBlock_singleton, run_region_eq, run_region_eq]
    refine congrArg _ (funext fun taken => ?_)
    split
    · rcases h.reach hnode hopens with ⟨stop, hs, hb⟩ | ⟨below, part, whole, hs, hb, inside, hpart⟩
      · rw [hs, hb]
        rfl
      · rw [hs, hb, Trace.ofOutcome_bind_ok rfl, Trace.ofOutcome_bind_ok rfl, runBlock_resolved inside hpart]
    · rfl
  | .vary variations block s, path, small, big, scope, h, fits => by
    rw [Statement.resolved, fitsBlock_singleton, Statement.Fits] at fits
    have inner : ∀ below part whole inner, Namespace.Under part whole → FitsBlock most (resolvedBlock tag block) part →
        runBlock call tag below whole inner block = runBlock call tag below part inner (resolvedBlock tag block) :=
      fun _ _ _ _ inside hpart => runBlock_resolved inside hpart
    rw [Statement.resolved, runBlock_singleton, Statement.run, Statement.run]
    exact congrArg (· >>= fun _ => pure scope) (runVariations_under h inner fits)
  | .loop ranges block s, path, small, big, scope, h, fits => by
    rw [Statement.resolved, fitsBlock_singleton, Statement.Fits] at fits
    have same : (fun inner => runBlock call tag path big inner block) =
        fun inner => runBlock call tag path small inner (resolvedBlock tag block) :=
      funext fun inner => runBlock_resolved h fits
    rw [Statement.resolved, runBlock_singleton, Statement.run, Statement.run, same]
  | .source inclusive patterns block s, path, small, big, scope, h, fits => by
    rw [Statement.resolved] at fits ⊢
    rw [Statement.run]
    split
    · next taken =>
      rw [if_pos taken] at fits
      exact runBlock_resolved h fits
    · rfl
  | .define target e s, path, small, big, scope, _, _ => by
    rw [Statement.resolved, runBlock_singleton, Statement.run, Statement.run]
  | .function target parameters body s, path, small, big, scope, _, _ => by
    rw [Statement.resolved, runBlock_singleton, Statement.run, Statement.run]
  | .result e s, path, small, big, scope, _, _ => by
    rw [Statement.resolved, runBlock_singleton, Statement.run, Statement.run]

/-- So does a resolved block. -/
theorem runBlock_resolved : ∀ {block : List Statement} {path : Path} {small big : Namespace} {scope : Scope},
    small.Under big → FitsBlock most (resolvedBlock tag block) small →
      runBlock call tag path big scope block = runBlock call tag path small scope (resolvedBlock tag block)
  | [], _, _, _, _, _, _ => rfl
  | s :: rest, path, small, big, scope, h, fits => by
    rw [resolvedBlock] at fits ⊢
    obtain ⟨first, others⟩ := fitsBlock_append.mp fits
    rw [runBlock, runBlock_append, Statement.run_resolved h first]
    exact congrArg _ (funext fun scope => runBlock_resolved h others)

end

end RecordStats
