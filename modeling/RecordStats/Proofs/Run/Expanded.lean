import RecordStats.Proofs.Evaluation.Builtin
import RecordStats.Proofs.Likeness.Run
import RecordStats.Proofs.Likeness.Value
import RecordStats.Proofs.Likeness.Unplaced
import RecordStats.Proofs.Likeness.WellFormed
import RecordStats.Proofs.Run.Faultless

/-! A varied block as regions. A program whose variations bind at most one name each may be written with one region for
    each variation instead; what it does with records is the same. The two differ in where the assignments are
    evaluated and when the tree is looked at; that the tree has a place for everything keeps the latter unseen. -/

namespace RecordStats

/-! ### The regions of a varied block -/

/-- The assignment as a statement. -/
def Binding.asDefinition (b : Binding Expr) : Statement := .define b.target b.expression b.span

/-- The region that stands for a variation: its assignments, and then the block. -/
def Variation.asRegion (block : List Statement) (v : Variation Expr) : Statement :=
  .region v.name none [] (v.assignments.map Binding.asDefinition ++ block) v.span

namespace Statement

/-- One varied block of the first block, at any depth, is written as regions in the second. -/
inductive Expands : List Statement → List Statement → Prop where
  | here {variations : List (Variation Expr)} (few : ∀ v ∈ variations, v.assignments.length ≤ 1)
      (block : List Statement) (s : Span) (rest : List Statement) :
      Expands (.vary variations block s :: rest) (variations.map (Variation.asRegion block) ++ rest)
  | later (s : Statement) {rest rest' : List Statement} (h : Expands rest rest') : Expands (s :: rest) (s :: rest')
  | loop (ranges : List (Binding Expr)) {block block' : List Statement} (h : Expands block block') (s : Span)
      (rest : List Statement) : Expands (.loop ranges block s :: rest) (.loop ranges block' s :: rest)
  | vary (variations : List (Variation Expr)) {block block' : List Statement} (h : Expands block block') (s : Span)
      (rest : List Statement) : Expands (.vary variations block s :: rest) (.vary variations block' s :: rest)
  | region (name : Name) (predicate : Option Expr) (axes : List (Axis Expr)) {block block' : List Statement}
      (h : Expands block block') (s : Span) (rest : List Statement) :
      Expands (.region name predicate axes block s :: rest) (.region name predicate axes block' s :: rest)
  | source (inclusive : Bool) (patterns : List Pattern) {block block' : List Statement} (h : Expands block block')
      (s : Span) (rest : List Statement) :
      Expands (.source inclusive patterns block s :: rest) (.source inclusive patterns block' s :: rest)

end Statement

/-- Up to places, the second program is the first with one varied block written as regions. -/
def Program.Expands (p q : Program) : Prop :=
  ∃ block, Statement.Expands p.block block ∧ Statement.unplacedBlock block = Statement.unplacedBlock q.block

namespace Likeness

/-- Evaluations of programs that may be written at different places; internal errors do not count. -/
def displaced : Likeness where
  span := fun _ _ => True
  hosts := True
  lenient := True
  named := fun _ => True
  same := False
  eq_of_span := False.elim
  apart := fun _ => id

variable {L : Likeness} {V : String → Prop} {most : Nat}

theorem Defines.of_unplaced (anywhere : ∀ s t, L.span s t) (visible : ∀ x, V x) {block : List Statement} :
    ∀ {bs : List (Binding Expr)} {inner : List Statement}, (∀ b ∈ bs, b.expression.WellFormed most) →
      Statement.unplacedBlock (bs.map Binding.asDefinition ++ block) = Statement.unplacedBlock inner →
        ∃ starts block', inner = starts ++ block' ∧ List.Forall₂ (L.Defines V) bs starts ∧
          Statement.unplacedBlock block = Statement.unplacedBlock block'
  | [], inner, _, h => ⟨[], inner, rfl, .nil, h⟩
  | b :: bs, [], _, h => nomatch h
  | b :: bs, t :: inner, wf, h => by
    obtain ⟨here, later⟩ := List.forall_mem_cons.mp wf
    obtain ⟨first, h⟩ := List.cons.inj h
    obtain ⟨starts, block', rfl, starts_like, hblock⟩ := Defines.of_unplaced anywhere visible later h
    cases t <;> simp only [Binding.asDefinition, Statement.unplaced, reduceCtorEq, Statement.define.injEq] at first
    obtain ⟨target, value, -⟩ := first
    refine ⟨_ :: starts, block', rfl, .cons ?_ starts_like, hblock⟩
    exact .define (.of_unplaced anywhere target) (.of_unplaced anywhere visible here value)

/-- The regions of a varied block are like the block. -/
theorem BlockLike.of_regions (allowed : L.lenient) (anywhere : ∀ s t, L.span s t) (visible : ∀ x, V x)
    {block rest : List Statement} (wfBlock : Statement.WellFormedBlock most block)
    (wfRest : Statement.WellFormedBlock most rest) (s : Span) :
    ∀ {vs : List (Variation Expr)} {block' : List Statement}, vs ≠ [] → (∀ v ∈ vs, v.assignments.length ≤ 1) →
      (∀ v ∈ vs, ∀ b ∈ v.assignments, b.expression.WellFormed most) →
      Statement.unplacedBlock (vs.map (Variation.asRegion block) ++ rest) = Statement.unplacedBlock block' →
        L.BlockLike V (.vary vs block s :: rest) block'
  | [], _, any, _, _, _ => (any rfl).elim
  | _ :: _, [], _, _, _, h => nomatch h
  | v :: vs, t :: block', _, few, wf, h => by
    obtain ⟨fewHere, fewLater⟩ := List.forall_mem_cons.mp few
    obtain ⟨wfHere, wfLater⟩ := List.forall_mem_cons.mp wf
    obtain ⟨first, more⟩ := List.cons.inj h
    cases t <;> simp only [Variation.asRegion, Statement.unplaced, reduceCtorEq, Statement.region.injEq] at first
    obtain ⟨name, predicate, axes, hinner, -⟩ := first
    cases Option.map_eq_none_iff.mp predicate.symm
    cases List.map_eq_nil_iff.mp axes.symm
    obtain ⟨starts, inner, rfl, assignments, hinner⟩ := Defines.of_unplaced anywhere visible wfHere hinner
    have name : L.NameLike v.name _ := .of_unplaced anywhere name
    have inner := BlockLike.of_unplaced anywhere visible wfBlock hinner
    cases vs with
    | nil => exact .lastRegion allowed fewHere name assignments inner (.of_unplaced anywhere visible wfRest more)
    | cons w vs =>
      refine .nextRegion allowed fewHere name assignments inner ?_
      exact BlockLike.of_regions allowed anywhere visible wfBlock wfRest s (List.cons_ne_nil _ _) fewLater wfLater more

/-- A program is like what it expands to. -/
theorem BlockLike.of_expands (allowed : L.lenient) (anywhere : ∀ s t, L.span s t) (visible : ∀ x, V x)
    {block expanded : List Statement} (h : Statement.Expands block expanded) :
    ∀ {block' : List Statement}, Statement.WellFormedBlock most block →
      Statement.unplacedBlock expanded = Statement.unplacedBlock block' → L.BlockLike V block block' := by
  induction h with
  | here few block s rest =>
    intro block' ⟨⟨any, wf, wfBlock⟩, wfRest⟩ h
    exact .of_regions allowed anywhere visible wfBlock wfRest s any few wf h
  | later s _ ih =>
    intro block' ⟨wf, wfs⟩ h
    obtain ⟨t, rest', rfl, first, more⟩ := Statement.exists_cons_of_unplacedBlock h
    exact .cons_of_unplaced anywhere visible wf first (ih wfs more)
  | loop ranges _ s rest ih =>
    intro block' ⟨⟨_, wf, wfBlock⟩, wfs⟩ h
    obtain ⟨t, rest', rfl, first, more⟩ := Statement.exists_cons_of_unplacedBlock h
    exact .loop_of_unplaced anywhere visible (ih wfBlock) (.of_unplaced anywhere visible wfs more) wf first
  | vary variations _ s rest ih =>
    intro block' ⟨⟨_, wf, wfBlock⟩, wfs⟩ h
    obtain ⟨t, rest', rfl, first, more⟩ := Statement.exists_cons_of_unplacedBlock h
    exact .vary_of_unplaced anywhere visible (ih wfBlock) (.of_unplaced anywhere visible wfs more) wf first
  | region name predicate axes _ s rest ih =>
    intro block' ⟨⟨wfp, wfa, wfBlock⟩, wfs⟩ h
    obtain ⟨t, rest', rfl, first, more⟩ := Statement.exists_cons_of_unplacedBlock h
    exact .region_of_unplaced anywhere visible (ih wfBlock) (.of_unplaced anywhere visible wfs more) wfp wfa first
  | source inclusive patterns _ s rest ih =>
    intro block' ⟨⟨_, wfBlock⟩, wfs⟩ h
    obtain ⟨t, rest', rfl, first, more⟩ := Statement.exists_cons_of_unplacedBlock h
    exact .source_of_unplaced anywhere (ih wfBlock) (.of_unplaced anywhere visible wfs more) first

theorem ValueLike.displaced_refl {v : Value} (h : v.Sound) : displaced.ValueLike v v := by
  have made : v.Made (fun _ => True) True := by
    induction h with
    | null => exact .null
    | boolean b => exact .boolean b
    | integer n => exact .integer n
    | float x => exact .float x
    | string s => exact .string s
    | list _ ih => exact .list ih
    | tuple _ ih => exact .tuple ih
    | record _ ih => exact .record ih
    | closure _ _ _ bindings standing =>
      refine .closure trivial fun x v hv => ?_
      rw [Env.get?] at hv
      split at hv
      · next found =>
        cases hv
        exact bindings _ (Dict.mem_of_get? found)
      · exact standing _ (Dict.mem_of_get? hv)
    | builtin b => exact .builtin b
    | host number => exact .host number trivial
    | method _ ih => exact .method ih
  refine .of_made (fun l _ => ⟨List.forall₂_same.mpr fun _ _ => ⟨rfl, trivial⟩, ?_⟩) id made
  exact BodyLike.of_madeOf (fun _ _ => trivial) (fun _ => id) (Pieces.body_named fun _ _ => trivial)

theorem ValueLike.displaced_rel {d : Dict Value} (h : Value.SoundFields d) (x : String) :
    Option.Rel displaced.ValueLike (d.get? x) (d.get? x) := by
  cases hx : d.get? x with
  | none => exact .none
  | some v => exact .some (.displaced_refl (h.get? hx))

end Likeness

/-! ### Records of both programs -/

/-- The values are the same, up to places in the texts of functions. -/
abbrev Value.Displaced : Value → Value → Prop := Value.Same (fun l m => l.unplaced = m.unplaced) fun _ => True

/-- The same symbols, or the same failure, up to places. -/
inductive Outcome.Displaced : Outcome Symbols → Outcome Symbols → Prop where
  | ok {symbols symbols' : Symbols} (same : PairsLike Value.Displaced symbols symbols') :
      Displaced (.ok symbols) (.ok symbols')
  | failure (cause : Cause) (s t : Option Span) :
      Displaced (.error (.failure ⟨cause, s⟩)) (.error (.failure ⟨cause, t⟩))
  | tooDeep : Displaced (.error .tooDeep) (.error .tooDeep)

namespace Run

/-- The results of records, each with its tag, and the run after them. -/
def singles (run : Run) (call : Caller) :
    List (Option String × List (String × Value)) → List (Outcome Symbols) × Run
  | [] => ([], run)
  | r :: rest =>
    let (symbols, run) := run.single call r.1 r.2
    let (others, run) := run.singles call rest
    (symbols :: others, run)

variable {text : String} {standing : Dict Value} {run run' a b : Run} {call : Caller} {most : Nat}

theorem singles_cons (run : Run) (call : Caller) (r : Option String × List (String × Value))
    (rest : List (Option String × List (String × Value))) :
    run.singles call (r :: rest) =
      ((run.single call r.1 r.2).1 :: ((run.single call r.1 r.2).2.singles call rest).1,
        ((run.single call r.1 r.2).2.singles call rest).2) := rfl

/-- In any state of a well-formed run a record meets no internal error. -/
theorem Alike.trace_faultless (ha : Alike a run) (wf : run.program.WellFormed most)
    (htree : run.program.tree = .ok run.tree) (hs : Value.SoundFields run.standing) (hcall : Caller.Sound call)
    (tag : Option String) {record : List (String × Value)} (hr : Value.SoundFields record) :
    Faultless Scope.Sound (a.trace call tag record).outcome := by
  rw [ha.performs]
  exact runBlock_faultless hcall [] wf (Program.fits_tree wf htree) (.root hs hr)

/-- Two runs of programs that are alike up to places, with calls that are alike and meet no internal error. -/
structure Counterparts (most : Nat) (run run' : Run) (call : Caller) : Prop where
  blocks : Likeness.displaced.BlockLike (fun _ => True) run.program.block run'.program.block
  wellFormed : run.program.WellFormed most
  tree : run.program.tree = .ok run.tree
  tree' : run'.program.tree = .ok run'.tree
  standing : run'.standing = run.standing
  sound : Value.SoundFields run.standing
  caller_sound : Caller.Sound call
  caller_like : Likeness.displaced.CallerLike call call

/-- States of two runs with trees that are alike. -/
structure Beside (run run' a b : Run) : Prop where
  left : Alike a run
  right : Alike b run'
  placed : Node.Placed [] (.namespace [] a.tree)
  trees : Likeness.displaced.NamespaceLike (fun _ => True) a.tree b.tree

theorem not_faulty {α : Type} {P : α → Prop} {o : Outcome α} (h : Faultless P o) : ¬o.Faulty := by
  rintro ⟨cause, s, ho, internal⟩
  exact h.not_internal ho internal

open Likeness in
theorem displaced_of_endsLike {x y : Outcome Symbols}
    (h : displaced.EndsLike True (displaced.SymbolsLike fun _ => True) x y) (hx : ¬x.Faulty) (hy : ¬y.Faulty) :
    x.Displaced y := by
  cases h with
  | ok h =>
    obtain ⟨sorted, sorted', seen⟩ := h
    have alike : displaced.FieldsLike _ _ := .of_sorted sorted sorted' fun x => seen x trivial
    refine .ok (alike.imp fun _ _ ⟨name, same⟩ => ⟨name, same.same (fun V l m parameters body => ?_) fun _ => id⟩)
    rw [Lambda.unplaced, Lambda.unplaced, NameLike.all_unplaced_eq parameters, body.unplaced_eq]
  | failure => exact .failure _ _ _
  | tooDeep => exact .tooDeep
  | fault _ faulty => exact (faulty.elim hx hy).elim

namespace Counterparts

variable (h : Counterparts most run run' call)

include h

theorem wellFormed' : run'.program.WellFormed most := h.blocks.wellFormed h.wellFormed

/-- One record in both. -/
theorem single (hab : Beside run run' a b) (tag : Option String) {record : List (String × Value)}
    (hr : Value.SoundFields record) :
    (a.single call tag record).1.Displaced (b.single call tag record).1 ∧
      Beside run run' (a.single call tag record).2 (b.single call tag record).2 := by
  have mine := hab.left.trace_faultless h.wellFormed h.tree h.sound h.caller_sound tag hr
  have yours := hab.right.trace_faultless h.wellFormed' h.tree' (h.standing ▸ h.sound) h.caller_sound tag hr
  have standing : b.standing = a.standing := by rw [hab.right.standing, h.standing, hab.left.standing]
  have blocks : Likeness.displaced.BlockLike (fun _ => True) a.program.block b.program.block := by
    rw [hab.left.program, hab.right.program]
    exact h.blocks
  have begin : Likeness.displaced.ScopeLike (fun _ => True) (Scope.root a.standing record)
      (Scope.root b.standing record) := by
    rw [standing, hab.left.standing]
    refine .root (fun _ => id) False.elim (fun x _ => ?_) fun x _ => ?_
    · exact Likeness.ValueLike.displaced_rel (.ofPairs hr) x
    · exact Likeness.ValueLike.displaced_rel h.sound x
  have traces := Likeness.trace_like h.caller_like tag blocks hab.trees begin
  -- Neither program has a fault, so the traces are alike to their ends.
  have fills : (a.trace call tag record).fills = (b.trace call tag record).fills :=
    traces.fills.resolve_right fun fault => fault.2.elim (not_faulty mine) (not_faulty yours)
  have placed : Node.Placed [] (.namespace [] b.tree) := (Likeness.NodeLike.of_children [] hab.trees).placed hab.placed
  refine ⟨displaced_of_endsLike (Likeness.single_like traces) ?_ ?_, ?_⟩
  · rw [single_outcome]
    exact not_faulty (mine.map fun _ hscope => hscope.dropFunctions)
  · rw [single_outcome]
    exact not_faulty (yours.map fun _ hscope => hscope.dropFunctions)
  · have trees := Likeness.fillAll_like hab.trees (a.trace call tag record).fills
    refine ⟨(single_alike a record).trans hab.left, (single_alike b record).trans hab.right, ?_, ?_⟩
    · rw [← Node.placed_emptied, Node.emptied, (single_alike a record).tree, ← Node.emptied, Node.placed_emptied]
      exact hab.placed
    · rw [single_tree hab.placed, single_tree placed, ← fills]
      exact trees

/-- Any records in both. -/
theorem singles {records : List (Option String × List (String × Value))} (hab : Beside run run' a b)
    (hr : ∀ r ∈ records, Value.SoundFields r.2) :
    List.Forall₂ Outcome.Displaced (a.singles call records).1 (b.singles call records).1 ∧
      Beside run run' (a.singles call records).2 (b.singles call records).2 := by
  induction records generalizing a b with
  | nil => exact ⟨.nil, hab⟩
  | cons r rest ih =>
    obtain ⟨here, later⟩ := List.forall_mem_cons.mp hr
    obtain ⟨first, next⟩ := h.single hab r.1 here
    obtain ⟨others, last⟩ := ih next later
    rw [singles_cons, singles_cons]
    exact ⟨.cons first others, last⟩

end Counterparts

/-- A program that is the same up to places declares a tree as well, and its new run stands beside that of the first. -/
theorem exists_counterpart {p q : Program} {tree : Namespace} (wf : p.WellFormed most) (htree : p.tree = .ok tree)
    (placed : Node.Placed [] (.namespace [] tree)) (hq : Statement.unplacedBlock p.block = Statement.unplacedBlock q.block)
    (hstanding : Value.SoundFields standing) (sound : Caller.Sound call) (like : Likeness.displaced.CallerLike call call) :
    ∃ other, q.tree = .ok other ∧ Counterparts most ⟨p, standing, tree⟩ ⟨q, standing, other⟩ call ∧
      Beside ⟨p, standing, tree⟩ ⟨q, standing, other⟩ ⟨p, standing, tree⟩ ⟨q, standing, other⟩ := by
  have blocks : Likeness.displaced.BlockLike (fun _ => True) p.block q.block :=
    .of_unplaced (fun _ _ => trivial) (fun _ => trivial) wf hq
  obtain ⟨other, hother, trees⟩ := Likeness.tree_like blocks htree
  exact ⟨other, hother, ⟨blocks, wf, htree, hother, rfl, hstanding, sound, like⟩, .refl _, .refl _, placed, trees⟩

/-! ### One variation among others -/

/-- A variation alone fills what stands below its label. -/
theorem fills_variation {tag : Option String} {path : Path} {ns : Namespace} {scope : Scope} {v : Variation Expr}
    {block : List Statement} {s : Span} {f : Fill}
    (h : f ∈ (Statement.run call tag path ns scope (.vary [v] block s)).fills) :
    path ++ [.field v.name.text] <+: f.path := by
  rw [Statement.run, Trace.fills_bind_pure, runVariations] at h
  obtain ⟨inner, -, h⟩ := Trace.mem_fills_ofOutcome_bind h
  obtain ⟨node, -, h⟩ := Trace.mem_fills_ofOutcome_bind h
  obtain ⟨children, -, h⟩ := Trace.mem_fills_ofOutcome_bind h
  rw [runVariations, Trace.fills_bind_pure, (executeBlock_performs inner block children).below] at h
  obtain ⟨g, -, rfl⟩ := List.mem_map.mp h
  exact List.prefix_append _ _

theorem run_vary_append (tag : Option String) (path : Path) (ns : Namespace) (scope : Scope)
    (earlier later : List (Variation Expr)) (block : List Statement) (s : Span) :
    Statement.run call tag path ns scope (.vary (earlier ++ later) block s) =
      Statement.run call tag path ns scope (.vary earlier block s) >>= fun scope =>
        Statement.run call tag path ns scope (.vary later block s) := by
  simp only [Statement.run, runVariations_append, Trace.bind_assoc]
  rfl

/-! ### The expanded program -/

/-- A varied block is a sequence of regions. A program that is written with regions in place of a varied block, whose
    variations bind at most one name each, declares a tree as well. On every sequence of records both programs give the
    same symbols, or fail with the same error on the same records, and their trees stay the same up to places. Within
    a varied block each variation does what it would do alone, and fills what stands below its own label. -/
theorem expands_alike (hs : Text.Storable text) (h : ofText text standing = .ok run) {q : Program}
    (hq : run.program.Expands q) (hstanding : Value.SoundFields standing) {host : Host} (sound : host.Sound)
    (like : Likeness.displaced.HostLike host host) (depth : Nat) :
    ∃ tree, q.tree = .ok tree ∧
      (∀ text', Program.ofText text' = .ok q → ofText text' standing = .ok ⟨q, standing, tree⟩) ∧
      (∀ records : List (Option String × List (String × Value)), (∀ r ∈ records, Value.SoundFields r.2) →
        List.Forall₂ Outcome.Displaced (run.singles (host.caller depth) records).1
            (singles ⟨q, standing, tree⟩ (host.caller depth) records).1 ∧
          Node.unplacedChildren (run.singles (host.caller depth) records).2.tree =
            Node.unplacedChildren (singles ⟨q, standing, tree⟩ (host.caller depth) records).2.tree) ∧
      ∀ tag path ns scope earlier v later block s,
        Statement.run (host.caller depth) tag path ns scope (.vary (earlier ++ v :: later) block s) =
            (Statement.run (host.caller depth) tag path ns scope (.vary earlier block s) >>= fun scope =>
              Statement.run (host.caller depth) tag path ns scope (.vary [v] block s) >>= fun scope =>
                Statement.run (host.caller depth) tag path ns scope (.vary later block s)) ∧
          ∀ f ∈ (Statement.run (host.caller depth) tag path ns scope (.vary [v] block s)).fills,
            path ++ [.field v.name.text] <+: f.path := by
  obtain ⟨hprogram, htree, rfl⟩ := ofText_eq_ok h
  have wf := Program.wellFormed_of_ofText hprogram
  obtain ⟨expanded, hexpands, hplaces⟩ := hq
  have blocks : Likeness.displaced.BlockLike (fun _ => True) run.program.block q.block :=
    .of_expands trivial (fun _ _ => trivial) (fun _ => trivial) hexpands wf hplaces
  obtain ⟨tree, hq, trees⟩ := Likeness.tree_like blocks htree
  have counterparts : Counterparts _ run ⟨q, run.standing, tree⟩ (host.caller depth) :=
    ⟨blocks, wf, htree, hq, rfl, hstanding, sound.caller depth, like.caller depth⟩
  have new : Beside run ⟨q, run.standing, tree⟩ run ⟨q, run.standing, tree⟩ :=
    ⟨.refl run, .refl _, (Alike.refl run).placed hs h, trees⟩
  refine ⟨tree, hq, fun text' htext' => ?_, fun records hr => ?_, fun tag path ns scope earlier v later block s => ?_⟩
  · rw [ofText, htext']
    simp only [hq]
  · obtain ⟨results, last⟩ := counterparts.singles new hr
    exact ⟨results, Likeness.unplacedChildren_eq last.trees⟩
  · refine ⟨?_, fun f hf => fills_variation hf⟩
    rw [run_vary_append]
    exact congrArg _ (funext fun scope => run_vary_append tag path ns scope [v] later block s)

/-- A block of variations by at most one assignment each. -/
def isPlainlyVaried : List Statement → Bool
  | [.vary variations _ _] => variations.all fun v => decide (v.assignments.length ≤ 1)
  | _ => false

theorem expands_alike_variations :
    ∃ run q tree,
      ofText "vary 'up': s := 2 'down': s := 0.5 \x7b sum 'scaled' s * x \x7d" RecordStats.standing = .ok run ∧
      run.program.Expands q ∧ q.tree = .ok tree ∧
      Node.unplacedChildren (run.singles (Host.caller Host.none 1) [(none, [("x", .integer 3)]), (none, [])]).2.tree =
        Node.unplacedChildren (singles ⟨q, RecordStats.standing, tree⟩ (Host.caller Host.none 1)
          [(none, [("x", .integer 3)]), (none, [])]).2.tree := by
  have accepted : (ofText "vary 'up': s := 2 'down': s := 0.5 \x7b sum 'scaled' s * x \x7d"
      RecordStats.standing).toOption.any (fun run => isPlainlyVaried run.program.block) = true := by
    decide +kernel
  obtain ⟨run, h, hblock⟩ := exists_of_any accepted
  unfold isPlainlyVaried at hblock
  split at hblock
  · next variations block s heq =>
    have few : ∀ v ∈ variations, v.assignments.length ≤ 1 := fun v hv =>
      of_decide_eq_true (List.all_eq_true.mp hblock v hv)
    have expands : run.program.Expands ⟨variations.map (Variation.asRegion block) ++ [], run.program.span⟩ :=
      ⟨_, heq ▸ .here few block s [], rfl⟩
    obtain ⟨tree, htree, -, records, -⟩ := expands_alike (by decide) h expands standing_sound Host.none_sound
      (fun _ _ _ _ _ => .raise _) 1
    refine ⟨run, _, tree, h, expands, htree, (records _ ?_).2⟩
    refine List.forall_mem_cons.mpr ⟨List.forall_mem_singleton.mpr (.integer 3), ?_⟩
    exact List.forall_mem_singleton.mpr (List.forall_mem_nil _)
  · cases hblock

end Run
end RecordStats
