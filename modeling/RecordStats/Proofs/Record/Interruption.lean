import RecordStats.Proofs.Record.Effect

/-! Where a record fails. A failing record comes to one statement that cannot begin or cannot go on; all fills
    were made before that, by statements and turns that were completed, in the blocks around the failing
    statement from the outermost inwards. -/

namespace RecordStats

/-- The namespace of a region that a record reaches, and its path. -/
def Namespace.reach (call : Caller) (scope : Scope) (path : Path) (ns : Namespace) (name : Name) (axes : Nat) :
    Outcome (Path × Namespace) := do
  let node ← ns.entry name
  let (path, node) ← node.descend call scope name.span (path ++ [.field name.text]) axes
  return (path, ← node.children .regionNotNamespace name.span)

/-- The scope and the namespace of a variation's block. -/
def Namespace.vary (call : Caller) (scope : Scope) (ns : Namespace) (v : Variation Expr) :
    Outcome (Scope × Namespace) := do
  let inner ← variationScope call scope scope.child v.assignments
  let node ← ns.entry v.name
  return (inner, ← node.children .variationNotNamespace v.span)

/-- A statement that ends with a failure of its own, before any fill and before any statement inside it. -/
def Statement.Refuses (call : Caller) (path : Path) (ns : Namespace) (scope : Scope) (stop : Stop) : Statement → Prop
  | .define target e s => scope.bind call (.define target e s) = .error stop
  | .function target parameters body s => scope.bind call (.function target parameters body s) = .error stop
  | .result _ s => (Outcome.failAt .bareExpression s : Outcome Scope) = .error stop
  | .collect c _ => c.fillOf call path ns scope = .error stop
  | .loop ranges _ s => turns call scope ranges s = .error stop
  | .vary _ _ _ => False
  | .region name predicate axes _ _ =>
    takes call scope predicate = .error stop ∨
      takes call scope predicate = .ok true ∧ Namespace.reach call scope path ns name axes.length = .error stop
  | .source _ _ _ _ => False

variable {call : Caller} {tag : Option String}

/-- The statements of a block fail after some fills: those of the statements, turns and variations that were
    completed before, and no others. -/
inductive Interrupted (call : Caller) (tag : Option String) :
    Path → Namespace → Scope → List Statement → List Fill → Stop → Prop where
  /-- The first statement fails by itself. -/
  | here {path ns scope s rest stop} (refuses : s.Refuses call path ns scope stop) :
      Interrupted call tag path ns scope (s :: rest) [] stop
  /-- The first statement is completed, and a later one fails. -/
  | later {path ns scope s rest done next fills stop}
      (first : s.run call tag path ns scope = ⟨done, .ok next⟩)
      (others : Interrupted call tag path ns next rest fills stop) :
      Interrupted call tag path ns scope (s :: rest) (done ++ fills) stop
  /-- Some turns of a loop are completed, and the next one fails. -/
  | turn {path ns scope ranges block s rest earlier row remaining done fills stop}
      (begun : turns call scope ranges s = .ok (earlier ++ row :: remaining))
      (before : runTurns (fun inner => runBlock call tag path ns inner block) scope earlier = ⟨done, .ok ()⟩)
      (inside : Interrupted call tag path ns (scope.child.defineAll row) block fills stop) :
      Interrupted call tag path ns scope (.loop ranges block s :: rest) (done ++ fills) stop
  /-- Some variations are completed, and the next one cannot begin. -/
  | variation {path ns scope earlier v remaining block s rest done stop}
      (before : runVariations call (fun path ns inner => runBlock call tag path ns inner block) path ns scope earlier =
        ⟨done, .ok ()⟩)
      (refused : ns.vary call scope v = .error stop) :
      Interrupted call tag path ns scope (.vary (earlier ++ v :: remaining) block s :: rest) done stop
  /-- Some variations are completed, and the next one fails. -/
  | varied {path ns scope earlier v remaining block s rest inner children done fills stop}
      (before : runVariations call (fun path ns inner => runBlock call tag path ns inner block) path ns scope earlier =
        ⟨done, .ok ()⟩)
      (begun : ns.vary call scope v = .ok (inner, children))
      (inside : Interrupted call tag (path ++ [.field v.name.text]) children inner block fills stop) :
      Interrupted call tag path ns scope (.vary (earlier ++ v :: remaining) block s :: rest) (done ++ fills) stop
  /-- A statement of a region's block fails. -/
  | region {path ns scope name predicate axes block s rest below children fills stop}
      (taken : takes call scope predicate = .ok true)
      (begun : Namespace.reach call scope path ns name axes.length = .ok (below, children))
      (inside : Interrupted call tag below children scope.child block fills stop) :
      Interrupted call tag path ns scope (.region name predicate axes block s :: rest) fills stop
  /-- A statement of a source's block fails. -/
  | source {path ns scope inclusive patterns block s rest fills stop}
      (taken : acceptsTag inclusive patterns tag = true)
      (inside : Interrupted call tag path ns scope block fills stop) :
      Interrupted call tag path ns scope (.source inclusive patterns block s :: rest) fills stop

/-! ### Traces that end with a failure -/

namespace Trace

variable {α β : Type}

theorem outcome_bind_error {t : Trace α} {next : α → Trace β} {stop : Stop}
    (h : (t >>= next).outcome = .error stop) :
    (t.outcome = .error stop ∧ t >>= next = ⟨t.fills, .error stop⟩) ∨
      ∃ a, t.outcome = .ok a ∧ (next a).outcome = .error stop ∧ (t >>= next).fills = t.fills ++ (next a).fills := by
  cases ht : t.outcome with
  | error other =>
    rw [bind_error ht] at h
    cases h
    exact .inl ⟨rfl, bind_error ht next⟩
  | ok a =>
    rw [bind_ok ht] at h
    exact .inr ⟨a, rfl, h, by rw [bind_ok ht]⟩

theorem ofOutcome_bind_error_cases {o : Outcome α} {next : α → Trace β} {stop : Stop}
    (h : (ofOutcome o >>= next).outcome = .error stop) :
    (o = .error stop ∧ (ofOutcome o >>= next).fills = []) ∨
      ∃ a, o = .ok a ∧ (next a).outcome = .error stop ∧ (ofOutcome o >>= next).fills = (next a).fills := by
  cases o with
  | error other =>
    rw [ofOutcome_bind_error rfl] at h ⊢
    cases h
    exact .inl ⟨rfl, rfl⟩
  | ok a =>
    rw [ofOutcome_bind_ok rfl] at h ⊢
    exact .inr ⟨a, rfl, h, rfl⟩

/-- What follows a step without fills and failures does not change where it fails. -/
theorem outcome_bind_pure {t : Trace α} {b : β} {stop : Stop} (h : (t >>= fun _ => pure b).outcome = .error stop) :
    t.outcome = .error stop ∧ (t >>= fun _ => pure b).fills = t.fills := by
  rcases outcome_bind_error h with ⟨ht, heq⟩ | ⟨a, -, hpure, -⟩
  · exact ⟨ht, by rw [heq]⟩
  · cases hpure

end Trace

/-- A loop that fails has completed some turns and fails in the next one. -/
theorem runTurns_error {block : Scope → Trace Scope} {scope : Scope} {stop : Stop} :
    ∀ {rows : List (List (String × Value))}, (runTurns block scope rows).outcome = .error stop →
      ∃ earlier row remaining done, rows = earlier ++ row :: remaining ∧
        runTurns block scope earlier = ⟨done, .ok ()⟩ ∧ (block (scope.child.defineAll row)).outcome = .error stop ∧
        (runTurns block scope rows).fills = done ++ (block (scope.child.defineAll row)).fills
  | [], h => by cases h
  | row :: rest, h => by
    rw [runTurns] at h ⊢
    rcases Trace.outcome_bind_error h with ⟨hblock, heq⟩ | ⟨next, hblock, hrest, hfills⟩
    · exact ⟨[], row, rest, [], rfl, rfl, hblock, by rw [heq]; rfl⟩
    · obtain ⟨earlier, failing, remaining, done, rfl, hdone, hfail, hdonefills⟩ := runTurns_error hrest
      refine ⟨row :: earlier, failing, remaining, (block (scope.child.defineAll row)).fills ++ done, rfl, ?_, hfail, ?_⟩
      · rw [runTurns, Trace.bind_ok hblock, hdone]
      · rw [hfills, hdonefills, List.append_assoc]

theorem runVariations_cons (block : Path → Namespace → Scope → Trace Scope) (path : Path) (ns : Namespace)
    (scope : Scope) (v : Variation Expr) (rest : List (Variation Expr)) :
    runVariations call block path ns scope (v :: rest) =
      Trace.ofOutcome (ns.vary call scope v) >>= fun begun =>
        block (path ++ [.field v.name.text]) begun.2 begun.1 >>= fun _ =>
          runVariations call block path ns scope rest := by
  simp only [Namespace.vary, Trace.ofOutcome_bind, Trace.bind_assoc]
  rfl

/-- Variations that fail have completed some of them, and the next one cannot begin or fails. -/
theorem runVariations_error {block : Path → Namespace → Scope → Trace Scope} {path : Path} {ns : Namespace}
    {scope : Scope} {stop : Stop} :
    ∀ {vs : List (Variation Expr)}, (runVariations call block path ns scope vs).outcome = .error stop →
      ∃ earlier v remaining done, vs = earlier ++ v :: remaining ∧
        runVariations call block path ns scope earlier = ⟨done, .ok ()⟩ ∧
        (ns.vary call scope v = .error stop ∧ (runVariations call block path ns scope vs).fills = done ∨
          ∃ inner children, ns.vary call scope v = .ok (inner, children) ∧
            (block (path ++ [.field v.name.text]) children inner).outcome = .error stop ∧
            (runVariations call block path ns scope vs).fills =
              done ++ (block (path ++ [.field v.name.text]) children inner).fills)
  | [], h => by cases h
  | v :: rest, h => by
    rw [runVariations_cons] at h ⊢
    rcases Trace.ofOutcome_bind_error_cases h with ⟨hvary, hfills⟩ | ⟨⟨inner, children⟩, hvary, hnext, hfills⟩
    · exact ⟨[], v, rest, [], rfl, rfl, .inl ⟨hvary, hfills⟩⟩
    · rcases Trace.outcome_bind_error hnext with ⟨hblock, heq⟩ | ⟨next, hblock, hrest, hmore⟩
      · exact ⟨[], v, rest, [], rfl, rfl, .inr ⟨inner, children, hvary, hblock, by rw [hfills, heq]; rfl⟩⟩
      · obtain ⟨earlier, failing, remaining, done, rfl, hdone, hfail⟩ := runVariations_error hrest
        refine ⟨v :: earlier, failing, remaining, (block (path ++ [.field v.name.text]) children inner).fills ++ done,
          rfl, ?_, ?_⟩
        · rw [runVariations_cons, hvary, Trace.ofOutcome_bind_ok rfl, Trace.bind_ok hblock, hdone]
        · rw [hfills, hmore]
          rcases hfail with ⟨hrefused, hdonefills⟩ | ⟨inner, children, hbegun, hfail, hdonefills⟩
          · exact .inl ⟨hrefused, by rw [hdonefills]⟩
          · exact .inr ⟨inner, children, hbegun, hfail, by rw [hdonefills, List.append_assoc]⟩

theorem run_region_eq (path : Path) (ns : Namespace) (scope : Scope) (name : Name) (predicate : Option Expr)
    (axes : List (Axis Expr)) (block : List Statement) (s : Span) :
    (Statement.region name predicate axes block s).run call tag path ns scope =
      Trace.ofOutcome (takes call scope predicate) >>= fun taken =>
        if taken then
          Trace.ofOutcome (Namespace.reach call scope path ns name axes.length) >>= fun found =>
            runBlock call tag found.1 found.2 scope.child block >>= fun _ => pure scope
        else pure scope := by
  simp only [Statement.run, Namespace.reach, Trace.ofOutcome_bind, Trace.bind_assoc]
  rfl

theorem run_region {path : Path} {ns : Namespace} {scope : Scope} {name : Name} {predicate : Option Expr}
    {axes : List (Axis Expr)} {block : List Statement} {s : Span} (taken : takes call scope predicate = .ok true) :
    (Statement.region name predicate axes block s).run call tag path ns scope =
      Trace.ofOutcome (Namespace.reach call scope path ns name axes.length) >>= fun found =>
        runBlock call tag found.1 found.2 scope.child block >>= fun _ => pure scope := by
  rw [run_region_eq, Trace.ofOutcome_bind_ok taken, if_pos rfl]

/-- A region that fails cannot begin, or fails in its block with the fills of that. -/
theorem run_region_error {path : Path} {ns : Namespace} {scope : Scope} {name : Name} {predicate : Option Expr}
    {axes : List (Axis Expr)} {block : List Statement} {s : Span} {stop : Stop}
    (h : ((Statement.region name predicate axes block s).run call tag path ns scope).outcome = .error stop) :
    ((Statement.region name predicate axes block s).Refuses call path ns scope stop ∧
      ((Statement.region name predicate axes block s).run call tag path ns scope).fills = []) ∨
    takes call scope predicate = .ok true ∧ ∃ below children,
      Namespace.reach call scope path ns name axes.length = .ok (below, children) ∧
      (runBlock call tag below children scope.child block).outcome = .error stop ∧
      ((Statement.region name predicate axes block s).run call tag path ns scope).fills =
        (runBlock call tag below children scope.child block).fills := by
  rw [run_region_eq] at h ⊢
  rcases Trace.ofOutcome_bind_error_cases h with ⟨htakes, hfills⟩ | ⟨taken, htakes, hrest, hfills⟩
  · exact .inl ⟨.inl htakes, hfills⟩
  · cases taken with
    | false => cases hrest
    | true =>
      rw [if_pos rfl] at hrest hfills
      rcases Trace.ofOutcome_bind_error_cases hrest with ⟨hreach, hnone⟩ | ⟨⟨below, children⟩, hreach, hblock, hmore⟩
      · exact .inl ⟨.inr ⟨htakes, hreach⟩, hfills.trans hnone⟩
      · obtain ⟨hblock, hpure⟩ := Trace.outcome_bind_pure hblock
        exact .inr ⟨htakes, below, children, hreach, hblock, hfills.trans (hmore.trans hpure)⟩

/-! ### Failing records -/

mutual

theorem Statement.interrupted {path : Path} {ns : Namespace} {scope : Scope} {stop : Stop} (rest : List Statement) :
    ∀ (s : Statement), (s.run call tag path ns scope).outcome = .error stop →
      Interrupted call tag path ns scope (s :: rest) (s.run call tag path ns scope).fills stop
  | .define target e s, h => by
    rw [Statement.run] at h ⊢
    exact .here h
  | .function target parameters body s, h => by
    rw [Statement.run] at h ⊢
    exact .here h
  | .result e s, h => by
    rw [Statement.run] at h ⊢
    exact .here h
  | .collect c s, h => by
    rw [Statement.run] at h ⊢
    rcases Trace.ofOutcome_bind_error_cases h with ⟨hfill, hfills⟩ | ⟨f, -, hfill, -⟩
    · exact hfills ▸ .here hfill
    · cases hfill
  | .loop ranges block s, h => by
    rw [Statement.run] at h ⊢
    rcases Trace.ofOutcome_bind_error_cases h with ⟨hturns, hfills⟩ | ⟨rows, hturns, hrows, hfills⟩
    · exact hfills ▸ .here hturns
    · obtain ⟨hrows, hpure⟩ := Trace.outcome_bind_pure hrows
      obtain ⟨earlier, row, remaining, done, rfl, hdone, hfail, hdonefills⟩ := runTurns_error hrows
      have hall := hfills.trans (hpure.trans hdonefills)
      exact hall ▸ .turn hturns hdone (runBlock_interrupted block hfail)
  | .vary variations block s, h => by
    rw [Statement.run] at h ⊢
    obtain ⟨hvs, hpure⟩ := Trace.outcome_bind_pure h
    obtain ⟨earlier, v, remaining, done, rfl, hdone, hfail⟩ := runVariations_error hvs
    rw [hpure]
    rcases hfail with ⟨hrefused, hdonefills⟩ | ⟨inner, children, hbegun, hfail, hdonefills⟩
    · rw [hdonefills]
      exact .variation hdone hrefused
    · rw [hdonefills]
      exact .varied hdone hbegun (runBlock_interrupted block hfail)
  | .region name predicate axes block s, h => by
    rcases run_region_error h with ⟨refuses, hfills⟩ | ⟨htakes, below, children, hreach, hblock, hfills⟩
    · exact hfills ▸ .here refuses
    · rw [hfills]
      exact .region htakes hreach (runBlock_interrupted block hblock)
  | .source inclusive patterns block s, h => by
    rw [Statement.run] at h ⊢
    split at h
    · next htaken =>
      rw [if_pos htaken]
      exact .source htaken (runBlock_interrupted block h)
    · cases h

/-- A block that fails does so after the fills of what it has completed. -/
theorem runBlock_interrupted {path : Path} {ns : Namespace} {scope : Scope} {stop : Stop} :
    ∀ (block : List Statement), (runBlock call tag path ns scope block).outcome = .error stop →
      Interrupted call tag path ns scope block (runBlock call tag path ns scope block).fills stop
  | [], h => by
    rw [runBlock] at h
    cases h
  | s :: rest, h => by
    rw [runBlock] at h ⊢
    rcases Trace.outcome_bind_error h with ⟨hs, heq⟩ | ⟨next, hs, hrest, hfills⟩
    · rw [heq]
      exact Statement.interrupted rest s hs
    · rw [hfills]
      refine .later ?_ (runBlock_interrupted rest hrest)
      rw [← hs]

end

end RecordStats
