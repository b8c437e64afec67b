import RecordStats.Proofs.Record.Route

/-! Statements in place and as traces. Every statement, and so every block, does to the tree what its trace
    tells, whatever was collected before. -/

namespace RecordStats

open RecordStats.Part

variable {call : Caller} {tag : Option String}

namespace Performs

/-- A block that is executed once for each row of bindings. -/
theorem turns {block : Scope → Action Namespace Scope} {trace : Path → Namespace → Scope → Trace Scope}
    (h : ∀ scope ns, Performs (block scope) (fun path ns => trace path ns scope) ns) (scope : Scope)
    (rows : List (List (String × Value))) (ns : Namespace) :
    Performs (executeTurns block scope rows) (fun path ns => runTurns (trace path ns) scope rows) ns := by
  induction rows generalizing ns with
  | nil => exact pure ()
  | cons row rest ih => exact bind (h _ ns) fun _ ns => ih ns

/-- A block that is executed once for each variation. -/
theorem variations {block : Scope → Action Namespace Scope} {trace : Path → Namespace → Scope → Trace Scope}
    (h : ∀ scope ns, Performs (block scope) (fun path ns => trace path ns scope) ns) (scope : Scope)
    (vs : List (Variation Expr)) (ns : Namespace) :
    Performs (executeVariations call block scope vs) (fun path ns => runVariations call trace path ns scope vs) ns := by
  induction vs generalizing ns with
  | nil => exact pure ()
  | cons v rest ih =>
    refine ofOutcome_bind fun inner _ => ?_
    have first := within v.name (fun node => opened .variationNotNamespace v.span (h inner) node) ns
    have told : ∀ path ns, (Trace.into (fun ns : Namespace => ns.entry v.name)
        (fun node => Trace.into (Node.children .variationNotNamespace v.span)
          (fun children => trace (path ++ [.field v.name.text]) children inner) node) ns >>= fun _ =>
          runVariations call trace path ns scope rest) =
        (do
          let node ← ns.entry v.name
          let children ← node.children .variationNotNamespace v.span
          let _ ← trace (path ++ [.field v.name.text]) children inner
          runVariations call trace path ns scope rest) := fun path ns => by
      simp only [Trace.into, Trace.bind_assoc]
      rfl
    exact (bind first fun _ ns => ih ns).congr_trace (fun path => (told path _).symm) (fun path => (told path _).symm)

/-- A collector fills its storage. Its weight is evaluated first. -/
theorem collects (scope : Scope) (c : Collector Expr) (ns : Namespace) :
    Performs (Action.ofOutcome (weightOf call scope c.weight) >>= fun w =>
        Namespace.within c.name (Node.enter call scope w) >>= fun _ => Pure.pure scope)
      (fun path ns => Trace.ofOutcome (c.fillOf call path ns scope) >>= fun f =>
        Trace.fill f >>= fun _ => Pure.pure scope) ns := by
  have step : Performs (Action.ofOutcome (weightOf call scope c.weight) >>= fun w =>
        Namespace.within c.name (Node.enter call scope w) >>= fun _ => Pure.pure scope)
      (fun path ns => Trace.ofOutcome (weightOf call scope c.weight) >>= fun w =>
        Trace.into (fun ns : Namespace => ns.entry c.name) (entering call scope w (path ++ [.field c.name.text])) ns
          >>= fun _ => Pure.pure scope) ns :=
    ofOutcome_bind fun w _ => bind (within c.name enter ns) fun _ _ => pure scope
  have told : ∀ path ns, (Trace.ofOutcome (c.fillOf call path ns scope) >>= fun f =>
        Trace.fill f >>= fun _ => Pure.pure scope) =
      Trace.ofOutcome (weightOf call scope c.weight) >>= fun w =>
        Trace.into (fun ns : Namespace => ns.entry c.name) (entering call scope w (path ++ [.field c.name.text])) ns
          >>= fun _ => Pure.pure scope := by
    intro path ns
    simp only [Collector.fillOf, Trace.ofOutcome_bind, Trace.bind_assoc, entering, Trace.into]
    rfl
  exact step.congr_trace (fun path => told path ns) (fun path => told path _)

end Performs

mutual

/-- A statement does in place what its trace tells. -/
theorem Statement.performs (scope : Scope) : ∀ (s : Statement) (ns : Namespace),
    Performs (s.execute call tag scope) (fun path ns => s.run call tag path ns scope) ns
  | .define target e s, ns => by
    rw [Statement.execute]
    simp only [Statement.run]
    exact .ofOutcome _
  | .function target parameters body s, ns => by
    rw [Statement.execute]
    simp only [Statement.run]
    exact .ofOutcome _
  | .result e s, ns => by
    rw [Statement.execute]
    simp only [Statement.run]
    exact .ofOutcome _
  | .collect c s, ns => by
    rw [Statement.execute]
    simp only [Statement.run]
    exact .collects scope c ns
  | .loop ranges block s, ns => by
    rw [Statement.execute]
    simp only [Statement.run]
    refine .ofOutcome_bind fun rows _ => .bind ?_ fun _ _ => .pure scope
    exact .turns (fun inner ns => executeBlock_performs inner block ns) scope rows ns
  | .vary variations block s, ns => by
    rw [Statement.execute]
    simp only [Statement.run]
    refine .bind ?_ fun _ _ => .pure scope
    exact .variations (fun inner ns => executeBlock_performs inner block ns) scope variations ns
  | .region name predicate axes block s, ns => by
    rw [Statement.execute]
    simp only [Statement.run]
    refine .ofOutcome_bind fun accepted _ => ?_
    split
    · have inner := fun ns => executeBlock_performs scope.child block ns
      refine (Performs.bind (.within name (fun node => .routed name.span inner axes.length node) ns)
        fun _ _ => .pure scope).congr_trace (fun path => ?_) (fun path => ?_)
      · simp only [Trace.into, Trace.bind_assoc]
        rfl
      · simp only [Trace.into, Trace.bind_assoc]
        rfl
    · exact .pure scope
  | .source inclusive patterns block s, ns => by
    rw [Statement.execute]
    simp only [Statement.run]
    split
    · exact executeBlock_performs scope block ns
    · exact .pure scope

/-- A block does in place what its trace tells. -/
theorem executeBlock_performs (scope : Scope) : ∀ (block : List Statement) (ns : Namespace),
    Performs (executeBlock call tag scope block) (fun path ns => runBlock call tag path ns scope block) ns
  | [], ns => by
    rw [executeBlock]
    simp only [runBlock]
    exact .pure scope
  | s :: rest, ns => by
    rw [executeBlock]
    simp only [runBlock]
    exact .bind (Statement.performs scope s ns) fun scope ns => executeBlock_performs scope rest ns

end

end RecordStats
