import RecordStats.Proofs.Likeness.Block

/-! A record through alike blocks on alike trees. It makes the same fills in the same order, and the ends are alike;
    an internal error on one side, where it does not count, is the only way out. The step is one statement, followed
    by the rest of its block; the blocks within statements are met by the induction. -/

namespace RecordStats
namespace Likeness

variable (L : Likeness)

/-- The traces end alike after the same fills. -/
structure TraceLike {α β : Type} (R : α → β → Prop) (t : Trace α) (u : Trace β) : Prop where
  outcome : L.EndsLike True R t.outcome u.outcome
  fills : t.fills = u.fills ∨ L.lenient ∧ (t.outcome.Faulty ∨ u.outcome.Faulty)

variable {L} {V : String → Prop}

/-! ### Traces one after another -/

namespace TraceLike

variable {α β γ δ : Type} {R : α → β → Prop} {S : γ → δ → Prop} {t : Trace α} {u : Trace β}

theorem faulty_bind (h : t.outcome.Faulty) (f : α → Trace γ) : (t >>= f).outcome.Faulty := by
  obtain ⟨cause, s, ht, internal⟩ := h
  exact ⟨cause, s, by rw [Trace.bind_error ht], internal⟩

theorem pure {a : α} {b : β} (h : R a b) : L.TraceLike R (Pure.pure a) (Pure.pure b) := ⟨.ok h, .inl rfl⟩

theorem ofOutcome {x : Outcome α} {y : Outcome β} (h : L.EndsLike True R x y) :
    L.TraceLike R (.ofOutcome x) (.ofOutcome y) := ⟨h, .inl rfl⟩

theorem fill (f : Fill) : L.TraceLike Eq (.fill f) (.fill f) := ⟨.ok rfl, .inl rfl⟩

/-- An internal error is where the likeness ends. -/
theorem fault (allowed : L.lenient) (h : t.outcome.Faulty ∨ u.outcome.Faulty) : L.TraceLike R t u :=
  ⟨.fault allowed h, .inr ⟨allowed, h⟩⟩

theorem bind {f : α → Trace γ} {g : β → Trace δ} (h : L.TraceLike R t u)
    (hf : ∀ a b, R a b → L.TraceLike S (f a) (g b)) : L.TraceLike S (t >>= f) (u >>= g) := by
  obtain ⟨told, mine⟩ := t
  obtain ⟨told', yours⟩ := u
  obtain ⟨outcome, fills⟩ := h
  have fills : told = told' ∨ L.lenient ∧ (mine.Faulty ∨ yours.Faulty) := fills
  rcases fills with rfl | ⟨allowed, faulty⟩
  · cases outcome with
    | @ok a b h =>
      have next := hf a b h
      rw [Trace.bind_ok rfl, Trace.bind_ok rfl]
      exact ⟨next.outcome, next.fills.imp (congrArg (told ++ ·)) id⟩
    | failure place known =>
      rw [Trace.bind_error rfl, Trace.bind_error rfl]
      exact ⟨.failure place known, .inl rfl⟩
    | tooDeep => exact ⟨.tooDeep, .inl rfl⟩
    | fault allowed faulty => exact .fault allowed (faulty.imp (faulty_bind · f) (faulty_bind · g))
  · exact .fault allowed (faulty.imp (faulty_bind · f) (faulty_bind · g))

/-- An outcome and then a trace. -/
theorem ofOutcome_bind {x : Outcome α} {y : Outcome β} {f : α → Trace γ} {g : β → Trace δ}
    (h : L.EndsLike True R x y) (hf : ∀ a b, R a b → L.TraceLike S (f a) (g b)) :
    L.TraceLike S (Trace.ofOutcome x >>= f) (Trace.ofOutcome y >>= g) :=
  (ofOutcome h).bind hf

end TraceLike

/-! ### Statements -/

variable {call call' : Caller} {tag : Option String} {scope scope' : Scope} {ns ns' : Namespace}

/-- What a block does on alike namespaces, in alike scopes and at the same path. -/
def RunsLike (L : Likeness) (V : String → Prop) (run run' : Path → Namespace → Scope → Trace Scope) : Prop :=
  ∀ (path : Path) {ns ns' : Namespace} {scope scope' : Scope}, L.NamespaceLike V ns ns' → L.ScopeLike V scope scope' →
    L.TraceLike (L.ScopeLike V) (run path ns scope) (run' path ns' scope')

theorem runTurns_like {block block' : Scope → Trace Scope}
    (hblock : ∀ {inner inner' : Scope}, L.ScopeLike V inner inner' →
      L.TraceLike (L.ScopeLike V) (block inner) (block' inner'))
    (hscope : L.ScopeLike V scope scope') {rows rows' : List (List (String × Value))}
    (h : List.Forall₂ L.FieldsLike rows rows') :
    L.TraceLike (fun _ _ => True) (runTurns block scope rows) (runTurns block' scope' rows') := by
  induction h with
  | nil => exact .pure trivial
  | cons first _ ih =>
    rw [runTurns, runTurns]
    exact (hblock (hscope.child.defineAll first)).bind fun _ _ _ => ih

theorem runVariations_like (hcall : L.CallerLike call call') {block block' : Path → Namespace → Scope → Trace Scope}
    (hblock : L.RunsLike V block block') (path : Path) (hns : L.NamespaceLike V ns ns')
    (hscope : L.ScopeLike V scope scope') {vs ws : List (Variation Expr)}
    (h : List.Forall₂ (L.VariationLike V) vs ws) :
    L.TraceLike (fun _ _ => True) (runVariations call block path ns scope vs)
      (runVariations call' block' path ns' scope' ws) := by
  induction h with
  | nil => exact .pure trivial
  | @cons v w _ _ first _ ih =>
    rw [runVariations, runVariations, ← first.name.text]
    refine .ofOutcome_bind (variationScope_like hcall hscope.toSightLike first.assignments hscope.child) ?_
    intro inner inner' hinner
    refine .ofOutcome_bind (entry_like hns first.name) fun node node' hnode => ?_
    refine .ofOutcome_bind (hnode.children _ first.place) fun children children' hchildren => ?_
    exact (hblock _ hchildren hinner).bind fun _ _ _ => ih

theorem region_like (hcall : L.CallerLike call call') {block block' : List Statement}
    (hblock : L.RunsLike V (fun path ns inner => runBlock call tag path ns inner block)
      (fun path ns inner => runBlock call' tag path ns inner block'))
    (path : Path) (hns : L.NamespaceLike V ns ns') (hscope : L.ScopeLike V scope scope') {m n : Name}
    {p q : Option Expr} {as bs : List (Axis Expr)} (name : L.NameLike m n)
    (predicate : Option.Rel (L.ExprLike V) p q) (axes : List.Forall₂ (L.AxisLike V) as bs) (s t : Span) :
    L.TraceLike (L.ScopeLike V) (Statement.run call tag path ns scope (.region m p as block s))
      (Statement.run call' tag path ns' scope' (.region n q bs block' t)) := by
  rw [Statement.run, Statement.run, ← name.text, axes.length_eq]
  refine .ofOutcome_bind (takes_like hcall hscope.toSightLike predicate) ?_
  rintro taken _ rfl
  split
  · refine .ofOutcome_bind (entry_like hns name) fun node node' hnode => ?_
    refine .ofOutcome_bind (hnode.descend hcall hscope.toSightLike name.place _ _) ?_
    rintro ⟨below, node⟩ ⟨_, node'⟩ ⟨rfl, hnode⟩
    refine .ofOutcome_bind (hnode.children _ name.place) fun children children' hchildren => ?_
    exact (hblock below hchildren hscope.child).bind fun _ _ _ => .pure hscope
  · exact .pure hscope

/-! ### Variations as regions -/

/-- The assignment of a variation, evaluated around it, and the definition that begins the region. -/
theorem starts_like (apart : ¬L.same) (hcall : L.CallerLike call call') (hscope : L.ScopeLike V scope scope') (path : Path)
    (ns : Namespace) {bs : List (Binding Expr)} {starts : List Statement} (few : bs.length ≤ 1)
    (h : List.Forall₂ (L.Defines V) bs starts) :
    L.TraceLike (L.ScopeLike V) (Trace.ofOutcome (variationScope call scope scope.child bs))
      (runBlock call' tag path ns scope'.child starts) := by
  cases h with
  | nil =>
    rw [variationScope, runBlock]
    exact .pure hscope.child
  | @cons b d bs starts first rest =>
    obtain rfl : bs = [] := List.eq_nil_of_length_eq_zero (Nat.le_zero.mp (Nat.le_of_succ_le_succ few))
    cases rest
    obtain ⟨target, value⟩ := first
    rw [variationScope, runBlock, Statement.run, Scope.bind, Scope.evaluate, hscope.child.place_eq, ← target.text]
    have evaluated := value.evaluate hcall (hscope.toSightLike.child_right apart) scope'.child.place
    rw [Trace.ofOutcome_bind, Trace.ofOutcome_bind, Trace.bind_assoc]
    refine .ofOutcome_bind evaluated fun v w hv => ?_
    rw [variationScope, Trace.ofOutcome_bind_ok (o := Pure.pure _) rfl, runBlock]
    exact .pure (hscope.child.define _ hv)

/-- A region that takes every record and has no axes. -/
theorem run_plain_region (call : Caller) (tag : Option String) (path : Path) (ns : Namespace) (scope : Scope) (n : Name)
    (block : List Statement) (s : Span) :
    Statement.run call tag path ns scope (.region n none [] block s) =
      Trace.ofOutcome (ns.entry n) >>= fun node =>
        Trace.ofOutcome (node.children .regionNotNamespace n.span) >>= fun children =>
          runBlock call tag (path ++ [.field n.text]) children scope.child block >>= fun _ => pure scope := by
  rw [Statement.run]
  rfl

theorem failAt_faulty {α β : Type} {cause : Cause} (h : cause.kind = .internal) (s : Span) (f : α → Trace β) :
    (Trace.ofOutcome (Outcome.failAt cause s) >>= f).outcome.Faulty :=
  TraceLike.faulty_bind ⟨cause, some s, rfl, h⟩ f

/-- One variation, and the region with its assignment and the block. What the tree does not have is an internal
    error on both sides, met after the assignment in the one and before it in the other. -/
theorem variation_region_like (allowed : L.lenient) (hcall : L.CallerLike call call') {block block' : List Statement}
    (hblock : L.RunsLike V (fun path ns inner => runBlock call tag path ns inner block)
      (fun path ns inner => runBlock call' tag path ns inner block'))
    (path : Path) (hns : L.NamespaceLike V ns ns') (hscope : L.ScopeLike V scope scope') {v : Variation Expr} {n : Name}
    (few : v.assignments.length ≤ 1) (name : L.NameLike v.name n) {starts : List Statement}
    (assignments : List.Forall₂ (L.Defines V) v.assignments starts) (t : Span) :
    L.TraceLike (fun _ => L.ScopeLike V scope)
      (runVariations call (fun path ns inner => runBlock call tag path ns inner block) path ns scope [v])
      (Statement.run call' tag path ns' scope' (.region n none [] (starts ++ block') t)) := by
  have found := hns.get? v.name.text
  rw [run_plain_region, runVariations, Namespace.entry, Namespace.entry, ← name.text]
  generalize Dict.get? ns v.name.text = x at found
  generalize Dict.get? ns' v.name.text = y at found
  cases found with
  | none => exact .fault allowed (.inr (failAt_faulty rfl _ _))
  | some hnode =>
    cases hnode with
    | binning | storage =>
      refine .fault allowed (.inr ?_)
      rw [Trace.ofOutcome_bind_ok rfl, Node.children]
      · exact failAt_faulty rfl _ _
      · exact fun _ _ h => by cases h
    | «namespace» _ keys children =>
      have hchildren : L.NamespaceLike V _ _ := PairsLike.iff_keys.mpr ⟨keys, children⟩
      rw [Trace.ofOutcome_bind_ok rfl, Node.children, Trace.ofOutcome_bind_ok rfl, runBlock_append, Trace.bind_assoc]
      refine (starts_like (L.apart allowed) hcall hscope _ _ few assignments).bind fun inner inner' hinner => ?_
      refine TraceLike.bind (R := L.ScopeLike V) ?_ fun _ _ _ => .pure hscope
      exact hblock _ hchildren hinner

/-! ### Blocks -/

theorem acceptsTag_eq (inclusive : Bool) {ps qs : List Pattern} (h : List.Forall₂ L.PatternLike ps qs)
    (tag : Option String) : acceptsTag inclusive ps tag = acceptsTag inclusive qs tag := by
  have any : ∀ t, (ps.any fun p => p.accepts t) = qs.any fun p => p.accepts t := by
    intro t
    induction h with
    | nil => rfl
    | cons first _ ih => rw [List.any_cons, List.any_cons, ih, Pattern.accepts, Pattern.accepts, first.regex]
  cases tag with
  | none => rfl
  | some t => rw [acceptsTag, acceptsTag, any]

/-- Alike blocks do alike on a record. -/
theorem BlockLike.run (hcall : L.CallerLike call call') {block block' : List Statement} (h : L.BlockLike V block block') :
    L.RunsLike V (fun path ns inner => runBlock call tag path ns inner block)
      (fun path ns inner => runBlock call' tag path ns inner block') := by
  induction h with
  | nil =>
    intro path ns ns' scope scope' hns hscope
    exact .pure hscope
  | define target value place rest ih =>
    intro path ns ns' scope scope' hns hscope
    simp only [runBlock, Statement.run]
    exact .ofOutcome_bind (bind_define_like hcall hscope target value _ _) fun _ _ h => ih path hns h
  | function target parameters inner place rest ih =>
    intro path ns ns' scope scope' hns hscope
    simp only [runBlock, Statement.run]
    exact .ofOutcome_bind (bind_function_like call call' hscope target parameters inner _ _) fun _ _ h => ih path hns h
  | result value place rest ih =>
    intro path ns ns' scope scope' hns hscope
    simp only [runBlock, Statement.run]
    exact .ofOutcome_bind (R := L.ScopeLike V) (.failAt place) fun _ _ h => ih path hns h
  | collect collector place rest ih =>
    intro path ns ns' scope scope' hns hscope
    simp only [runBlock, Statement.run, Trace.bind_assoc]
    refine .ofOutcome_bind (fillOf_like hcall hscope.toSightLike path hns collector) ?_
    rintro f _ rfl
    exact (TraceLike.fill f).bind fun _ _ _ => ih path hns hscope
  | loop bindings inner place rest ihinner ih =>
    intro path ns ns' scope scope' hns hscope
    simp only [runBlock, Statement.run, Trace.bind_assoc]
    refine .ofOutcome_bind (turns_like hcall hscope.toSightLike bindings place) fun rows rows' hrows => ?_
    exact (runTurns_like (fun h => ihinner path hns h) hscope hrows).bind fun _ _ _ => ih path hns hscope
  | vary variations inner place rest ihinner ih =>
    intro path ns ns' scope scope' hns hscope
    simp only [runBlock, Statement.run, Trace.bind_assoc]
    exact (runVariations_like hcall ihinner path hns hscope variations).bind fun _ _ _ => ih path hns hscope
  | region name predicate axes inner place rest ihinner ih =>
    intro path ns ns' scope scope' hns hscope
    simp only [runBlock]
    exact (region_like hcall ihinner path hns hscope name predicate axes _ _).bind fun _ _ h => ih path hns h
  | source inclusive patterns inner place rest ihinner ih =>
    intro path ns ns' scope scope' hns hscope
    simp only [runBlock, Statement.run, acceptsTag_eq inclusive patterns tag]
    split
    · exact (ihinner path hns hscope).bind fun _ _ h => ih path hns h
    · exact ih path hns hscope
  | lastRegion allowed few name assignments inner rest ihinner ih =>
    intro path ns ns' scope scope' hns hscope
    have region := variation_region_like allowed hcall ihinner path hns hscope few name assignments
    simp only [runBlock]
    rw [Statement.run, Trace.bind_assoc]
    exact (region _).bind fun _ _ h => ih path hns h
  | nextRegion allowed few name assignments inner others ihinner ih =>
    intro path ns ns' scope scope' hns hscope
    have region := variation_region_like allowed hcall ihinner path hns hscope few name assignments
    have remaining := fun {scope' : Scope} (h : L.ScopeLike V scope scope') => ih path hns h
    simp only [runBlock] at remaining ⊢
    rw [Statement.run, Trace.bind_assoc] at remaining
    rw [Statement.run, Trace.bind_assoc, ← List.singleton_append, runVariations_append, Trace.bind_assoc]
    exact (region _).bind fun _ _ h => remaining h

end Likeness
end RecordStats
