import RecordStats.Proofs.Program.Pieces
import RecordStats.Proofs.Source.Joined

/-! The outline of a program: the spans of all its nodes, as a tree. A node is anything that has a place of its own,
    from the program down to the names in a function's body. -/

namespace RecordStats

/-- The place of a piece of syntax and the outlines of its parts. -/
inductive Outline where
  | node (span : Span) (parts : List Outline)

namespace Outline

def span : Outline → Span
  | node s _ => s

mutual

/-- The outline and all those below it. -/
def nodes : Outline → List Outline
  | node s parts => node s parts :: nodesOf parts

def nodesOf : List Outline → List Outline
  | [] => []
  | o :: rest => nodes o ++ nodesOf rest

end

theorem mem_nodesOf {n : Outline} {parts : List Outline} : n ∈ nodesOf parts ↔ ∃ o ∈ parts, n ∈ o.nodes := by
  induction parts with
  | nil => simp [nodesOf]
  | cons o rest ih => simp [nodesOf, ih]

theorem mem_nodes_node {n : Outline} {s : Span} {parts : List Outline} :
    n ∈ (node s parts).nodes ↔ n = node s parts ∨ ∃ o ∈ parts, n ∈ o.nodes := by
  rw [nodes, List.mem_cons, mem_nodesOf]

/-- All spans of the outline are such. -/
def All (P : Span → Prop) (o : Outline) : Prop := ∀ n ∈ o.nodes, P n.span

theorem forall_mem_pair {Q : Outline → Prop} {o o' : Outline} : (∀ x ∈ [o, o'], Q x) ↔ Q o ∧ Q o' := by
  rw [List.forall_mem_cons, List.forall_mem_singleton]

theorem all_node {P : Span → Prop} {s : Span} {parts : List Outline} :
    (node s parts).All P ↔ P s ∧ ∀ o ∈ parts, o.All P := by
  constructor
  · refine fun h => ⟨h _ (mem_nodes_node.mpr (.inl rfl)), fun o ho n hn => ?_⟩
    exact h n (mem_nodes_node.mpr (.inr ⟨o, ho, hn⟩))
  · rintro ⟨hs, hparts⟩ n hn
    rcases mem_nodes_node.mp hn with rfl | ⟨o, ho, hn⟩
    · exact hs
    · exact hparts o ho n hn

/-- The spans are those of a text, and each encloses those of all nodes below it. -/
structure Sound (text : String) (o : Outline) : Prop where
  within : o.All (Span.Within text)
  nested : ∀ n ∈ o.nodes, ∀ d ∈ n.nodes, n.span.encloses d.span = true

/-! ### Nested spans -/

/-- The span of each node encloses those of its parts. -/
inductive Nested : Outline → Prop
  | node {s : Span} {parts : List Outline} (here : ∀ o ∈ parts, s.encloses o.span = true)
      (below : ∀ o ∈ parts, Nested o) : Nested (.node s parts)

theorem Nested.of_mem {o n : Outline} (h : o.Nested) (hn : n ∈ o.nodes) : o.span.encloses n.span = true ∧ n.Nested := by
  induction h with
  | @node s parts here hparts ih =>
    rcases mem_nodes_node.mp hn with rfl | ⟨p, hp, hn⟩
    · exact ⟨Span.encloses_refl _, .node here hparts⟩
    · obtain ⟨inside, nested⟩ := ih p hp hn
      exact ⟨Span.encloses_trans (here p hp) inside, nested⟩

theorem Nested.sound {text : String} {o : Outline} (h : o.Nested) (within : o.All (Span.Within text)) : o.Sound text :=
  ⟨within, fun _ hn _ hd => ((h.of_mem hn).2.of_mem hd).1⟩

/-- The outline is nested, and its span is between two offsets. -/
structure Between (a b : Nat) (o : Outline) : Prop where
  nested : o.Nested
  inside : o.span.Inside a b

namespace Between

variable {a b a' b' : Nat} {o p : Outline} {s : Span} {parts : List Outline}

theorem mono (h : o.Between a b) (ha : a' ≤ a) (hb : b ≤ b') : o.Between a' b' :=
  ⟨h.nested, h.inside.mono ha hb⟩

/-- A node that encloses its parts. -/
theorem node (hs : s.Inside a b) (hparts : ∀ o ∈ parts, o.Nested ∧ s.encloses o.span = true) :
    (Outline.node s parts).Between a b :=
  ⟨.node (fun o ho => (hparts o ho).2) fun o ho => (hparts o ho).1, hs⟩

theorem leaf (hs : s.Inside a b) : (Outline.node s []).Between a b :=
  node hs nofun

/-- Two parts side by side. -/
theorem join (ho : o.Between a b) (hp : p.Between a b) : (Outline.node (o.span.join p.span) [o, p]).Between a b :=
  node (ho.inside.join hp.inside) (forall_mem_pair.mpr
    ⟨⟨ho.nested, Span.encloses_join_left _ _⟩, hp.nested, Span.encloses_join_right _ _⟩)

/-- What is between the ends of a span is enclosed by it. -/
theorem enclosed (h : o.Between a b) (ha : s.first.offset ≤ a) (hb : b ≤ s.last.offset) :
    o.Nested ∧ s.encloses o.span = true :=
  ⟨h.nested, Span.encloses_iff.mpr ⟨Nat.le_trans ha h.inside.first_le, Nat.le_trans h.inside.last_le hb⟩⟩

/-- From a first span to a last one, with all parts between. -/
theorem stretch {first last : Span} (hfirst : first.Inside a b) (hlast : last.Inside a b) (ha : first.first.offset = a)
    (hparts : ∀ o ∈ parts, o.Between a last.last.offset) : (Outline.node (first.join last) parts).Between a b := by
  refine node (hfirst.join hlast) fun o ho => (hparts o ho).enclosed ?_ ?_
  · rw [Span.offset_first_join, ha]
    exact Nat.min_le_left _ _
  · rw [Span.offset_last_join]
    exact Nat.le_max_right _ _

end Between

/-- The outlines stand between two offsets, and none ends after the first one: they are in reverse. -/
structure Backwards (a b : Nat) (parts : List Outline) : Prop where
  between : ∀ o ∈ parts, o.Between a b
  first : ∀ p ∈ parts.head?, ∀ o ∈ parts, o.span.last.offset ≤ p.span.last.offset

namespace Backwards

variable {a b c : Nat} {o : Outline} {parts : List Outline}

theorem nil (a b : Nat) : Backwards a b [] := ⟨nofun, nofun⟩

/-- More of them, which begin where the others end. -/
theorem append {more : List Outline} (h : Backwards a b parts) (hab : a ≤ b) (hmore : Backwards b c more)
    (hbc : b ≤ c) : Backwards a c (more ++ parts) := by
  refine ⟨List.forall_mem_append.mpr ⟨fun o ho => (hmore.between o ho).mono hab (Nat.le_refl _), fun o ho => ?_⟩,
    fun p hp => ?_⟩
  · exact (h.between o ho).mono (Nat.le_refl _) hbc
  · cases more with
    | nil => exact h.first p hp
    | cons q rest =>
      obtain rfl : q = p := Option.some.inj hp
      have inside := (hmore.between q List.mem_cons_self).inside
      refine List.forall_mem_append.mpr ⟨hmore.first q rfl, fun o ho => ?_⟩
      exact Nat.le_trans (h.between o ho).inside.last_le (Nat.le_trans inside.first_le inside.ordered)

theorem singleton (ho : o.Between a b) : Backwards a b [o] := by
  refine ⟨List.forall_mem_singleton.mpr ho, fun p hp => List.forall_mem_singleton.mpr ?_⟩
  obtain rfl : o = p := Option.some.inj hp
  exact Nat.le_refl _

/-- There may be none. -/
theorem optional {e : Option Outline} (h : ∀ o ∈ e, o.Between a b) : Backwards a b e.toList := by
  cases e with
  | none => exact nil a b
  | some o => exact singleton (h o rfl)

theorem cons (h : Backwards a b parts) (hab : a ≤ b) (ho : o.Between b c) : Backwards a c (o :: parts) :=
  h.append hab (singleton ho) (Nat.le_trans ho.inside.first_le (Nat.le_trans ho.inside.ordered ho.inside.last_le))

/-- None ends after the first one. -/
theorem between_first (h : Backwards a b parts) {p : Outline} (hp : p ∈ parts.head?) :
    ∀ o ∈ parts, o.Between a p.span.last.offset := fun o ho =>
  ⟨(h.between o ho).nested, (h.between o ho).inside.first_le, (h.between o ho).inside.ordered, h.first p hp o ho⟩

end Backwards

end Outline

/-! ### Outlines of programs -/

def Name.outline (n : Name) : Outline := .node n.span []

/-- A name where an enclosed expression stands. -/
theorem Name.outline_enclosed {n : Name} {s : Span} (h : s.encloses n.span = true) :
    n.outline.Nested ∧ s.encloses n.outline.span = true :=
  ⟨.node nofun nofun, h⟩

namespace Expr

mutual

def outline : Expr → Outline
  | literal _ s => .node s []
  | name _ s => .node s []
  | operator _ operands s => .node s (outlines operands)
  | call callee arguments s => .node s (outline callee :: outlines arguments)
  | lambda parameters body s => .node s (parameters.map Name.outline ++ bodyOutlines body)

def outlines : List Expr → List Outline
  | [] => []
  | e :: rest => outline e :: outlines rest

/-- The outlines of the statements of a function's body. A statement that has no place there is only a place. -/
def bodyOutlines : List Statement → List Outline
  | [] => []
  | .define target e s :: rest => .node s [target.outline, outline e] :: bodyOutlines rest
  | .function target parameters body s :: rest =>
    .node s (target.outline :: (parameters.map Name.outline ++ bodyOutlines body)) :: bodyOutlines rest
  | .result e s :: rest => .node s [outline e] :: bodyOutlines rest
  | s :: rest => .node s.span [] :: bodyOutlines rest

end

theorem outlines_eq_map (es : List Expr) : outlines es = es.map outline := by
  induction es with
  | nil => rfl
  | cons e rest ih => rw [outlines, ih, List.map_cons]

@[simp] theorem span_outline (e : Expr) : e.outline.span = e.span := by
  cases e <;> rfl

theorem bodyOutlines_cons (s : Statement) (rest : List Statement) :
    bodyOutlines (s :: rest) = bodyOutlines [s] ++ bodyOutlines rest := by
  cases s <;> rfl

theorem bodyOutlines_eq_flatMap (body : List Statement) :
    bodyOutlines body = body.flatMap fun s => bodyOutlines [s] := by
  induction body with
  | nil => rfl
  | cons s rest ih => rw [bodyOutlines_cons, ih, List.flatMap_cons]

theorem outline_apply {op : Operator} {es : List Expr} {a b : Nat} {mark : Span} (hmark : mark.Inside a b)
    (hes : ∀ e ∈ es, e.outline.Between a b) : (apply op es mark).outline.Between a b := by
  have inside := hmark.foldl fun e he => span_outline e ▸ (hes e he).inside
  show (Outline.node (es.foldl (fun s e => s.join e.span) mark) (outlines es)).Between a b
  rw [outlines_eq_map]
  refine .node inside (List.forall_mem_map.mpr fun e he => ⟨(hes e he).nested, ?_⟩)
  rw [span_outline]
  exact (Span.encloses_foldl mark).2 e he

theorem outline_apply_two {op : Operator} {e f : Expr} {a b : Nat} {mark : Span} (hmark : mark.Inside a b)
    (he : e.outline.Between a b) (hf : f.outline.Between a b) : (apply op [e, f] mark).outline.Between a b :=
  outline_apply hmark (List.forall_mem_cons.mpr ⟨he, List.forall_mem_singleton.mpr hf⟩)

theorem outline_apply_one {op : Operator} {e : Expr} {a b : Nat} {mark : Span} (hmark : mark.Inside a b)
    (he : e.outline.Between a b) : (apply op [e] mark).outline.Between a b :=
  outline_apply hmark (List.forall_mem_singleton.mpr he)

/-- A wider span encloses all that the narrower one does. -/
theorem outline_withSpan {e : Expr} {s : Span} {a b : Nat} (h : e.outline.Nested) (hs : s.encloses e.span = true)
    (inside : s.Inside a b) : (e.withSpan s).outline.Between a b := by
  have widen {t : Span} {parts : List Outline} (h : (Outline.node t parts).Nested) (hs : s.encloses t = true) :
      (Outline.node s parts).Between a b := by
    cases h with
    | node here below => exact .node inside fun o ho => ⟨below o ho, Span.encloses_trans hs (here o ho)⟩
  cases e <;> exact widen h hs

/-- An item, whose span reaches up to the closing bracket. -/
theorem outline_itemUpTo {e index : Expr} {mark closing : Span} {a b : Nat} (hmark : mark.Inside a b)
    (he : e.outline.Between a b) (hindex : index.outline.Between a b) (hclosing : closing.Inside a b) :
    ((apply .item [e, index] mark).withSpan
      ((apply .item [e, index] mark).span.join (e.span.join closing))).outline.Between a b := by
  have item : (apply .item [e, index] mark).outline.Between a b := outline_apply_two hmark he hindex
  have whole := item.inside.join (he.inside.join hclosing)
  rw [span_outline, span_outline] at whole
  exact outline_withSpan item.nested (Span.encloses_join_left _ _) whole

/-- A call encloses its arguments, which stand between what is called and the closing parenthesis. -/
theorem outline_callUpTo {e : Expr} {es : List Expr} {closing : Span} {a b m n : Nat} (he : e.outline.Between a m)
    (hmn : m ≤ n) (hes : ∀ f ∈ es, f.outline.Between m n) (hclosing : closing.Inside n b) :
    (callUpTo e es closing).outline.Between a b := by
  have callee := he.inside
  rw [span_outline] at callee
  obtain ⟨first, ordered, last⟩ := callee
  obtain ⟨first', ordered', last'⟩ := hclosing
  have callee : e.span.Inside a b := ⟨first, ordered, by omega⟩
  show (Outline.node (e.span.join closing) (e.outline :: outlines es)).Between a b
  refine .node (callee.join ⟨by omega, ordered', last'⟩) (List.forall_mem_cons.mpr ⟨⟨he.nested, ?_⟩, ?_⟩)
  · rw [span_outline]
    exact Span.encloses_join_left _ _
  · rw [outlines_eq_map]
    refine List.forall_mem_map.mpr fun f hf => (hes f hf).enclosed ?_ ?_
    · rw [Span.offset_first_join]
      omega
    · rw [Span.offset_last_join]
      omega

end Expr

def Binding.outline (b : Binding Expr) : Outline := .node b.span [b.target.outline, b.expression.outline]

def Axis.outline (a : Axis Expr) : Outline := .node a.span [a.binning.outline, a.expression.outline]

def Variation.outline (v : Variation Expr) : Outline :=
  .node v.span (v.name.outline :: v.assignments.map Binding.outline)

def Pattern.outline (p : Pattern) : Outline := .node p.span []

/-- The outlines of the parts of a collector. -/
def Collector.outlines (c : Collector Expr) : List Outline :=
  c.name.outline ::
    (c.expression.toList.map Expr.outline ++ c.axes.map Axis.outline ++ c.weight.toList.map Expr.outline)

namespace Statement

mutual

def outline : Statement → Outline
  | define target e s => .node s [target.outline, e.outline]
  | function target parameters body s =>
    .node s (target.outline :: (parameters.map Name.outline ++ Expr.bodyOutlines body))
  | result e s => .node s [e.outline]
  | collect c s => .node s c.outlines
  | loop ranges block s => .node s (ranges.map Binding.outline ++ blockOutlines block)
  | vary variations block s => .node s (variations.map Variation.outline ++ blockOutlines block)
  | region name predicate axes block s =>
    .node s (name.outline :: (predicate.toList.map Expr.outline ++ axes.map Axis.outline ++ blockOutlines block))
  | source _ patterns block s => .node s (patterns.map Pattern.outline ++ blockOutlines block)

def blockOutlines : List Statement → List Outline
  | [] => []
  | s :: rest => outline s :: blockOutlines rest

end

theorem blockOutlines_eq_map (block : List Statement) : blockOutlines block = block.map outline := by
  induction block with
  | nil => rfl
  | cons s rest ih => rw [blockOutlines, ih, List.map_cons]

@[simp] theorem span_outline (s : Statement) : s.outline.span = s.span := by
  cases s <;> rfl

/-- The definition of a value encloses its name and its value. -/
theorem outline_define {text : String} {span mark : Span} {e : Expr} {a b : Nat} (head : (span.join mark).Inside a b)
    (he : e.outline.Between a b) : (define ⟨text, span⟩ e ((span.join mark).join e.span)).outline.Between a b := by
  have whole := head.join he.inside
  rw [Expr.span_outline] at whole
  refine .node whole (Outline.forall_mem_pair.mpr ⟨Name.outline_enclosed ?_, he.nested, ?_⟩)
  · exact Span.encloses_trans (Span.encloses_join_left _ _) (Span.encloses_join_left _ _)
  · rw [Expr.span_outline]
    exact Span.encloses_join_right _ _

/-- The definition of a function encloses its name and its parameters, which are in the call that heads it, and what
    stands between that call and the end of the body. -/
theorem outline_function {callee : Expr} {arguments : List Expr} {span mark stop : Span} {a b c : Nat}
    (call : (Expr.call callee arguments span).outline.Between a c) (head : (span.join mark).Inside a b)
    (hstop : stop.Inside a b) {text : String} {parameters : List Name} {body : List Statement}
    (hparameters : ∀ n ∈ parameters, ∃ e ∈ arguments, n.span = e.span)
    (hbody : ∀ o ∈ Expr.bodyOutlines body, o.Between c stop.last.offset) :
    (function ⟨text, callee.span⟩ parameters body ((span.join mark).join stop)).outline.Between a b := by
  have enclosed : ((span.join mark).join stop).encloses span = true :=
    Span.encloses_trans (Span.encloses_join_left _ _) (Span.encloses_join_left _ _)
  cases call.nested with
  | node parts _ =>
    obtain ⟨callee_in, arguments_in⟩ := List.forall_mem_cons.mp parts
    rw [Expr.span_outline] at callee_in
    rw [Expr.outlines_eq_map, List.forall_mem_map] at arguments_in
    refine .node (head.join hstop) (List.forall_mem_cons.mpr ⟨?_, List.forall_mem_append.mpr ⟨?_, fun o ho => ?_⟩⟩)
    · exact Name.outline_enclosed (Span.encloses_trans enclosed callee_in)
    · refine List.forall_mem_map.mpr fun p hp => Name.outline_enclosed ?_
      obtain ⟨e, he, hspan⟩ := hparameters p hp
      rw [hspan, ← Expr.span_outline]
      exact Span.encloses_trans enclosed (arguments_in e he)
    · -- The whole begins with the call or before it, and the body does not begin before the call ends.
      have begins := (Span.encloses_iff.mp enclosed).1
      have between := Nat.le_trans call.inside.ordered call.inside.last_le
      refine (hbody o ho).enclosed (Nat.le_trans begins between) ?_
      rw [Span.offset_last_join]
      exact Nat.le_max_right _ _

end Statement

def Program.outline (p : Program) : Outline := .node p.span (Statement.blockOutlines p.block)

/-! ### Outlines of what is made of pieces -/

section Pieces

variable {P : Pieces}

theorem Name.outline_all {n : Name} (h : P.span n.span) : n.outline.All P.span :=
  Outline.all_node.mpr ⟨h, nofun⟩

namespace Expr

mutual

theorem MadeOf.outline_all : ∀ {e : Expr}, e.MadeOf P → e.outline.All P.span
  | literal _ _, h => Outline.all_node.mpr ⟨h.2, nofun⟩
  | name _ _, h => Outline.all_node.mpr ⟨h.2, nofun⟩
  | operator _ _ _, h => Outline.all_node.mpr ⟨h.2.2, AllMadeOf.outline_all h.2.1⟩
  | call _ _ _, h =>
    Outline.all_node.mpr ⟨h.2.2, List.forall_mem_cons.mpr ⟨MadeOf.outline_all h.1, AllMadeOf.outline_all h.2.1⟩⟩
  | lambda _ _ _, h => by
    refine Outline.all_node.mpr ⟨h.2.2, List.forall_mem_append.mpr ⟨?_, BodyMadeOf.outline_all h.2.1⟩⟩
    exact List.forall_mem_map.mpr fun p hp => Name.outline_all (h.1 p hp).place

theorem AllMadeOf.outline_all : ∀ {es : List Expr}, AllMadeOf P es → ∀ o ∈ outlines es, o.All P.span
  | [], _ => nofun
  | _ :: _, h => List.forall_mem_cons.mpr ⟨MadeOf.outline_all h.1, AllMadeOf.outline_all h.2⟩

theorem BodyMadeOf.outline_all : ∀ {body : List Statement}, BodyMadeOf P body → ∀ o ∈ bodyOutlines body, o.All P.span
  | [], _ => nofun
  | .define _ _ _ :: _, h => by
    refine List.forall_mem_cons.mpr ⟨Outline.all_node.mpr ⟨h.2.2.1, ?_⟩, BodyMadeOf.outline_all h.2.2.2⟩
    exact Outline.forall_mem_pair.mpr ⟨Name.outline_all h.1.place, MadeOf.outline_all h.2.1⟩
  | .function _ _ _ _ :: _, h => by
    refine List.forall_mem_cons.mpr ⟨Outline.all_node.mpr ⟨h.2.2.2.1, ?_⟩, BodyMadeOf.outline_all h.2.2.2.2⟩
    refine List.forall_mem_cons.mpr ⟨Name.outline_all h.1.place, List.forall_mem_append.mpr ⟨?_, ?_⟩⟩
    · exact List.forall_mem_map.mpr fun p hp => Name.outline_all (h.2.1 p hp).place
    · exact BodyMadeOf.outline_all h.2.2.1
  | .result _ _ :: _, h => by
    refine List.forall_mem_cons.mpr ⟨Outline.all_node.mpr ⟨h.2.1, ?_⟩, BodyMadeOf.outline_all h.2.2⟩
    exact List.forall_mem_singleton.mpr (MadeOf.outline_all h.1)
  | .collect _ _ :: _, h | .loop _ _ _ :: _, h | .vary _ _ _ :: _, h | .region _ _ _ _ _ :: _, h
  | .source _ _ _ _ :: _, h =>
    List.forall_mem_cons.mpr ⟨Outline.all_node.mpr ⟨h.1, nofun⟩, BodyMadeOf.outline_all h.2⟩

end

end Expr

theorem Expr.option_outline_all {e : Option Expr} (h : ∀ x ∈ e, x.MadeOf P) :
    ∀ o ∈ e.toList.map Expr.outline, o.All P.span :=
  List.forall_mem_map.mpr fun x hx => (h x (Option.mem_toList.mp hx)).outline_all

theorem Binding.MadeOf.outline_all {b : Binding Expr} (h : b.MadeOf P) : b.outline.All P.span :=
  Outline.all_node.mpr ⟨h.place, Outline.forall_mem_pair.mpr
    ⟨Name.outline_all h.target.place, h.expression.outline_all⟩⟩

theorem Axis.MadeOf.outline_all {a : Axis Expr} (h : a.MadeOf P) : a.outline.All P.span :=
  Outline.all_node.mpr ⟨h.place, Outline.forall_mem_pair.mpr ⟨h.binning.outline_all, h.expression.outline_all⟩⟩

theorem Variation.MadeOf.outline_all {v : Variation Expr} (h : v.MadeOf P) : v.outline.All P.span :=
  Outline.all_node.mpr ⟨h.place, List.forall_mem_cons.mpr
    ⟨Name.outline_all h.name, List.forall_mem_map.mpr fun b hb => (h.assignments b hb).outline_all⟩⟩

theorem Collector.MadeOf.outlines_all {c : Collector Expr} (h : c.MadeOf P) : ∀ o ∈ c.outlines, o.All P.span := by
  refine List.forall_mem_cons.mpr ⟨Name.outline_all h.name, List.forall_mem_append.mpr ⟨?_, ?_⟩⟩
  · refine List.forall_mem_append.mpr ⟨Expr.option_outline_all h.expression, ?_⟩
    exact List.forall_mem_map.mpr fun a ha => (h.axes a ha).outline_all
  · exact Expr.option_outline_all h.weight

namespace Statement

mutual

theorem MadeOf.outline_all : ∀ {d : Statement}, d.MadeOf P → d.outline.All P.span
  | define _ _ _, h =>
    Outline.all_node.mpr ⟨h.2.2, Outline.forall_mem_pair.mpr ⟨Name.outline_all h.1.place, h.2.1.outline_all⟩⟩
  | function _ _ _ _, h => by
    refine Outline.all_node.mpr ⟨h.2.2.2, List.forall_mem_cons.mpr ⟨Name.outline_all h.1.place, ?_⟩⟩
    refine List.forall_mem_append.mpr ⟨?_, h.2.2.1.outline_all⟩
    exact List.forall_mem_map.mpr fun p hp => Name.outline_all (h.2.1 p hp).place
  | result _ _, h => Outline.all_node.mpr ⟨h.2, List.forall_mem_singleton.mpr h.1.outline_all⟩
  | collect _ _, h => Outline.all_node.mpr ⟨h.2, h.1.outlines_all⟩
  | loop _ _ _, h => by
    refine Outline.all_node.mpr ⟨h.2.2, List.forall_mem_append.mpr ⟨?_, BlockMadeOf.outline_all h.2.1⟩⟩
    exact List.forall_mem_map.mpr fun b hb => (h.1 b hb).outline_all
  | vary _ _ _, h => by
    refine Outline.all_node.mpr ⟨h.2.2, List.forall_mem_append.mpr ⟨?_, BlockMadeOf.outline_all h.2.1⟩⟩
    exact List.forall_mem_map.mpr fun v hv => (h.1 v hv).outline_all
  | region _ _ _ _ _, h => by
    refine Outline.all_node.mpr ⟨h.2.2.2.2, List.forall_mem_cons.mpr ⟨Name.outline_all h.1, ?_⟩⟩
    refine List.forall_mem_append.mpr ⟨List.forall_mem_append.mpr ⟨Expr.option_outline_all h.2.1, ?_⟩, ?_⟩
    · exact List.forall_mem_map.mpr fun a ha => (h.2.2.1 a ha).outline_all
    · exact BlockMadeOf.outline_all h.2.2.2.1
  | source _ _ _ _, h => by
    refine Outline.all_node.mpr ⟨h.2.2, List.forall_mem_append.mpr ⟨?_, BlockMadeOf.outline_all h.2.1⟩⟩
    exact List.forall_mem_map.mpr fun p hp => Outline.all_node.mpr ⟨h.1 p hp, nofun⟩

theorem BlockMadeOf.outline_all : ∀ {block : List Statement}, BlockMadeOf P block →
    ∀ o ∈ blockOutlines block, o.All P.span
  | [], _ => nofun
  | _ :: _, h => List.forall_mem_cons.mpr ⟨MadeOf.outline_all h.1, BlockMadeOf.outline_all h.2⟩

end

end Statement

theorem Program.MadeOf.outline_all {p : Program} (h : p.MadeOf P) : p.outline.All P.span :=
  Outline.all_node.mpr ⟨h.place, h.block.outline_all⟩

end Pieces

end RecordStats
