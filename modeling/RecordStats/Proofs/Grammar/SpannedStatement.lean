import RecordStats.Grammar.Statement
import RecordStats.Proofs.Grammar.MadeStatement
import RecordStats.Proofs.Grammar.SpannedExpression

/-! Reading a statement takes a phrase off the lexemes, and its spans are nested in the place of the phrase. So are
    those of a whole program: in whatever a text is read as, each node's span encloses those of all nodes below. -/

namespace RecordStats.Parser

variable {inner : Parser Statement} {s t u : List Lexeme} {a : Nat}

namespace TakesPhrase

/-! ### Axes and collectors -/

theorem axis : TakesPhrase Parser.axis fun s t a => a.outline.Between (here s) (here t) := by
  intro s hs
  refine (operand expression s hs).bind fun binning t ⟨ht, hbinning, _⟩ => ?_
  refine (Yields.expectAny _ _).bind ?_
  rintro _ _ ⟨harrow, -, rfl⟩
  obtain ⟨arrow, -⟩ := Phrase.single ht.ordered harrow rfl
  have head := ht.trans arrow
  refine (expression _ head.ordered).bind fun e u ⟨hu, he⟩ => .pure ⟨head.trans hu, ?_⟩
  have hbinning := hbinning.mono (Nat.le_refl _) (Nat.le_trans arrow.forward hu.forward)
  have joined := hbinning.join (he.mono head.forward (Nat.le_refl _))
  rwa [Expr.span_outline, Expr.span_outline] at joined

/-- Axes stand one after another; there may be none. -/
theorem axes : TakesPhrase Parser.axes fun s t as =>
    Outline.Backwards (here s) (here t) (as.map Axis.outline).reverse := by
  intro s hs
  refine .sees (.ite (fun halong => .advance ?_) fun _ => .pure ⟨.refl hs, .nil _ _⟩)
  obtain ⟨along, -⟩ := Phrase.single hs (Token.eq_of_isSymbol halong) rfl
  refine (axis _ along.ordered).bind fun first t ⟨ht, hfirst⟩ => ?_
  have one : Outline.Backwards (here s) (here t) ([first].map Axis.outline) :=
    .singleton (hfirst.mono along.forward (Nat.le_refl _))
  refine (Yields.repeatingKeeps (I := fun (sofar : List (Axis Expr)) t => Phrase s t ∧
    Outline.Backwards (here s) (here t) (sofar.map Axis.outline)) (fun sofar t ht => ?_)
    ⟨along.trans ht, one⟩).bind fun as t ⟨ht, has⟩ => .pure ⟨ht, ?_⟩
  · obtain ⟨ht, hsofar⟩ := ht
    refine .get (.ite (fun _ => ?_) fun _ => .pure ⟨nofun, fun _ => ⟨ht, hsofar⟩⟩)
    refine (axis t ht.ordered).bind fun a u ⟨hu, ha⟩ => .pure ⟨fun b hb => ?_, nofun⟩
    cases hb
    exact ⟨ht.trans hu, hsofar.cons ht.forward ha⟩
  · show Outline.Backwards _ _ (as.reverse.map Axis.outline).reverse
    rwa [List.map_reverse, List.reverse_reverse]

theorem define : TakesPhrase Parser.define fun s t d => d.outline.Between (here s) (here t) := by
  intro s hs
  refine (operand expression s hs).bind fun target t ⟨ht, htarget, _⟩ => ?_
  refine .sees (.ite (fun _ => ?_) fun _ => .anyUnexpected_bind _)
  refine (definition expression (functionBody expression) ht.ordered htarget).mono fun d u ⟨hu, hd, _⟩ => ?_
  exact ⟨ht.trans hu, hd⟩

/-- The outlines of a collector's parts, from the last one to the first. -/
def partsOf (c : Collector Expr) : List Outline :=
  (c.weight.map Expr.outline).toList ++ ((c.axes.map Axis.outline).reverse ++
    ((c.expression.map Expr.outline).toList ++ [c.name.outline]))

theorem mem_partsOf {c : Collector Expr} {o : Outline} (h : o ∈ c.outlines) : o ∈ partsOf c := by
  simp only [Collector.outlines, partsOf, Option.toList_map, List.mem_cons, List.mem_append, List.mem_reverse] at h ⊢
  tauto

/-- A collector ends with its last part. -/
theorem head_partsOf (c : Collector Expr) : ∃ p ∈ (partsOf c).head?,
    ((c.weight.map Expr.span) <|> c.axes.getLast?.map Axis.span <|> c.expression.map Expr.span).getD c.name.span =
      p.span := by
  obtain ⟨statistic, name, expression, axes, weight⟩ := c
  cases weight with
  | some e => exact ⟨e.outline, rfl, (Expr.span_outline e).symm⟩
  | none =>
    cases hlast : axes.getLast? with
    | some a =>
      refine ⟨a.outline, ?_, rfl⟩
      simp [partsOf, hlast]
    | none =>
      obtain rfl := List.getLast?_eq_none_iff.mp hlast
      cases expression with
      | some e => exact ⟨e.outline, rfl, (Expr.span_outline e).symm⟩
      | none => exact ⟨name.outline, rfl, rfl⟩

theorem collect (statistic : Statistic) (hs : InOrder s) {k : Token} (hfront : front s = k)
    (plain : k.isPlain = true) :
    Yields (fun _ => True) (Parser.collect statistic) s fun d t => Phrase s t ∧ d.outline.Between (here s) (here t) := by
  obtain ⟨keyword, start⟩ := Phrase.single hs hfront plain
  refine .advance (Yields.labelAny.bind ?_)
  rintro name _ ⟨hname, hplace, rfl⟩
  obtain ⟨label, place⟩ := Phrase.single keyword.ordered hname rfl
  have head := keyword.trans label
  have named : Outline.Backwards (here s) (here (behind (behind s))) [name.outline] :=
    .singleton (.leaf (hplace ▸ place.mono keyword.forward (Nat.le_refl _)))
  extract_lets finish
  -- What follows the label is read in the same way with and without an expression.
  have hfinish : ∀ measured u, Phrase (behind (behind s)) u →
      (∀ o ∈ measured.map Expr.outline, o.Between (here (behind (behind s))) (here u)) →
      Yields (fun _ => True) (finish measured) u fun d v => Phrase s v ∧ d.outline.Between (here s) (here v) := by
    intro measured u hu hmeasured
    have sofar := named.append head.forward (.optional hmeasured) hu.forward
    have past := head.trans hu
    refine (axes u past.ordered).bind fun as v ⟨hv, has⟩ => .sees ?_
    have sofar := sofar.append past.forward has hv.forward
    have past := past.trans hv
    have whole {weight : Option Expr} {w : List Lexeme} (hw : Phrase v w)
        (hweight : ∀ o ∈ weight.map Expr.outline, o.Between (here v) (here w)) :
        Phrase s w ∧ (Outline.node ((frontSpan s).join
          (((weight.map Expr.span) <|> as.getLast?.map Axis.span <|> measured.map Expr.span).getD name.span))
          (Collector.outlines ⟨statistic, name, measured, as, weight⟩)).Between (here s) (here w) := by
      have parts : Outline.Backwards (here s) (here w) (partsOf ⟨statistic, name, measured, as, weight⟩) :=
        sofar.append past.forward (.optional hweight) hw.forward
      obtain ⟨p, hp, hstop⟩ := head_partsOf ⟨statistic, name, measured, as, weight⟩
      rw [hstop]
      have forward := (label.trans hu).trans (hv.trans hw)
      refine ⟨past.trans hw, .stretch (start.mono (Nat.le_refl _) forward.forward) ?_ rfl fun o ho => ?_⟩
      · exact (parts.between p (List.mem_of_head? hp)).inside
      · exact parts.between_first hp o (mem_partsOf ho)
    refine .ite (fun hweight => .advance ?_) fun _ => .pure (whole (.refl hv.ordered) (by nofun))
    obtain ⟨mark, -⟩ := Phrase.single hv.ordered (Token.eq_of_isSymbol hweight) rfl
    refine (expression _ mark.ordered).bind fun e w ⟨hw, he⟩ => .pure (whole (mark.trans hw) fun o ho => ?_)
    obtain rfl := Option.some.inj ho
    exact he.mono mark.forward (Nat.le_refl _)
  split
  · exact hfinish none _ (.refl label.ordered) (by nofun)
  · refine (expression _ label.ordered).bind fun e u ⟨hu, he⟩ => hfinish (some e) u hu fun o ho => ?_
    obtain rfl := Option.some.inj ho
    exact he

/-! ### Blocks -/

/-- A parser of statements whose spans are nested in the place of the phrase. -/
abbrev SpansStatement (p : Parser Statement) : Prop :=
  TakesPhrase p fun s t d => d.outline.Between (here s) (here t)

theorem block (h : SpansStatement inner) (closed : Bool) : TakesPhrase (Parser.block inner closed) fun s t ds =>
    ∀ d ∈ ds, d.outline.Between (here s) (here t) := by
  intro s hs
  refine (Yields.repeatingKeeps (I := fun (sofar : List Statement × Bool) t => Phrase s t ∧
    ∀ d ∈ sofar.1, d.outline.Between (here s) (here t)) (fun sofar t ht => ?_) ⟨.refl hs, by nofun⟩).bind ?_
  · obtain ⟨ht, hsofar⟩ := ht
    refine (Yields.semicolonsAny ht.ordered).bind fun _ u hu => .current ?_
    have past := ht.trans hu
    have sofar_past : ∀ d ∈ sofar.1, d.outline.Between (here s) (here u) := fun d hd =>
      (hsofar d hd).mono (Nat.le_refl _) hu.forward
    split
    · exact .pure ⟨nofun, fun _ => ⟨past, sofar_past⟩⟩
    · refine .ite (fun _ => .pure ⟨nofun, fun _ => ⟨past, sofar_past⟩⟩) fun _ => ?_
      refine (Yields.requireSeparatorAny _).bind ?_
      rintro _ v rfl
      refine (h _ past.ordered).bind fun d w ⟨hw, hd⟩ => .pure ⟨fun b hb => ?_, nofun⟩
      cases hb
      refine ⟨past.trans hw, List.forall_mem_cons.mpr ⟨hd.mono past.forward (Nat.le_refl _), fun c hc => ?_⟩⟩
      exact (sofar_past c hc).mono (Nat.le_refl _) hw.forward
  · rintro ⟨reversed, separated⟩ t ⟨ht, hreversed⟩
    exact .pure ⟨ht, fun d hd => hreversed d (List.mem_reverse.mp hd)⟩

/-- The statements of a block in braces end before the closing one. -/
theorem braced (h : SpansStatement inner) : TakesPhrase (Parser.braced inner) fun s t r =>
    (∀ o ∈ Statement.blockOutlines r.1, o.Between (here s) r.2.last.offset) ∧ r.2.Inside (here s) (here t) := by
  intro s hs
  refine (Yields.expectAny _ _).bind ?_
  rintro _ _ ⟨hopening, -, rfl⟩
  obtain ⟨opening, -⟩ := Phrase.single hs hopening rfl
  refine (block h true _ opening.ordered).bind fun ds t ⟨ht, hds⟩ => ?_
  refine (Yields.expectAny _ _).bind ?_
  rintro _ _ ⟨hclosing, rfl, rfl⟩
  obtain ⟨closing, place⟩ := Phrase.single ht.ordered hclosing rfl
  have inner := opening.trans ht
  refine .pure ⟨inner.trans closing, ?_, place.mono inner.forward (Nat.le_refl _)⟩
  rw [Statement.blockOutlines_eq_map]
  exact List.forall_mem_map.mpr fun d hd =>
    (hds d hd).mono opening.forward (Nat.le_trans place.first_le place.ordered)

theorem separatedByCommas {α : Type} {one : Parser α} {outline : α → Outline}
    (h : TakesPhrase one fun s t a => (outline a).Between (here s) (here t)) :
    TakesPhrase (Parser.separatedByCommas one) fun s t as => ∀ a ∈ as, (outline a).Between (here s) (here t) := by
  intro s hs
  refine (h s hs).bind fun first t ⟨ht, hfirst⟩ => ?_
  refine (Yields.repeatingKeeps (I := fun (sofar : List α) t => Phrase s t ∧
    ∀ a ∈ sofar, (outline a).Between (here s) (here t)) (fun sofar u hu => ?_)
    ⟨ht, List.forall_mem_singleton.mpr hfirst⟩).bind fun as u ⟨hu, has⟩ => ?_
  · obtain ⟨hu, hsofar⟩ := hu
    refine .sees (.ite (fun hcomma => .advance ?_) fun _ => .pure ⟨nofun, fun _ => ⟨hu, hsofar⟩⟩)
    obtain ⟨comma, -⟩ := Phrase.single hu.ordered (Token.eq_of_isSymbol hcomma) rfl
    have past := hu.trans comma
    refine (h _ past.ordered).bind fun a v ⟨hv, ha⟩ => .pure ⟨fun b hb => ?_, nofun⟩
    cases hb
    refine ⟨past.trans hv, List.forall_mem_cons.mpr ⟨ha.mono past.forward (Nat.le_refl _), fun b hb => ?_⟩⟩
    exact (hsofar b hb).mono (Nat.le_refl _) (Nat.le_trans comma.forward hv.forward)
  · exact .pure ⟨hu, fun a ha => has a (List.mem_reverse.mp ha)⟩

/-! ### Statements with a block -/

theorem pattern : TakesPhrase Parser.pattern fun s t p => p.outline.Between (here s) (here t) := by
  intro s hs
  refine Yields.labelAny.bind ?_
  rintro name _ ⟨hname, hplace, rfl⟩
  obtain ⟨label, place⟩ := Phrase.single hs hname rfl
  split
  · exact .pure ⟨label, .leaf (hplace ▸ place)⟩
  · exact .anyFault

/-- What stands before a block in braces, and the block. -/
theorem blocked {start : Span} {r : List Statement × Span} {b : Nat} (hstart : start.Inside a (here t))
    (ha : start.first.offset = a) {parts : List Outline} (hparts : ∀ o ∈ parts, o.Between a (here t))
    (hblock : ∀ o ∈ Statement.blockOutlines r.1, o.Between (here t) r.2.last.offset) (hstop : r.2.Inside (here t) b) :
    (Outline.node (start.join r.2) (parts ++ Statement.blockOutlines r.1)).Between a b := by
  have before : a ≤ here t := Nat.le_trans hstart.first_le (Nat.le_trans hstart.ordered hstart.last_le)
  have within := Nat.le_trans hstop.first_le hstop.ordered
  refine .stretch (hstart.mono (Nat.le_refl _) (Nat.le_trans within hstop.last_le))
    (hstop.mono before (Nat.le_refl _)) ha (List.forall_mem_append.mpr ⟨fun o ho => ?_, fun o ho => ?_⟩)
  · exact (hparts o ho).mono (Nat.le_refl _) within
  · exact (hblock o ho).mono before (Nat.le_refl _)

theorem source (h : SpansStatement inner) (inclusive : Bool) {start : Span} (hs : Phrase s t)
    (hstart : start.Inside (here s) (here t)) (ha : start.first.offset = here s) :
    Yields (fun _ => True) (Parser.source inner inclusive start) t fun d u =>
      Phrase s u ∧ d.outline.Between (here s) (here u) := by
  refine (separatedByCommas pattern _ hs.ordered).bind fun patterns u ⟨hu, hpatterns⟩ => ?_
  refine (braced h _ hu.ordered).bind ?_
  rintro ⟨block, closing⟩ v ⟨hv, hblock, hclosing⟩
  refine .pure ⟨(hs.trans hu).trans hv, blocked (hstart.mono (Nat.le_refl _) hu.forward) ha ?_ hblock hclosing⟩
  exact List.forall_mem_map.mpr fun p hp => (hpatterns p hp).mono hs.forward (Nat.le_refl _)

theorem region (h : SpansStatement inner) (hs : InOrder s) {k : Token} (hfront : front s = k)
    (plain : k.isPlain = true) :
    Yields (fun _ => True) (Parser.region inner) s fun d t => Phrase s t ∧ d.outline.Between (here s) (here t) := by
  obtain ⟨keyword, start⟩ := Phrase.single hs hfront plain
  refine .advance (Yields.labelAny.bind ?_)
  rintro name _ ⟨hname, hplace, rfl⟩
  obtain ⟨label, place⟩ := Phrase.single keyword.ordered hname rfl
  have head := keyword.trans label
  refine .sees (.sees ?_)
  extract_lets finish
  -- What follows the label is read in the same way with and without a predicate.
  have hfinish : ∀ predicate u, Phrase (behind (behind s)) u →
      (∀ o ∈ predicate.toList.map Expr.outline, o.Between (here (behind (behind s))) (here u)) →
      Yields (fun _ => True) (finish predicate) u fun d v => Phrase s v ∧ d.outline.Between (here s) (here v) := by
    intro predicate u hu hpredicate
    refine (axes u hu.ordered).bind fun as v ⟨hv, has⟩ => ?_
    refine (braced h v hv.ordered).bind ?_
    rintro ⟨block, closing⟩ w ⟨hw, hblock, hclosing⟩
    have forward := hu.forward
    have forward' := hv.forward
    have past := head.trans hu
    refine .pure ⟨(past.trans hv).trans hw, ?_⟩
    have parts : ∀ o ∈ name.outline :: (predicate.toList.map Expr.outline ++ as.map Axis.outline),
        o.Between (here s) (here v) := by
      refine List.forall_mem_cons.mpr ⟨.leaf ?_, List.forall_mem_append.mpr ⟨fun o ho => ?_, fun o ho => ?_⟩⟩
      · rw [hplace]
        exact place.mono keyword.forward (Nat.le_trans forward forward')
      · exact (hpredicate o ho).mono head.forward forward'
      · exact (has.between o (List.mem_reverse.mpr ho)).mono past.forward (Nat.le_refl _)
    exact blocked (start.mono (Nat.le_refl _) ((label.trans hu).trans hv).forward) rfl parts hblock hclosing
  refine .ite (fun _ => hfinish none _ (.refl label.ordered) (by nofun)) fun _ => ?_
  refine (expression _ label.ordered).bind fun e u ⟨hu, he⟩ => hfinish (some e) u hu ?_
  exact List.forall_mem_singleton.mpr he

theorem binding {target : Name} {e : Expr} {b : Nat} (hplace : target.span.Inside a b) (he : e.outline.Between a b) :
    (Binding.outline ⟨target, e, target.span.join e.span⟩).Between a b := by
  have joined := (Outline.Between.leaf hplace).join he
  rwa [Expr.span_outline] at joined

theorem loopVariable : TakesPhrase Parser.loopVariable fun s t b => b.outline.Between (here s) (here t) := by
  intro s hs
  refine Yields.identifierAny.bind ?_
  rintro target _ ⟨htarget, hplace, rfl⟩
  obtain ⟨single, place⟩ := Phrase.single hs htarget rfl
  refine (Yields.expectAny _ _).bind ?_
  rintro _ _ ⟨hwithin, -, rfl⟩
  obtain ⟨within, -⟩ := Phrase.single single.ordered hwithin rfl
  have head := single.trans within
  refine (expression _ head.ordered).bind fun e t ⟨ht, he⟩ => .pure ⟨head.trans ht, binding ?_ ?_⟩
  · rw [hplace]
    exact place.mono (Nat.le_refl _) (Nat.le_trans within.forward ht.forward)
  · exact he.mono head.forward (Nat.le_refl _)

/-- The assignments so far, from the last one to the first. -/
theorem assignmentStep (ht : Phrase s t) {sofar : List (Binding Expr) × Bool}
    (hsofar : Outline.Backwards (here s) (here t) (sofar.1.map Binding.outline)) :
    Yields (fun _ => True) (Parser.assignmentStep sofar) t fun r u =>
      (∀ c ∈ r, Phrase s u ∧ Outline.Backwards (here s) (here u) (c.1.map Binding.outline)) ∧
        (r = none → Phrase s u ∧ Outline.Backwards (here s) (here u) (sofar.1.map Binding.outline)) := by
  refine .current ?_
  split
  · next htoken =>
    obtain ⟨semicolon, -⟩ := Phrase.single ht.ordered htoken rfl
    refine .advance (.pure ⟨fun c hc => ?_, nofun⟩)
    cases hc
    have later := hsofar.append ht.forward (Outline.Backwards.nil _ _) semicolon.forward
    exact ⟨ht.trans semicolon, later⟩
  · refine (Yields.requireSeparatorAny _).bind ?_
    rintro _ u rfl
    refine Yields.identifierAny.bind ?_
    rintro target _ ⟨htarget, hplace, rfl⟩
    obtain ⟨single, place⟩ := Phrase.single ht.ordered htarget rfl
    refine (Yields.expectAny _ _).bind ?_
    rintro _ _ ⟨hdefine, -, rfl⟩
    obtain ⟨define, -⟩ := Phrase.single single.ordered hdefine rfl
    have head := single.trans define
    refine (expression _ head.ordered).bind fun e v ⟨hv, he⟩ => .pure ⟨fun c hc => ?_, nofun⟩
    cases hc
    refine ⟨ht.trans (head.trans hv), hsofar.cons ht.forward (binding ?_ (he.mono head.forward (Nat.le_refl _)))⟩
    rw [hplace]
    exact place.mono (Nat.le_refl _) (Nat.le_trans define.forward hv.forward)
  · exact .pure ⟨nofun, fun _ => ⟨ht, hsofar⟩⟩

theorem variation : TakesPhrase Parser.variation fun s t v => v.outline.Between (here s) (here t) := by
  intro s hs
  refine Yields.labelAny.bind ?_
  rintro name _ ⟨hname, hplace, rfl⟩
  obtain ⟨label, place⟩ := Phrase.single hs hname rfl
  refine .sees ?_
  extract_lets finish
  have hfinish : ∀ labelled u, Phrase (behind s) u → labelled.Inside (here s) (here u) →
      (frontSpan s).last.offset ≤ labelled.last.offset →
      Yields (fun _ => True) (finish labelled) u fun v w => Phrase s w ∧ v.outline.Between (here s) (here w) := by
    intro labelled u hu hlabelled hlast
    refine (Yields.repeatingKeeps (I := fun (sofar : List (Binding Expr) × Bool) w => Phrase u w ∧
      Outline.Backwards (here u) (here w) (sofar.1.map Binding.outline))
      (fun sofar w hw => assignmentStep hw.1 hw.2) ⟨.refl hu.ordered, .nil _ _⟩).bind ?_
    rintro ⟨reversed, separated⟩ w ⟨hw, hreversed⟩
    have past := label.trans (hu.trans hw)
    have name_le : (frontSpan s).last.offset ≤ here u := Nat.le_trans place.last_le hu.forward
    -- The variation ends with its last assignment, and with its label if it has none.
    have stop : ((reversed.head?.map Binding.span).getD labelled).Inside (here s) (here w) ∧
        name.span.last.offset ≤ ((reversed.head?.map Binding.span).getD labelled).last.offset ∧
        ∀ b ∈ reversed, b.outline.Between (here s) ((reversed.head?.map Binding.span).getD labelled).last.offset := by
      rw [hplace]
      cases reversed with
      | nil => exact ⟨hlabelled.mono (Nat.le_refl _) hw.forward, hlast, by nofun⟩
      | cons b rest =>
        have inside := (hreversed.between _ List.mem_cons_self).inside
        have before := (label.trans hu).forward
        refine ⟨inside.mono before (Nat.le_refl _), ?_, fun c hc => ?_⟩
        · exact Nat.le_trans name_le (Nat.le_trans inside.first_le inside.ordered)
        · exact (hreversed.between_first rfl _ (List.mem_map_of_mem hc)).mono before (Nat.le_refl _)
    obtain ⟨inside, name_le, bindings⟩ := stop
    have start : name.span.Inside (here s) (here w) := by
      rw [hplace]
      exact place.mono (Nat.le_refl _) (hu.trans hw).forward
    refine .pure ⟨past, .stretch start inside (hplace ▸ rfl) (List.forall_mem_cons.mpr ⟨.leaf ?_, ?_⟩)⟩
    · exact ⟨start.first_le, start.ordered, name_le⟩
    · exact List.forall_mem_map.mpr fun b hb => bindings b (List.mem_reverse.mp hb)
  refine .ite (fun hcolon => .advance ?_) fun _ => hfinish _ _ (.refl label.ordered) ?_ ?_
  · obtain ⟨colon, mark⟩ := Phrase.single label.ordered (Token.eq_of_isSymbol hcolon) rfl
    refine hfinish _ _ colon (mark.mono label.forward (Nat.le_refl _)) ?_
    exact Nat.le_trans place.last_le (Nat.le_trans mark.first_le mark.ordered)
  · exact hplace ▸ place
  · exact hplace ▸ Nat.le_refl _

theorem vary (h : SpansStatement inner) (hs : InOrder s) {k : Token} (hfront : front s = k)
    (plain : k.isPlain = true) :
    Yields (fun _ => True) (Parser.vary inner) s fun d t => Phrase s t ∧ d.outline.Between (here s) (here t) := by
  obtain ⟨keyword, start⟩ := Phrase.single hs hfront plain
  refine .advance ?_
  refine (Yields.repeatingKeeps (I := fun (sofar : List (Variation Expr)) t => Phrase (behind s) t ∧
    ∀ v ∈ sofar, v.outline.Between (here s) (here t)) (fun sofar t ht => ?_)
    ⟨.refl keyword.ordered, by nofun⟩).bind fun vs t ⟨ht, hvs⟩ => ?_
  · obtain ⟨ht, hsofar⟩ := ht
    refine .current ?_
    split
    · refine (variation t ht.ordered).bind fun v u ⟨hu, hv⟩ => .pure ⟨fun b hb => ?_, nofun⟩
      cases hb
      have before := (keyword.trans ht).forward
      refine ⟨ht.trans hu, List.forall_mem_cons.mpr ⟨hv.mono before (Nat.le_refl _), fun w hw => ?_⟩⟩
      exact (hsofar w hw).mono (Nat.le_refl _) hu.forward
    · exact .pure ⟨nofun, fun _ => ⟨ht, hsofar⟩⟩
  · refine .ite (fun _ => .anyUnexpected_bind _) fun _ => ?_
    refine (braced h t ht.ordered).bind ?_
    rintro ⟨block, closing⟩ u ⟨hu, hblock, hclosing⟩
    refine .pure ⟨(keyword.trans ht).trans hu, ?_⟩
    refine blocked (start.mono (Nat.le_refl _) ht.forward) rfl ?_ hblock hclosing
    exact List.forall_mem_map.mpr fun v hv => hvs v (List.mem_reverse.mp hv)

theorem loop (h : SpansStatement inner) (hs : InOrder s) {k : Token} (hfront : front s = k)
    (plain : k.isPlain = true) :
    Yields (fun _ => True) (Parser.loop inner) s fun d t => Phrase s t ∧ d.outline.Between (here s) (here t) := by
  obtain ⟨keyword, start⟩ := Phrase.single hs hfront plain
  refine .advance ((separatedByCommas loopVariable _ keyword.ordered).bind fun ranges t ⟨ht, hranges⟩ => ?_)
  refine (braced h t ht.ordered).bind ?_
  rintro ⟨block, closing⟩ u ⟨hu, hblock, hclosing⟩
  refine .pure ⟨(keyword.trans ht).trans hu, blocked (start.mono (Nat.le_refl _) ht.forward) rfl ?_ hblock hclosing⟩
  exact List.forall_mem_map.mpr fun b hb => (hranges b hb).mono keyword.forward (Nat.le_refl _)

theorem statementWithin (allowed : Nat) : SpansStatement (Parser.statementWithin allowed) := by
  induction allowed with
  | zero => exact fun _ _ => .stops _
  | succ allowed ih =>
    intro s hs
    refine .current ?_
    split
    · next htoken => exact collect _ hs htoken rfl
    · next htoken => exact collect _ hs htoken rfl
    · next htoken => exact collect _ hs htoken rfl
    · next htoken => exact collect _ hs htoken rfl
    · next htoken =>
      obtain ⟨keyword, start⟩ := Phrase.single hs htoken rfl
      exact .advance (source ih _ keyword start rfl)
    · next htoken =>
      obtain ⟨negated, start⟩ := Phrase.single hs htoken rfl
      refine .get (.ite (fun hsource => .advance (.advance ?_)) fun _ => define s hs)
      rw [← hs.front_behind (by rw [htoken]; nofun)] at hsource
      obtain ⟨keyword, -⟩ := Phrase.single negated.ordered (Token.eq_of_isSymbol hsource) rfl
      exact source ih _ (negated.trans keyword) (start.mono (Nat.le_refl _) keyword.forward) rfl
    · next htoken => exact region ih hs htoken rfl
    · next htoken => exact vary ih hs htoken rfl
    · next htoken => exact loop ih hs htoken rfl
    · exact define s hs

theorem statement : SpansStatement Parser.statement := fun s hs => .get (statementWithin _ s hs)

theorem program (hs : InOrder s) : Yields (fun _ => True) Parser.program s fun p _ => p.outline.Nested := by
  refine .currentSpan ((block statement false _ hs).bind fun ds t ⟨ht, hds⟩ => ?_)
  refine Yields.expectFinishAny.bind fun _ _ _ => .pure (.node ?_ ?_)
  · rw [Statement.blockOutlines_eq_map]
    refine List.forall_mem_map.mpr fun d hd => ?_
    rw [Statement.span_outline]
    exact (Span.encloses_foldl _).2 d hd
  · rw [Statement.blockOutlines_eq_map]
    exact List.forall_mem_map.mpr fun d hd => (hds d hd).nested

theorem wholeExpression (hs : InOrder s) :
    Yields (fun _ => True) Parser.wholeExpression s fun e _ => e.outline.Nested :=
  (expression s hs).bind fun _ _ ⟨_, he⟩ => Yields.expectFinishAny.bind fun _ _ _ => .pure he.nested

end TakesPhrase

end RecordStats.Parser
