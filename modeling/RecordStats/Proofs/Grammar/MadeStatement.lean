import RecordStats.Grammar.Statement
import RecordStats.Proofs.Grammar.MadeExpression
import RecordStats.Proofs.Source.Scan

/-! Reading a text gives a program that is made of pieces of the text, or a fault: an illegal character, or something
    unexpected at one of the pieces. The reader never gives up for another reason. -/

namespace RecordStats

namespace Parser

open Statement

variable {P : Pieces} {most : Nat} {inner : Parser Statement} {read : Parser Expr} {s t : List Lexeme}

namespace Takes

/-! ### Axes and collectors -/

theorem openAxis (hP : P.Closed) {binned : Parser Expr} (hbinned : TakesExpr P (most + 1) binned)
    (h : TakesExpr P most read) : Takes P (most + 1) (Parser.Open.axis binned read) (Axis.MadeOf P) := by
  intro s hs few
  refine (hbinned s hs few).bind fun binning t ⟨ht, hbinning⟩ => ?_
  refine (Yields.expect ht.stream _ _).bind fun _ u ⟨hu, _⟩ => ?_
  have past := ht.trans hu
  refine (h u hu.stream (by have := past.shorter; omega)).bind fun e v ⟨hv, he⟩ => .pure ?_
  exact ⟨past.trans hv, hbinning, he, hP.join _ _ hbinning.span he.span⟩

theorem axis (hP : P.Closed) : Takes P most Parser.axis (Axis.MadeOf P) :=
  (openAxis hP (operand hP (expression hP)) (expression hP)).fewer (Nat.le_succ _)

/-- Axes may be missing. -/
theorem openAxes {one : Parser (Axis Expr)} (h : Takes P most one (Axis.MadeOf P)) :
    TakesList P (most + 1) (Parser.Open.axes one) (Axis.MadeOf P) := by
  intro s hs few
  refine .sees (.ite (fun halong => .advance ?_) fun _ => .pure ⟨hs, Nat.le_refl _, fun h => absurd rfl h, nofun⟩)
  have ht := hs.past_of_sees halong
  generalize behind s = t at ht
  have shorter := ht.shorter
  refine (h t ht.stream (by omega)).bind fun first u ⟨hu, hfirst⟩ => ?_
  have shorter' := hu.shorter
  refine (Yields.repeatingTakes (M := fun as : List (Axis Expr) => ∀ a ∈ as, a.MadeOf P) hu.stream
    (List.forall_mem_singleton.mpr hfirst) fun sofar v hsofar hv few => ?_).bind fun as v ⟨hv, fewer, has⟩ => ?_
  · refine .get (.ite (fun _ => ?_) fun _ => .pure ⟨nofun, fun _ => ⟨hv, Nat.le_refl _⟩⟩)
    refine (h v hv (by omega)).bind fun a w ⟨hw, ha⟩ => ?_
    refine .pure ⟨fun b hb => ?_, nofun⟩
    cases hb
    exact ⟨hw, List.forall_mem_cons.mpr ⟨ha, hsofar⟩⟩
  · exact .pure ⟨hv, by omega, fun _ => by omega, fun a ha => has a (List.mem_reverse.mp ha)⟩

theorem axes (hP : P.Closed) : TakesList P most Parser.axes (Axis.MadeOf P) := fun s hs _ =>
  openAxes (axis hP) s hs (Nat.le_succ _)

/-- A parser of statements that are made of pieces. -/
abbrev TakesStatement (P : Pieces) (most : Nat) (p : Parser Statement) : Prop := Takes P most p (Statement.MadeOf P)

theorem openDefine {target : Parser Expr} {define : Expr → Parser Statement} (h : TakesExpr P (most + 1) target)
    (hdefine : Defines P most define) : TakesStatement P (most + 1) (Parser.Open.define target define) := by
  intro s hs few
  refine (h s hs few).bind fun target t ⟨ht, htarget⟩ => ?_
  refine .sees (.ite (fun _ => ?_) fun _ => .unexpected_bind ht.stream _)
  refine (hdefine htarget t ht.stream (by have := ht.shorter; omega)).mono fun d u ⟨hu, hd, _⟩ => ?_
  exact ⟨ht.trans hu, hd⟩

theorem define (hP : P.Closed) : TakesStatement P most Parser.define := by
  have read : Takes P most (Parser.functionBody Parser.expression) (Body P) := functionBody hP (expression hP)
  have defines : Defines P (most + 1) (Parser.definition Parser.expression (Parser.functionBody Parser.expression)) :=
    definition hP (expression hP) read
  exact (openDefine (operand hP (expression hP)) (defines.fewer (Nat.le_succ _))).fewer (Nat.le_succ _)

/-- The place of the last part that is there. -/
theorem collectorStop {weight : Option Expr} {axes : List (Axis Expr)} {measured : Option Expr} {name : Name}
    (hweight : ∀ e ∈ weight, e.MadeOf P) (haxes : ∀ a ∈ axes, a.MadeOf P) (hmeasured : ∀ e ∈ measured, e.MadeOf P)
    (hname : P.span name.span) :
    P.span (((weight.map Expr.span) <|> axes.getLast?.map Axis.span <|> measured.map Expr.span).getD name.span) := by
  cases weight with
  | some e => exact (hweight e rfl).span
  | none =>
    cases hlast : axes.getLast? with
    | some a => exact (haxes a (List.mem_of_getLast? hlast)).place
    | none =>
      cases measured with
      | some e => exact (hmeasured e rfl).span
      | none => exact hname

theorem openCollect (hP : P.Closed) {along : Parser (List (Axis Expr))} (h : TakesExpr P most read)
    (haxes : TakesList P most along (Axis.MadeOf P)) (statistic : Statistic) :
    TakesStatement P (most + 1) (Parser.Open.collect read along statistic) := by
  intro s hs few
  refine .advance ((Yields.label hs.behind).bind fun name t ⟨ht, hname⟩ => ?_)
  have past : Past P s t := ⟨ht.stream, Nat.lt_of_lt_of_le ht.shorter (Stream.length_behind s)⟩
  have shorter := past.shorter
  extract_lets finish
  have hfinish : ∀ measured u, Stream P u → u.length ≤ t.length → (∀ e ∈ measured, e.MadeOf P) →
      Yields (Halt.Placed P) (finish measured) u fun d v => Past P s v ∧ d.MadeOf P := by
    intro measured u hu fewer hmeasured
    refine (haxes u hu (by omega)).bind fun as v ⟨hv, fewer', _, has⟩ => .sees ?_
    have hv' : Past P s v := ⟨hv, by omega⟩
    refine .ite (fun hweight => .advance ?_) fun _ => .pure ⟨hv', ?_⟩
    · have hw := hv.past_of_sees hweight
      refine (h _ hw.stream (by have := hw.shorter; omega)).bind fun e w ⟨hw', he⟩ => ?_
      have hweight : ∀ f ∈ some e, f.MadeOf P := fun f hf => by
        cases hf
        exact he
      refine .pure ⟨(hv'.trans hw).trans hw', ⟨hname, hmeasured, has, hweight⟩, ?_⟩
      exact hP.join _ _ hs.frontSpan (collectorStop hweight has hmeasured hname)
    · exact ⟨⟨hname, hmeasured, has, nofun⟩, hP.join _ _ hs.frontSpan (collectorStop (by nofun) has hmeasured hname)⟩
  split
  · exact hfinish none t ht.stream (Nat.le_refl _) nofun
  · refine (h t ht.stream (by omega)).bind fun e u ⟨hu, he⟩ => ?_
    refine hfinish (some e) u hu.stream (Nat.le_of_lt hu.shorter) fun f hf => ?_
    cases hf
    exact he

theorem collect (hP : P.Closed) (statistic : Statistic) : TakesStatement P most (Parser.collect statistic) :=
  (openCollect hP (expression hP) (axes hP) statistic).fewer (Nat.le_succ _)

/-! ### Blocks -/

theorem blockStep (h : TakesStatement P most inner) (closed : Bool) (hs : Stream P s) (few : s.length ≤ most)
    {sofar : List Statement × Bool} (hsofar : ∀ d ∈ sofar.1, d.MadeOf P) :
    Yields (Halt.Placed P) (Parser.blockStep inner closed sofar) s fun r t =>
      (∀ b ∈ r, Past P s t ∧ ∀ d ∈ b.1, d.MadeOf P) ∧ (r = none → Stream P t ∧ t.length ≤ s.length) := by
  refine (Yields.semicolons hs).bind fun _ t ⟨ht, fewer⟩ => .current ?_
  split
  · exact .pure ⟨nofun, fun _ => ⟨ht, fewer⟩⟩
  · refine .ite (fun _ => .pure ⟨nofun, fun _ => ⟨ht, fewer⟩⟩) fun _ => ?_
    refine (Yields.requireSeparator ht _).bind fun _ u hu => ?_
    subst hu
    refine (h u ht (by omega)).bind fun d v ⟨hv, hd⟩ => ?_
    refine .pure ⟨fun b hb => ?_, nofun⟩
    cases hb
    exact ⟨⟨hv.stream, Nat.lt_of_lt_of_le hv.shorter fewer⟩, List.forall_mem_cons.mpr ⟨hd, hsofar⟩⟩

theorem block (h : TakesStatement P most inner) (closed : Bool) :
    TakesList P most (Parser.block inner closed) (Statement.MadeOf P) := by
  intro s hs few
  refine (Yields.repeatingMore (M := fun sofar : List Statement × Bool => ∀ d ∈ sofar.1, d.MadeOf P) hs (by nofun)
    fun sofar t hsofar ht fewer => blockStep h closed ht (by omega) hsofar).bind ?_
  rintro ⟨reversed, separated⟩ t ⟨ht, fewer, more, hreversed⟩
  refine .pure ⟨ht, fewer, fun hne => more fun hnil => ?_, fun d hd => hreversed d (List.mem_reverse.mp hd)⟩
  exact hne (List.reverse_eq_nil_iff.mpr (Prod.mk.inj hnil).1)

/-- A block in braces and the place of the closing one. -/
abbrev Braced (P : Pieces) (r : List Statement × Span) : Prop := BlockMadeOf P r.1 ∧ P.span r.2

theorem openBraced {block : Parser (List Statement)} (h : TakesList P most block (Statement.MadeOf P)) :
    Takes P (most + 1) (Parser.Open.braced block) (Braced P) := by
  intro s hs few
  refine (Yields.expect hs _ _).bind fun _ t ⟨ht, _⟩ => ?_
  have shorter := ht.shorter
  refine (h t ht.stream (by omega)).bind fun ds u ⟨hu, fewer, _, hds⟩ => ?_
  refine (Yields.expect hu _ _).bind fun closing v ⟨hv, hclosing⟩ => .pure ⟨⟨hv.stream, ?_⟩, ?_, hclosing⟩
  · have := hv.shorter
    omega
  · exact blockMadeOf_iff.mpr hds

theorem braced (h : TakesStatement P most inner) : Takes P (most + 1) (Parser.braced inner) (Braced P) :=
  openBraced (block h true)

theorem separatedByCommas {α : Type} {one : Parser α} {M : α → Prop} (h : Takes P most one M) :
    Takes P most (Parser.separatedByCommas one) fun as => ∀ a ∈ as, M a := by
  intro s hs few
  refine (h s hs few).bind fun first t ⟨ht, hfirst⟩ => ?_
  have shorter := ht.shorter
  refine (Yields.repeatingTakes (M := fun as : List α => ∀ a ∈ as, M a) ht.stream
    (List.forall_mem_singleton.mpr hfirst) fun sofar u hsofar hu fewer => ?_).bind fun as u ⟨hu, fewer, has⟩ => ?_
  · refine .sees (.ite (fun hcomma => .advance ?_) fun _ => .pure ⟨nofun, fun _ => ⟨hu, Nat.le_refl _⟩⟩)
    have hv := hu.past_of_sees hcomma
    have shorter' := hv.shorter
    refine (h _ hv.stream (by omega)).bind fun a w ⟨hw, ha⟩ => ?_
    refine .pure ⟨fun b hb => ?_, nofun⟩
    cases hb
    exact ⟨hv.trans hw, List.forall_mem_cons.mpr ⟨ha, hsofar⟩⟩
  · exact .pure ⟨⟨hu, by omega⟩, fun a ha => has a (List.mem_reverse.mp ha)⟩

/-! ### Statements with a block -/

theorem pattern : Takes P most Parser.pattern fun p => P.span p.span := by
  intro s hs few
  refine (Yields.label hs).bind fun name t ⟨ht, hname⟩ => ?_
  split
  · exact .pure ⟨ht, hname⟩
  · exact .fault hname

variable {within : Parser (List Statement × Span)}

theorem openSource (hP : P.Closed) (h : Takes P most within (Braced P)) (inclusive : Bool) {start : Span}
    (hstart : P.span start) : TakesStatement P (most + 1) (Parser.Open.source within inclusive start) := by
  intro s hs few
  refine (separatedByCommas pattern s hs few).bind fun patterns t ⟨ht, hpatterns⟩ => ?_
  refine (h t ht.stream (by have := ht.shorter; omega)).bind ?_
  rintro ⟨block, closing⟩ u ⟨hu, hblock, hclosing⟩
  exact .pure ⟨ht.trans hu, hpatterns, hblock, hP.join _ _ hstart hclosing⟩

theorem source (hP : P.Closed) (h : TakesStatement P most inner) (inclusive : Bool) {start : Span}
    (hstart : P.span start) : TakesStatement P (most + 1) (Parser.source inner inclusive start) :=
  openSource hP ((braced h).fewer (Nat.le_succ _)) inclusive hstart

theorem openRegion (hP : P.Closed) {along : Parser (List (Axis Expr))} (h : TakesExpr P most read)
    (haxes : TakesList P most along (Axis.MadeOf P)) (hblock : Takes P most within (Braced P)) :
    TakesStatement P (most + 1) (Parser.Open.region read along within) := by
  intro s hs few
  refine .advance ((Yields.label hs.behind).bind fun name t ⟨ht, hname⟩ => .sees (.sees ?_))
  have past : Past P s t := ⟨ht.stream, Nat.lt_of_lt_of_le ht.shorter (Stream.length_behind s)⟩
  have shorter := past.shorter
  extract_lets finish
  have hfinish : ∀ predicate u, Stream P u → u.length ≤ t.length → (∀ e ∈ predicate, e.MadeOf P) →
      Yields (Halt.Placed P) (finish predicate) u fun d v => Past P s v ∧ d.MadeOf P := by
    intro predicate u hu fewer hpredicate
    refine (haxes u hu (by omega)).bind fun as v ⟨hv, fewer', _, has⟩ => ?_
    refine (hblock v hv (by omega)).bind ?_
    rintro ⟨block, closing⟩ w ⟨hw, hblock, hclosing⟩
    have shorter' := hw.shorter
    exact .pure ⟨⟨hw.stream, by omega⟩, hname, hpredicate, has, hblock, hP.join _ _ hs.frontSpan hclosing⟩
  refine .ite (fun _ => hfinish none t ht.stream (Nat.le_refl _) nofun) fun _ => ?_
  refine (h t ht.stream (by omega)).bind fun e u ⟨hu, he⟩ => ?_
  refine hfinish (some e) u hu.stream (Nat.le_of_lt hu.shorter) fun f hf => ?_
  cases hf
  exact he

theorem region (hP : P.Closed) (h : TakesStatement P most inner) :
    TakesStatement P (most + 1) (Parser.region inner) :=
  openRegion hP (expression hP) (axes hP) ((braced h).fewer (Nat.le_succ _))

theorem assignmentStep (hP : P.Closed) (h : TakesExpr P most read) (hs : Stream P s) (few : s.length ≤ most + 1)
    {sofar : List (Binding Expr) × Bool} (hsofar : ∀ b ∈ sofar.1, b.MadeOf P) :
    Yields (Halt.Placed P) (Parser.Open.assignmentStep read sofar) s fun r t =>
      (∀ c ∈ r, Past P s t ∧ ∀ b ∈ c.1, b.MadeOf P) ∧ (r = none → Stream P t ∧ t.length ≤ s.length) := by
  refine .current ?_
  split
  · next htoken =>
    refine .advance (.pure ⟨fun c hc => ?_, nofun⟩)
    cases hc
    exact ⟨hs.past (by rw [htoken]; nofun), hsofar⟩
  · refine (Yields.requireSeparator hs _).bind fun _ t ht => ?_
    subst ht
    refine (Yields.identifier hs).bind fun target u ⟨hu, htarget⟩ => ?_
    refine (Yields.expect hu.stream _ _).bind fun _ v ⟨hv, _⟩ => ?_
    have past := hu.trans hv
    refine (h v hv.stream (by have := past.shorter; omega)).bind fun e w ⟨hw, he⟩ => ?_
    refine .pure ⟨fun c hc => ?_, nofun⟩
    cases hc
    have hbinding : Binding.MadeOf P ⟨target, e, target.span.join e.span⟩ :=
      ⟨htarget, he, hP.join _ _ htarget.place he.span⟩
    exact ⟨past.trans hw, List.forall_mem_cons.mpr ⟨hbinding, hsofar⟩⟩
  · exact .pure ⟨nofun, fun _ => ⟨hs, Nat.le_refl _⟩⟩

theorem variation (hP : P.Closed) (h : TakesExpr P most read) :
    Takes P (most + 1) (Parser.Open.variation read) (Variation.MadeOf P) := by
  intro s hs few
  refine (Yields.label hs).bind fun name t ⟨ht, hname⟩ => .sees ?_
  have shorter := ht.shorter
  extract_lets finish
  have hfinish : ∀ labelled u, P.span labelled → Stream P u → u.length ≤ t.length →
      Yields (Halt.Placed P) (finish labelled) u fun v w => Past P s w ∧ v.MadeOf P := by
    intro labelled u hlabelled hu fewer
    refine (Yields.repeatingTakes (M := fun sofar : List (Binding Expr) × Bool => ∀ b ∈ sofar.1, b.MadeOf P) hu
      (by nofun) fun sofar v hsofar hv few => assignmentStep hP h hv (by omega) hsofar).bind ?_
    rintro ⟨reversed, separated⟩ v ⟨hv, fewer', hreversed⟩
    have hstop : P.span ((reversed.head?.map Binding.span).getD labelled) := by
      cases reversed with
      | nil => exact hlabelled
      | cons b rest => exact (hreversed b List.mem_cons_self).place
    refine .pure ⟨⟨hv, by omega⟩, hname, fun b hb => hreversed b (List.mem_reverse.mp hb), ?_⟩
    exact hP.join _ _ hname hstop
  refine .ite (fun hcolon => .advance ?_) fun _ => hfinish _ t hname ht.stream (Nat.le_refl _)
  exact hfinish _ _ ht.stream.frontSpan ht.stream.behind (Stream.length_behind t)

theorem openVary (hP : P.Closed) (h : TakesExpr P most read) (hblock : Takes P most within (Braced P)) :
    TakesStatement P (most + 1) (Parser.Open.vary read within) := by
  intro s hs few
  refine .advance ?_
  have fewer := Stream.length_behind s
  refine (Yields.repeatingMore (M := fun vs : List (Variation Expr) => ∀ v ∈ vs, v.MadeOf P) hs.behind (by nofun)
    fun sofar t hsofar ht few => ?_).bind fun vs t ⟨ht, fewer', more, hvs⟩ => ?_
  · refine .current ?_
    split
    · refine (variation hP h t ht (by omega)).bind fun v u ⟨hu, hv⟩ => ?_
      refine .pure ⟨fun b hb => ?_, nofun⟩
      cases hb
      exact ⟨hu, List.forall_mem_cons.mpr ⟨hv, hsofar⟩⟩
    · exact .pure ⟨nofun, fun _ => ⟨ht, Nat.le_refl _⟩⟩
  · refine .ite (fun _ => .unexpected_bind ht _) fun hsome => ?_
    have shorter : t.length < (behind s).length := more fun hnil => hsome (List.isEmpty_iff.mpr hnil)
    refine (hblock t ht (by omega)).bind ?_
    rintro ⟨block, closing⟩ u ⟨hu, hblock, hclosing⟩
    have shorter' := hu.shorter
    refine .pure ⟨⟨hu.stream, by omega⟩, fun v hv => hvs v (List.mem_reverse.mp hv), hblock, ?_⟩
    exact hP.join _ _ hs.frontSpan hclosing

theorem vary (hP : P.Closed) (h : TakesStatement P most inner) : TakesStatement P (most + 1) (Parser.vary inner) :=
  openVary hP (expression hP) ((braced h).fewer (Nat.le_succ _))

theorem loopVariable (hP : P.Closed) (h : TakesExpr P most read) :
    Takes P (most + 1) (Parser.Open.loopVariable read) (Binding.MadeOf P) := by
  intro s hs few
  refine (Yields.identifier hs).bind fun target t ⟨ht, htarget⟩ => ?_
  refine (Yields.expect ht.stream _ _).bind fun _ u ⟨hu, _⟩ => ?_
  have past := ht.trans hu
  refine (h u hu.stream (by have := past.shorter; omega)).bind fun e v ⟨hv, he⟩ => ?_
  exact .pure ⟨past.trans hv, htarget, he, hP.join _ _ htarget.place he.span⟩

theorem openLoop (hP : P.Closed) (h : TakesExpr P most read) (hblock : Takes P most within (Braced P)) :
    TakesStatement P (most + 1) (Parser.Open.loop read within) := by
  intro s hs few
  refine .advance ?_
  have fewer := Stream.length_behind s
  refine (separatedByCommas (loopVariable hP h) _ hs.behind (by omega)).bind fun ranges t ⟨ht, hranges⟩ => ?_
  refine (hblock t ht.stream (by have := ht.shorter; omega)).bind ?_
  rintro ⟨block, closing⟩ u ⟨hu, hblock, hclosing⟩
  have past := ht.trans hu
  have past : Past P s u := ⟨past.stream, Nat.lt_of_lt_of_le past.shorter fewer⟩
  exact .pure ⟨past, hranges, hblock, hP.join _ _ hs.frontSpan hclosing⟩

theorem loop (hP : P.Closed) (h : TakesStatement P most inner) : TakesStatement P (most + 1) (Parser.loop inner) :=
  openLoop hP (expression hP) ((braced h).fewer (Nat.le_succ _))

/-- Each statement begins where its first lexeme is, or behind the lexemes of a source. -/
theorem openStatement {gather : Statistic → Parser Statement} {select : Bool → Span → Parser Statement}
    {divide alter repeated bind : Parser Statement} (hgather : ∀ statistic, TakesStatement P most (gather statistic))
    (hselect : ∀ inclusive start, P.span start → TakesStatement P most (select inclusive start))
    (hdivide : TakesStatement P most divide) (halter : TakesStatement P most alter)
    (hrepeated : TakesStatement P most repeated) (hbind : TakesStatement P most bind) :
    TakesStatement P most (Parser.Open.statement gather select divide alter repeated bind) := by
  intro s hs few
  have later : ∀ {start : Span} {inclusive : Bool} {t : List Lexeme}, P.span start → Stream P t →
      t.length ≤ s.length → Yields (Halt.Placed P) (select inclusive start) t fun d u => Past P s u ∧ d.MadeOf P :=
    fun hstart ht fewer => (hselect _ _ hstart _ ht (Nat.le_trans fewer few)).mono fun d u ⟨hu, hd⟩ =>
      ⟨⟨hu.stream, Nat.lt_of_lt_of_le hu.shorter fewer⟩, hd⟩
  have fewer := Stream.length_behind s
  refine .current ?_
  split
  · exact hgather _ s hs few
  · exact hgather _ s hs few
  · exact hgather _ s hs few
  · exact hgather _ s hs few
  · exact .advance (later hs.frontSpan hs.behind fewer)
  · refine .get (.ite (fun _ => .advance (.advance ?_)) fun _ => hbind s hs few)
    exact later hs.frontSpan hs.behind.behind (Nat.le_trans (Stream.length_behind _) fewer)
  · exact hdivide s hs few
  · exact halter s hs few
  · exact hrepeated s hs few
  · exact hbind s hs few

theorem statementWithin (hP : P.Closed) (allowed : Nat) :
    TakesStatement P allowed (Parser.statementWithin allowed) := by
  induction allowed with
  | zero => exact .empty
  | succ allowed ih =>
    exact openStatement (collect hP) (fun inclusive _ hstart => source hP ih inclusive hstart) (region hP ih)
      (vary hP ih) (loop hP ih) (define hP)

theorem statement (hP : P.Closed) : TakesStatement P most Parser.statement := fun s hs _ =>
  .get (statementWithin hP _ s hs (Nat.le_succ _))

theorem openProgram (hP : P.Closed) {block : Parser (List Statement)}
    (h : TakesList P most block (Statement.MadeOf P)) (hs : Stream P s) (few : s.length ≤ most) :
    Yields (Halt.Placed P) (Parser.Open.program block) s fun p t =>
      Stream P t ∧ t.length ≤ s.length ∧ (p.block ≠ [] → t.length < s.length) ∧ p.MadeOf P := by
  refine .currentSpan ((h s hs few).bind fun ds t ⟨ht, fewer, more, hds⟩ => ?_)
  refine (Yields.expectFinish ht).bind fun _ u hu => ?_
  subst hu
  refine .pure ⟨ht, fewer, more, blockMadeOf_iff.mpr hds, ?_⟩
  exact hP.foldl (fun d hd => (hds d hd).span) hs.frontSpan

/-- What is read as a program is made of pieces of the text, and a fault is at one of them. -/
theorem program (hP : P.Closed) (hs : Stream P s) :
    Yields (Halt.Placed P) Parser.program s fun p _ => p.MadeOf P :=
  (openProgram hP (block (statement hP) false) hs (Nat.le_refl _)).mono fun _ _ ⟨_, _, _, hp⟩ => hp

theorem wholeExpression (hP : P.Closed) (hs : Stream P s) :
    Yields (Halt.Placed P) Parser.wholeExpression s fun e _ => e.MadeOf P := by
  refine (expression hP s hs (Nat.le_refl _)).bind fun e t ⟨ht, he⟩ => ?_
  exact (Yields.expectFinish ht.stream).bind fun _ _ _ => .pure he

end Takes

end Parser

/-! ### Texts -/

/-- The literals and identifiers that a text can hold are such pieces, and so are the spans of the text. -/
structure Pieces.Holds (P : Pieces) (text : String) : Prop where
  span : ∀ s, s.Within text → P.span s
  token : ∀ t : Token, t.Readable → t.MadeOf P

theorem Lexeme.stream_of_ofText {P : Pieces} {text : String} {lexemes : List Lexeme} (hP : P.Holds text)
    (h : Lexeme.ofText text = .ok lexemes) : Parser.Stream P lexemes := by
  obtain ⟨pieces, ends⟩ := pieces_of_ofText h
  exact ⟨fun l hl => ⟨hP.token _ (pieces l hl).2, hP.span _ (pieces l hl).1⟩, ends⟩

/-- A halt in a text: an illegal character of it, or something unexpected at a piece. -/
def Halt.At (P : Pieces) (text : String) : Halt → Prop
  | .fault (.lexical e) => e.offset < text.length
  | .fault (.grammatical _ span) => P.span span
  | .spent => False

/-- What a reader makes of a text, and where it stops. -/
theorem Parser.onText_yields {α : Type} {P : Pieces} {p : Parser α} {M : α → Prop} {text : String}
    (hP : P.Holds text) (hp : ∀ s, Stream P s → Yields (Halt.Placed P) p s fun a _ => M a) :
    (∀ a, p.onText text = .ok a → M a) ∧ ∀ e, p.onText text = .error e → e.At P text := by
  unfold onText
  cases hlexemes : Lexeme.ofText text with
  | error fault =>
    refine ⟨nofun, fun e he => ?_⟩
    cases he
    exact Lexeme.offset_of_ofText hlexemes
  | ok lexemes =>
    have hp := hp lexemes (Lexeme.stream_of_ofText hP hlexemes)
    unfold Yields at hp
    show (∀ a, (p lexemes).map Prod.fst = .ok a → M a) ∧ ∀ e, (p lexemes).map Prod.fst = .error e → e.At P text
    cases hrun : p lexemes with
    | ok r =>
      rw [hrun] at hp
      refine ⟨fun a ha => ?_, nofun⟩
      cases ha
      exact hp
    | error halt =>
      rw [hrun] at hp
      refine ⟨nofun, fun e he => ?_⟩
      cases he
      match halt, hp with
      | .fault (.grammatical _ _), hp => exact hp

end RecordStats
