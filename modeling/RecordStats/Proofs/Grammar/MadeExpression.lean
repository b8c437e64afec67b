import RecordStats.Proofs.Grammar.Stream

/-! Reading an expression gives one that is made of pieces of the text, or a fault at a place of it. Each level of the
    grammar takes a lexeme before it reads an expression in brackets, so a depth of nesting that is as large as the
    number of lexemes is enough. -/

namespace RecordStats

/-! ### Putting expressions together -/

namespace Expr

variable {P : Pieces}

theorem MadeOf.withSpan {e : Expr} {s : Span} (h : e.MadeOf P) (hs : P.span s) : (e.withSpan s).MadeOf P := by
  cases e with
  | literal _ _ => exact ⟨h.1, hs⟩
  | name _ _ => exact ⟨h.1, hs⟩
  | operator _ _ _ => exact ⟨h.1, h.2.1, hs⟩
  | call _ _ _ => exact ⟨h.1, h.2.1, hs⟩
  | lambda _ _ _ => exact ⟨h.1, h.2.1, hs⟩

theorem MadeOf.named {e : Expr} {text : String} (h : e.MadeOf P) (htext : e.name? = some text) :
    P.name text := by
  cases e with
  | name _ _ =>
    cases htext
    exact h.1
  | literal _ _ | operator _ _ _ | call _ _ _ | lambda _ _ _ => cases htext

theorem MadeOf.apply (hP : P.Closed) {op : Operator} {es : List Expr} {mark : Span} (hop : P.operator op es)
    (hes : ∀ e ∈ es, e.MadeOf P) (hmark : P.span mark) : (Expr.apply op es mark).MadeOf P :=
  ⟨hop, allMadeOf_iff.mpr hes, hP.foldl (fun e he => (hes e he).span) hmark⟩

theorem MadeOf.apply_two (hP : P.Closed) {op : Operator} {a b : Expr} {mark : Span} (hop : op.arity = 2)
    (ha : a.MadeOf P) (hb : b.MadeOf P) (hmark : P.span mark) : (Expr.apply op [a, b] mark).MadeOf P := by
  refine .apply hP (hP.plain _ _ ?_ ?_) (fun e he => ?_) hmark
  · rintro rfl
    cases hop
  · rintro rfl
    cases hop
  · rcases List.mem_cons.mp he with rfl | he
    · exact ha
    · obtain rfl := List.mem_singleton.mp he
      exact hb

theorem bodyMadeOf_cons {s : Statement} {rest : List Statement} :
    BodyMadeOf P (s :: rest) ↔ BodyMadeOf P [s] ∧ BodyMadeOf P rest := by
  cases s <;> simp only [BodyMadeOf, and_true, and_assoc]

/-- A body is made of what its statements are made of. -/
theorem bodyMadeOf_iff {body : List Statement} : BodyMadeOf P body ↔ ∀ s ∈ body, BodyMadeOf P [s] := by
  induction body with
  | nil => simp [BodyMadeOf]
  | cons s rest ih => rw [bodyMadeOf_cons, ih, List.forall_mem_cons]

end Expr

namespace Parser

variable {P : Pieces} {most : Nat} {inner level : Parser Expr} {s t : List Lexeme}

/-- A parser of expressions that are made of pieces. -/
abbrev TakesExpr (P : Pieces) (most : Nat) (p : Parser Expr) : Prop := Takes P most p (Expr.MadeOf P)

namespace Takes

/-! ### Operators between operands -/

theorem leftGrouped (hP : P.Closed) {operators : List (Symbol × Operator)} (hops : ∀ o ∈ operators, o.2.arity = 2)
    (h : TakesExpr P most level) : TakesExpr P most (Parser.leftGrouped operators level) := by
  intro s hs few
  refine (h s hs few).bind fun first t ⟨ht, hfirst⟩ => ?_
  refine (Yields.repeatingTakes ht.stream hfirst fun left u hleft hu fewer => ?_).mono fun e v hv => ?_
  · refine .current ?_
    split
    · exact .pure ⟨nofun, fun _ => ⟨hu, Nat.le_refl _⟩⟩
    · next x op hfind =>
      have hlen := hops _ (List.mem_of_find?_eq_some hfind)
      have past := hu.past_of_find hfind
      have fewer' : (behind u).length ≤ most := by
        have := past.shorter
        have := ht.shorter
        omega
      refine .advance ((h _ past.stream fewer').bind fun right v ⟨hv, hright⟩ => .pure ⟨fun b hb => ?_, nofun⟩)
      cases hb
      exact ⟨past.trans hv, .apply_two hP hlen hleft hright hu.frontSpan⟩
  · obtain ⟨hstream, fewer, he⟩ := hv
    exact ⟨⟨hstream, by have := ht.shorter; omega⟩, he⟩

theorem chained (hP : P.Closed) (h : TakesExpr P most level) : TakesExpr P most (Parser.chained level) := by
  intro s hs few
  refine (h s hs few).bind fun first t ⟨ht, hfirst⟩ => ?_
  refine (Yields.repeatingTakes (M := fun chain => chain.1.MadeOf P ∧ ∀ e ∈ chain.2, e.MadeOf P) ht.stream
    ⟨hfirst, nofun⟩ fun chain u hchain hu fewer => ?_).bind fun chain v hv => .pure ?_
  · refine .current ?_
    split
    · exact .pure ⟨nofun, fun _ => ⟨hu, Nat.le_refl _⟩⟩
    · next x op hfind =>
      have binary : ∀ o ∈ comparisons, o.2.arity = 2 := by decide
      have hlen := binary _ (List.mem_of_find?_eq_some hfind)
      have past := hu.past_of_find hfind
      have fewer' : (behind u).length ≤ most := by
        have := past.shorter
        have := ht.shorter
        omega
      refine .advance ((h _ past.stream fewer').bind fun right v ⟨hv, hright⟩ => ?_)
      have hcomparison := Expr.MadeOf.apply_two hP hlen hchain.1 hright hu.frontSpan
      split
      · refine .pure ⟨fun b hb => ?_, nofun⟩
        cases hb
        exact ⟨past.trans hv, hright, fun e he => by cases he; exact hcomparison⟩
      · next before hbefore =>
        have hbefore := hchain.2 before hbefore
        refine .pure ⟨fun b hb => ?_, nofun⟩
        cases hb
        refine ⟨past.trans hv, hright, fun e he => ?_⟩
        cases he
        exact .apply_two hP rfl hbefore hcomparison (hP.join _ _ hbefore.span hcomparison.span)
  · obtain ⟨hstream, fewer, hchain⟩ := hv
    refine ⟨⟨hstream, by have := ht.shorter; omega⟩, ?_⟩
    cases hlast : chain.2 with
    | none => exact hchain.1
    | some e => exact hchain.2 e hlast

/-! ### Functions -/

/-- A function's body and the place where it ends. -/
abbrev Body (P : Pieces) (r : List Statement × Span) : Prop := Expr.BodyMadeOf P r.1 ∧ P.span r.2

theorem distinctParameters_go (seen : List String) {parameters : List Name} (h : ∀ p ∈ parameters, p.MadeOf P) :
    Yields (Halt.Placed P) (distinctParameters.go seen parameters) s fun _ t => t = s := by
  induction parameters generalizing seen with
  | nil => exact .pure rfl
  | cons p rest ih =>
    obtain ⟨hp, hrest⟩ := List.forall_mem_cons.mp h
    exact .ite (fun _ => .fault hp.place) fun _ => ih _ hrest

theorem distinctParameters {parameters : List Name} (h : ∀ p ∈ parameters, p.MadeOf P) :
    Yields (Halt.Placed P) (Parser.distinctParameters parameters) s fun _ t => t = s :=
  distinctParameters_go [] h

/-- The head of a function that is written as a call names its parameters. -/
theorem mapM_name {es : List Expr} (hes : ∀ e ∈ es, e.MadeOf P) :
    Yields (Halt.Placed P) (es.mapM fun argument : Expr => (match argument.name? with
      | some text => Pure.pure (Name.mk text argument.span)
      | none => Parser.fault .invalidTarget argument.span : Parser Name)) s
      fun names t => t = s ∧ ∀ n ∈ names, n.MadeOf P := by
  induction es with
  | nil =>
    rw [List.mapM_nil]
    exact .pure ⟨rfl, nofun⟩
  | cons e rest ih =>
    obtain ⟨he, hrest⟩ := List.forall_mem_cons.mp hes
    rw [List.mapM_cons]
    refine Yields.bind (Q := fun n t => t = s ∧ n.MadeOf P) ?_ fun n t hn => ?_
    · split
      · next text htext => exact .pure ⟨rfl, he.named htext, he.span⟩
      · exact .fault he.span
    · obtain ⟨rfl, hn⟩ := hn
      refine (ih hrest).bind fun ns t hns => ?_
      obtain ⟨rfl, hns⟩ := hns
      exact .pure ⟨rfl, List.forall_mem_cons.mpr ⟨hn, hns⟩⟩

/-- A parser of what follows the target of a definition. -/
abbrev Defines (P : Pieces) (most : Nat) (define : Expr → Parser Statement) : Prop :=
  ∀ ⦃target⦄, target.MadeOf P → Takes P most (define target) fun d => d.MadeOf P ∧ Expr.BodyMadeOf P [d]

theorem Defines.fewer {define : Expr → Parser Statement} {few : Nat} (h : Defines P most define)
    (hfew : few ≤ most) : Defines P few define := fun _ htarget => (h htarget).fewer hfew

/-- A definition takes its `:=` first. -/
theorem definition (hP : P.Closed) {read : Parser (List Statement × Span)} (h : TakesExpr P most inner)
    (hbody : Takes P most read (Body P)) : Defines P (most + 1) (Parser.definition inner read) := by
  intro target htarget s hs few
  refine (Yields.expect hs _ _).bind fun mark t ⟨ht, hmark⟩ => ?_
  have fewer : t.length ≤ most := Nat.le_of_lt_succ (Nat.lt_of_lt_of_le ht.shorter few)
  split
  · next text span =>
    refine (h t ht.stream fewer).bind fun e u ⟨hu, he⟩ => .pure ⟨ht.trans hu, ?_⟩
    have hspan := hP.join _ _ (hP.join _ _ htarget.2 hmark) he.span
    exact ⟨⟨⟨htarget.1, htarget.2⟩, he, hspan⟩, ⟨htarget.1, htarget.2⟩, he, hspan, trivial⟩
  · next callee arguments span =>
    obtain ⟨hcallee, harguments, hspan⟩ := htarget
    split
    · next name hname =>
      refine (mapM_name (s := t) (Expr.allMadeOf_iff.mp harguments)).bind fun parameters u hu => ?_
      obtain ⟨rfl, hparameters⟩ := hu
      refine (distinctParameters hparameters).bind fun _ u hu => ?_
      subst hu
      refine (hbody u ht.stream fewer).bind fun r v ⟨hv, hr⟩ => .pure ⟨ht.trans hv, ?_⟩
      have hspan := hP.join _ _ (hP.join _ _ hspan hmark) hr.2
      have hname : Name.MadeOf P ⟨name, callee.span⟩ := ⟨hcallee.named hname, hcallee.span⟩
      exact ⟨⟨hname, hparameters, hr.1, hspan⟩, hname, hparameters, hr.1, hspan, trivial⟩
    · exact .fault hspan
  · exact .fault htarget.span

theorem bodyStep {define : Expr → Parser Statement} (h : TakesExpr P most inner) (hdefine : Defines P most define)
    (hs : Stream P s) (few : s.length ≤ most) {sofar : List Statement × Bool}
    (hsofar : Expr.BodyMadeOf P sofar.1) :
    Yields (Halt.Placed P) (Parser.Open.bodyStep inner define sofar) s fun r t =>
      (∀ b ∈ r, Past P s t ∧ Expr.BodyMadeOf P b.1) ∧ (r = none → Stream P t ∧ t.length ≤ s.length) := by
  refine (Yields.semicolons hs).bind fun _ t ⟨ht, fewer⟩ => .sees (.ite (fun _ => ?_) fun _ => ?_)
  · exact .pure ⟨nofun, fun _ => ⟨ht, fewer⟩⟩
  refine .ite (fun _ => .unexpected_bind ht _) fun _ => ?_
  refine (Yields.requireSeparator ht _).bind fun _ u hu => ?_
  subst hu
  refine (h u ht (by omega)).bind fun e v ⟨hv, he⟩ => ?_
  refine .sees (.ite (fun _ => ?_) fun _ => ?_)
  · have fewest : v.length ≤ most := by
      have := hv.shorter
      omega
    refine (hdefine he v hv.stream fewest).bind fun d w ⟨hw, _, hd⟩ => ?_
    refine .pure ⟨fun b hb => ?_, nofun⟩
    cases hb
    have past := hv.trans hw
    exact ⟨⟨past.stream, Nat.lt_of_lt_of_le past.shorter fewer⟩, Expr.bodyMadeOf_cons.mpr ⟨hd, hsofar⟩⟩
  · refine .pure ⟨fun b hb => ?_, nofun⟩
    cases hb
    exact ⟨⟨hv.stream, Nat.lt_of_lt_of_le hv.shorter fewer⟩, he, he.span, hsofar⟩

/-- A body takes its opening brace first; without one it is an expression. -/
theorem openBody (hP : P.Closed) {define : Expr → Parser Statement} (h : TakesExpr P (most + 1) inner)
    (hdefine : Defines P most define) : Takes P (most + 1) (Parser.Open.functionBody inner define) (Body P) := by
  intro s hs few
  refine .sees (.ite (fun hopening => .advance ?_) fun _ => ?_)
  · have ht := hs.past_of_sees hopening
    generalize behind s = t at ht
    have shorter := ht.shorter
    refine (Yields.repeatingTakes (M := fun sofar => Expr.BodyMadeOf P sofar.1) ht.stream (by trivial)
      fun sofar u hsofar hu fewer => bodyStep (h.fewer (Nat.le_succ _)) hdefine hu (by omega) hsofar).bind ?_
    rintro ⟨reversed, separated⟩ u ⟨hu, fewer, hreversed⟩
    refine .advance (.ite (fun _ => .pure ⟨⟨hu.behind, ?_⟩, ?_, hu.frontSpan⟩) fun _ => ?_)
    · have := Stream.length_behind u
      omega
    · exact Expr.bodyMadeOf_iff.mpr fun d hd => Expr.bodyMadeOf_iff.mp hreversed d (List.mem_reverse.mp hd)
    · exact .bind (Q := fun _ _ => False) (.fault (hP.join _ _ hs.frontSpan hu.frontSpan)) fun _ _ h => h.elim
  · refine (h s hs few).bind fun e t ⟨ht, he⟩ => .pure ⟨ht, ⟨he, he.span, trivial⟩, he.span⟩

theorem bodyWithin (hP : P.Closed) (h : TakesExpr P most inner) {allowed few : Nat} (hmost : few ≤ most)
    (hallowed : few ≤ allowed) : Takes P few (Parser.bodyWithin inner allowed) (Body P) := by
  induction allowed generalizing few with
  | zero =>
    obtain rfl := Nat.le_zero.mp hallowed
    exact .empty
  | succ allowed ih =>
    cases few with
    | zero => exact .empty
    | succ few =>
      have hread : Takes P few (Parser.bodyWithin inner allowed) (Body P) := ih (by omega) (by omega)
      exact openBody hP (h.fewer hmost) ((definition hP (h.fewer (by omega)) hread).fewer (Nat.le_succ _))

theorem functionBody (hP : P.Closed) (h : TakesExpr P most inner) :
    Takes P most (Parser.functionBody inner) (Body P) := fun s hs few =>
  .get (bodyWithin hP h few (Nat.le_succ _) s hs (Nat.le_refl _))

theorem parameters : Takes P most Parser.parameters fun ps => ∀ p ∈ ps, p.MadeOf P := by
  intro s hs _
  refine .sees (.ite (fun hopening => .advance ?_) fun _ => ?_)
  · have ht := hs.past_of_sees hopening
    generalize behind s = t at ht
    refine (Yields.repeatingTakes (M := fun sofar : List Name => ∀ p ∈ sofar, p.MadeOf P) ht.stream (by nofun)
      fun sofar u hsofar hu _ => ?_).bind fun reversed u ⟨hu, fewer, hreversed⟩ => ?_
    · refine .sees (.ite (fun _ => .pure ⟨nofun, fun _ => ⟨hu, Nat.le_refl _⟩⟩) fun _ => ?_)
      refine (Yields.identifier hu).bind fun name v ⟨hv, hname⟩ => .sees ?_
      have hmore : ∀ b ∈ some (name :: sofar), ∀ p ∈ b, p.MadeOf P := fun b hb => by
        cases hb
        exact List.forall_mem_cons.mpr ⟨hname, hsofar⟩
      refine .ite (fun _ => .pure ⟨fun b hb => ⟨hv, hmore b hb⟩, nofun⟩) fun _ => ?_
      refine (Yields.expect hv.stream _ _).bind fun _ w ⟨hw, _⟩ => ?_
      exact .pure ⟨fun b hb => ⟨hv.trans hw, hmore b hb⟩, nofun⟩
    · refine .advance (.pure ⟨⟨hu.behind, ?_⟩, fun p hp => hreversed p (List.mem_reverse.mp hp)⟩)
      have := Stream.length_behind u
      have := ht.shorter
      omega
  · refine (Yields.identifier hs).bind fun name t ⟨ht, hname⟩ => .pure ⟨ht, ?_⟩
    exact List.forall_mem_singleton.mpr hname

/-- A function takes its parameters before its body. -/
theorem openFunction (hP : P.Closed) {read : Parser (List Statement × Span)} (hbody : Takes P most read (Body P)) :
    TakesExpr P (most + 1) (Parser.Open.function read) := by
  intro s hs few
  refine .currentSpan ((parameters s hs few).bind fun parameters t ⟨ht, hparameters⟩ => ?_)
  refine (Yields.expect ht.stream _ _).bind fun _ u ⟨hu, _⟩ => ?_
  refine (distinctParameters hparameters).bind fun _ v hv => ?_
  subst hv
  have past := ht.trans hu
  have fewer : v.length ≤ most := by
    have := past.shorter
    omega
  refine (hbody v past.stream fewer).bind fun r w ⟨hw, hr⟩ => .pure ⟨past.trans hw, ?_⟩
  exact ⟨hparameters, hr.1, hP.join _ _ hs.frontSpan hr.2⟩

theorem function (hP : P.Closed) (h : TakesExpr P most inner) : TakesExpr P (most + 1) (Parser.function inner) :=
  openFunction hP (functionBody hP h)

/-! ### Operands -/

theorem atom (hP : P.Closed) (h : TakesExpr P most inner) : TakesExpr P (most + 1) (Parser.atom inner) := by
  intro s hs few
  refine .currentSpan (.current ?_)
  have hfront := hs.front
  split
  · next n htoken =>
    rw [htoken] at hfront
    exact .advance (.pure ⟨hs.past (by rw [htoken]; nofun), hfront, hs.frontSpan⟩)
  · next x htoken =>
    rw [htoken] at hfront
    exact .advance (.pure ⟨hs.past (by rw [htoken]; nofun), hfront, hs.frontSpan⟩)
  · next text htoken =>
    rw [htoken] at hfront
    exact .advance (.pure ⟨hs.past (by rw [htoken]; nofun), hfront, hs.frontSpan⟩)
  · next text htoken =>
    rw [htoken] at hfront
    exact .advance (.pure ⟨hs.past (by rw [htoken]; nofun), hfront, hs.frontSpan⟩)
  · next htoken =>
    have ht := hs.past (by rw [htoken]; nofun)
    refine .advance ((h _ ht.stream (by have := ht.shorter; omega)).bind fun e u ⟨hu, he⟩ => ?_)
    refine (Yields.expect hu.stream _ _).bind fun closing v ⟨hv, hclosing⟩ => .pure ⟨(ht.trans hu).trans hv, ?_⟩
    exact he.withSpan (hP.join _ _ (hP.join _ _ hs.frontSpan he.span) hclosing)
  · exact .unexpected hs _

theorem arguments (h : TakesExpr P most inner) : TakesList P most (Parser.arguments inner) (Expr.MadeOf P) := by
  intro s hs few
  refine (Yields.repeatingMore (M := fun sofar : List Expr => ∀ e ∈ sofar, e.MadeOf P) hs (by nofun)
    fun sofar t hsofar ht fewer => ?_).bind fun reversed t ⟨ht, fewer, more, hreversed⟩ => .pure ⟨ht, fewer, ?_, ?_⟩
  · refine .sees (.ite (fun _ => .pure ⟨nofun, fun _ => ⟨ht, Nat.le_refl _⟩⟩) fun _ => ?_)
    refine (h t ht (by omega)).bind fun e u ⟨hu, he⟩ => .sees ?_
    have hmore : ∀ b ∈ some (e :: sofar), ∀ e ∈ b, e.MadeOf P := fun b hb => by
      cases hb
      exact List.forall_mem_cons.mpr ⟨he, hsofar⟩
    refine .ite (fun _ => .pure ⟨fun b hb => ⟨hu, hmore b hb⟩, nofun⟩) fun _ => ?_
    refine (Yields.expect hu.stream _ _).bind fun _ v ⟨hv, _⟩ => ?_
    exact .pure ⟨fun b hb => ⟨hu.trans hv, hmore b hb⟩, nofun⟩
  · exact fun hne => more fun hnil => hne (List.reverse_eq_nil_iff.mpr hnil)
  · exact fun e he => hreversed e (List.mem_reverse.mp he)

theorem postfixStep (hP : P.Closed) {read : Parser (List Expr)} (h : TakesExpr P most inner)
    (harguments : TakesList P most read (Expr.MadeOf P)) (hs : Stream P s) (few : s.length ≤ most + 1)
    {e : Expr} (he : e.MadeOf P) :
    Yields (Halt.Placed P) (Parser.Open.postfixStep inner read e) s fun r t =>
      (∀ b ∈ r, Past P s t ∧ b.MadeOf P) ∧ (r = none → Stream P t ∧ t.length ≤ s.length) := by
  refine .current ?_
  split
  · next htoken =>
    have ht := hs.past (by rw [htoken]; nofun)
    refine .advance ((Yields.identifier ht.stream).bind fun name u ⟨hu, hname⟩ => ?_)
    refine .pure ⟨fun b hb => ?_, nofun⟩
    cases hb
    exact ⟨ht.trans hu, .apply_two hP rfl he ⟨hname.text, hname.place⟩ hs.frontSpan⟩
  · next htoken =>
    have ht := hs.past (by rw [htoken]; nofun)
    refine .advance ((h _ ht.stream (by have := ht.shorter; omega)).bind fun index u ⟨hu, hindex⟩ => ?_)
    refine (Yields.expect hu.stream _ _).bind fun closing v ⟨hv, hclosing⟩ => ?_
    refine .pure ⟨fun b hb => ?_, nofun⟩
    cases hb
    have hitem : (Expr.apply .item [e, index] (frontSpan s)).MadeOf P := .apply_two hP rfl he hindex hs.frontSpan
    exact ⟨(ht.trans hu).trans hv, hitem.withSpan (hP.join _ _ hitem.span (hP.join _ _ he.span hclosing))⟩
  · next htoken =>
    have ht := hs.past (by rw [htoken]; nofun)
    have fewer : (behind s).length ≤ most := by
      have := ht.shorter
      omega
    refine .advance ((harguments _ ht.stream fewer).bind fun es u ⟨hu, fewer, _, hes⟩ => ?_)
    refine (Yields.expect hu _ _).bind fun closing v ⟨hv, hclosing⟩ => ?_
    refine .pure ⟨fun b hb => ?_, nofun⟩
    cases hb
    refine ⟨⟨hv.stream, ?_⟩, he, Expr.allMadeOf_iff.mpr hes, hP.join _ _ he.span hclosing⟩
    have := hv.shorter
    have := ht.shorter
    omega
  · exact .pure ⟨nofun, fun _ => ⟨hs, Nat.le_refl _⟩⟩

theorem openOperand (hP : P.Closed) {one : Parser Expr} {read : Parser (List Expr)} (hone : TakesExpr P (most + 1) one)
    (h : TakesExpr P most inner) (harguments : TakesList P most read (Expr.MadeOf P)) :
    TakesExpr P (most + 1) (Parser.Open.operand one inner read) := by
  intro s hs few
  refine (hone s hs few).bind fun e t ⟨ht, he⟩ => ?_
  have shorter := ht.shorter
  refine (Yields.repeatingTakes ht.stream he fun e u he hu fewer =>
    postfixStep hP h harguments hu (by omega) he).mono ?_
  exact fun e u ⟨hu, fewer, he⟩ => ⟨⟨hu, by omega⟩, he⟩

theorem operand (hP : P.Closed) (h : TakesExpr P most inner) : TakesExpr P (most + 1) (Parser.operand inner) :=
  openOperand hP (atom hP h) h (arguments h)

/-! ### Signs and levels -/

theorem applySign (hP : P.Closed) (op : Operator) {e : Expr} {mark : Span} (he : e.MadeOf P) (hmark : P.span mark) :
    (Parser.applySign op e mark).MadeOf P := by
  unfold Parser.applySign
  split
  · next literal hliteral =>
    refine ⟨?_, hP.join _ _ hmark he.span⟩
    cases e with
    | literal l _ => exact hP.signed op l literal he.1 hliteral
    | name _ _ | operator _ _ _ | call _ _ _ | lambda _ _ _ => cases hliteral
  · next hnone => exact .apply hP (hP.sign op e he hnone) (List.forall_mem_singleton.mpr he) hmark

theorem openPower (hP : P.Closed) {base signed : Parser Expr} (hbase : TakesExpr P (most + 1) base)
    (h : TakesExpr P most signed) : TakesExpr P (most + 1) (Parser.Open.power base signed) := by
  intro s hs few
  refine (hbase s hs few).bind fun base t ⟨ht, hbase⟩ => .sees (.ite (fun hpower => ?_) fun _ => ?_)
  · have hu := ht.stream.past_of_sees hpower
    have fewer : (behind t).length ≤ most := by
      have := ht.shorter
      have := hu.shorter
      omega
    refine .advance ((h _ hu.stream fewer).bind fun e v ⟨hv, he⟩ => .pure ⟨(ht.trans hu).trans hv, ?_⟩)
    exact .apply_two hP rfl hbase he ht.stream.frontSpan
  · exact .pure ⟨ht, hbase⟩

theorem openFactor (hP : P.Closed) {signed power : Parser Expr} (h : TakesExpr P most signed)
    (hpower : TakesExpr P (most + 1) power) : TakesExpr P (most + 1) (Parser.Open.factor signed power) := by
  intro s hs few
  have sign : ∀ op, front s ≠ .finish →
      Yields (Halt.Placed P) (do return Parser.applySign op (← signed) (frontSpan s)) (behind s) fun e t =>
        Past P s t ∧ e.MadeOf P := by
    intro op hfront
    have ht := hs.past hfront
    refine (h _ ht.stream (by have := ht.shorter; omega)).bind fun e u ⟨hu, he⟩ => .pure ⟨ht.trans hu, ?_⟩
    exact applySign hP _ he hs.frontSpan
  refine .current ?_
  split
  · next htoken => exact .advance (sign .positive (by rw [htoken]; nofun))
  · next htoken => exact .advance (sign .negative (by rw [htoken]; nofun))
  · exact hpower s hs few

theorem factorWithin (hP : P.Closed) (h : TakesExpr P most inner) {allowed few : Nat} (hmost : few ≤ most + 1)
    (hallowed : few ≤ allowed) : TakesExpr P few (Parser.factorWithin inner allowed) := by
  induction allowed generalizing few with
  | zero =>
    obtain rfl := Nat.le_zero.mp hallowed
    exact .empty
  | succ allowed ih =>
    cases few with
    | zero => exact .empty
    | succ few =>
      have hsigned : TakesExpr P few (Parser.factorWithin inner allowed) := ih (by omega) (by omega)
      exact openFactor hP hsigned (openPower hP ((operand hP h).fewer hmost) hsigned)

theorem comparison (hP : P.Closed) (h : TakesExpr P most inner) :
    TakesExpr P (most + 1) (Parser.comparison inner) := by
  have factor : TakesExpr P (most + 1) (Parser.factor inner) := fun s hs few =>
    .get (factorWithin hP h few (Nat.le_succ _) s hs (Nat.le_refl _))
  exact chained hP (leftGrouped hP (by decide) (leftGrouped hP (by decide) factor))

theorem openNegation (hP : P.Closed) {negated compared : Parser Expr} (h : TakesExpr P most negated)
    (hcompared : TakesExpr P (most + 1) compared) :
    TakesExpr P (most + 1) (Parser.Open.negation negated compared) := by
  intro s hs few
  refine .sees (.ite (fun hnot => ?_) fun _ => hcompared s hs few)
  have ht := hs.past_of_sees hnot
  have shorter := ht.shorter
  refine .advance ((h _ ht.stream (by omega)).bind fun e u ⟨hu, he⟩ => .pure ⟨ht.trans hu, ?_⟩)
  exact .apply hP (hP.plain _ _ nofun nofun) (List.forall_mem_singleton.mpr he) hs.frontSpan

theorem negationWithin (hP : P.Closed) (h : TakesExpr P most inner) {allowed few : Nat} (hmost : few ≤ most + 1)
    (hallowed : few ≤ allowed) : TakesExpr P few (Parser.negationWithin inner allowed) := by
  induction allowed generalizing few with
  | zero =>
    obtain rfl := Nat.le_zero.mp hallowed
    exact .empty
  | succ allowed ih =>
    cases few with
    | zero => exact .empty
    | succ few => exact openNegation hP (ih (by omega) (by omega)) ((comparison hP h).fewer hmost)

theorem disjunction (hP : P.Closed) (h : TakesExpr P most inner) :
    TakesExpr P (most + 1) (Parser.disjunction inner) := by
  have negation : TakesExpr P (most + 1) (Parser.negation inner) := fun s hs few =>
    .get (negationWithin hP h few (Nat.le_succ _) s hs (Nat.le_refl _))
  exact leftGrouped hP (by decide) (leftGrouped hP (by decide) negation)

theorem openExpression {lambda operators : Parser Expr} (h : TakesExpr P most lambda)
    (hoperators : TakesExpr P most operators) : TakesExpr P most (Parser.Open.expression lambda operators) :=
  fun s hs few => .get (.ite (fun _ => h s hs few) fun _ => hoperators s hs few)

/-- A depth of nesting for each lexeme is enough. -/
theorem expressionWithin (hP : P.Closed) (allowed : Nat) : TakesExpr P allowed (Parser.expressionWithin allowed) := by
  induction allowed with
  | zero => exact .empty
  | succ allowed ih => exact openExpression (function hP ih) (disjunction hP ih)

/-- What is read as an expression is made of pieces of the text, and a fault is at one of them. -/
theorem expression (hP : P.Closed) : TakesExpr P most Parser.expression := fun s hs _ =>
  .get (expressionWithin hP _ s hs (Nat.le_succ _))

end Takes

end Parser

end RecordStats
