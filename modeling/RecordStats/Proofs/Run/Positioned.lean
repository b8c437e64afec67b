import RecordStats.Proofs.Evaluation.Builtin
import RecordStats.Proofs.Grammar.MadeStatement
import RecordStats.Proofs.Grammar.SpannedStatement
import RecordStats.Proofs.Likeness.Run
import RecordStats.Proofs.Run.Columns
import RecordStats.Proofs.Run.Faultless
import RecordStats.Proofs.Tree.Blamed

/-! Errors and their places. Whatever is wrong with a program, in its text, in its declarations or with a record, is
    at a span of the text, and a diagnostic quotes the lines that the span touches. The spans of what a text is read as
    are spans of the text, and each one encloses those of all nodes below its own. -/

namespace RecordStats

/-! ### Diagnostics -/

/-- What is at places of the text. -/
abbrev Pieces.within (text : String) : Pieces := .placed (Span.Within text)

theorem Pieces.within_closed (text : String) : (within text).Closed where
  join _ _ := Span.Within.join
  signed _ _ _ _ _ := trivial
  plain _ _ _ _ := trivial
  sign _ _ _ _ := trivial

theorem Pieces.within_holds (text : String) : (within text).Holds text where
  span _ := id
  token t _ := by cases t <;> trivial

/-- A text holds a program at its places, or a fault at one of them. -/
theorem Program.ofText_within (text : String) :
    (∀ p, Program.ofText text = .ok p → p.MadeOf (.within text)) ∧
      ∀ e, Program.ofText text = .error e → e.At (.within text) text :=
  Parser.onText_yields (Pieces.within_holds text) fun _ => Parser.Takes.program (Pieces.within_closed text)

namespace Run

variable {text : String} {standing : Dict Value} {run a : Run}

end Run

/-! ### Functions of a text -/

/-- The function is written at places of the text. -/
structure Lambda.Within (text : String) (l : Lambda) : Prop where
  parameters : ∀ p ∈ l.parameters, p.MadeOf (.within text)
  body : Expr.BodyMadeOf (.within text) l.body

/-- Every function of a program that is reached from the value is written at places of the text. -/
abbrev Value.Within (text : String) : Value → Prop := Value.Made (Lambda.Within text) True

/-- No function that is reached from the value comes from another program: those that a program has made have bodies,
    and they are written at places of the text. -/
structure Value.From (text : String) (v : Value) : Prop where
  sound : v.Sound
  within : v.Within text

/-- A host whose functions make no functions of other programs out of values that have none. -/
structure Host.From (text : String) (host : Host) : Prop where
  sound : host.Sound
  within : host.Made (Lambda.Within text)

namespace Likeness

/-- One and the same evaluation, at places of the text. -/
def within (text : String) : Likeness where
  span s t := s = t ∧ s.Within text
  hosts := True
  lenient := False
  named _ := True
  same := True
  eq_of_span _ := And.left
  apart := False.elim

variable {text : String}

theorem within_span {s t : Span} (h : (within text).span s t) : s.Within text := h.2

theorem within_refl {s : Span} (h : s.Within text) : (within text).span s s := ⟨rfl, h⟩

theorem ValueLike.of_within {v : Value} (h : v.Within text) : (within text).ValueLike v v := by
  refine .of_made (fun l hl => ⟨NameLike.all_of_madeOf (fun _ => within_refl) hl.parameters, ?_⟩) id h
  exact .of_madeOf (fun _ => within_refl) (fun _ _ => trivial) hl.body

/-- What is said of the first ones of related items. -/
theorem forall_of_left {α β : Type} {p : α → Prop} {as : List α} {bs : List β}
    (h : List.Forall₂ (fun a _ => p a) as bs) : ∀ a ∈ as, p a :=
  ((List.forall₂_and_left (R := fun _ _ => True) as bs).mp (h.imp fun _ _ ha => ⟨ha, trivial⟩)).1

theorem ValueLike.within {v w : Value} (h : (within text).ValueLike v w) : v.Within text := by
  refine ValueLike.induct (motive := fun v _ => v.Within text) .null .boolean .integer .float .string
    (fun vs ws items => .list (forall_of_left items)) (fun vs ws items => .tuple (forall_of_left items))
    (fun fs gs fields => .record ?_) ?_ .builtin .host (fun _ _ _ _ receiver => .method receiver) h
  · exact forall_of_left (fields.imp fun _ _ h => h.2)
  · intro origin name l m env env' V named parameters body seen _
    refine .closure ⟨NameLike.all_madeOf (fun _ _ => within_span) parameters, ?_⟩ fun x v hx => ?_
    · exact body.madeOf fun _ _ => within_span
    · have seen := seen x (named x trivial)
      rw [hx] at seen
      generalize env'.get? x = u at seen
      cases seen with
      | some h => exact h

theorem ReplyLike.of_within {reply : Reply} (h : reply.Made (Lambda.Within text)) :
    (within text).ReplyLike reply reply := by
  induction h with
  | finish h => exact .finish (.of_within h)
  | raise message => exact .raise message
  | call hf ha _ ih =>
    refine .call (.of_within hf) (List.forall₂_same.mpr fun a h => .of_within (ha a h)) fun v w h => ?_
    obtain rfl := h.eq trivial
    exact ih v h.within

theorem HostLike.of_within {host : Host} (h : host.Made (Lambda.Within text)) : (within text).HostLike host host := by
  intro _ number vs ws hvs
  have same : vs = ws := List.forall₂_eq_eq_eq ▸ hvs.imp fun _ _ h => ValueLike.eq (L := within text) trivial h
  subst same
  exact .of_within (h number vs fun v hv => (List.forall₂_same.mp hvs v hv).within)

end Likeness

/-! ### Records -/

namespace Run

variable {text : String} {standing : Dict Value} {run a : Run} {host : Host}

open Likeness

/-- A record in any state of a run, next to itself. -/
theorem single_within (h : ofText text standing = .ok run) (ha : run.Reaches a)
    (hhost : host.Made (Lambda.Within text)) (hs : Value.MadeFields (Lambda.Within text) True standing) (depth : Nat)
    (tag : Option String) {record : List (String × Value)}
    (hr : Value.MadeFields (Lambda.Within text) True record) :
    (within text).EndsLike True ((within text).SymbolsLike fun _ => True) (a.single (host.caller depth) tag record).1
      (a.single (host.caller depth) tag record).1 := by
  obtain ⟨hprogram, htree, rfl⟩ := ofText_eq_ok h
  have made := (Program.ofText_within text).1 _ hprogram
  have blocks : (within text).BlockLike (fun _ => True) run.program.block run.program.block :=
    .of_madeOf (fun _ => within_refl) (fun _ _ => trivial) made.block
  obtain ⟨tree, hagain, trees⟩ := tree_like blocks htree
  obtain rfl : run.tree = tree := Except.ok.inj (htree.symm.trans hagain)
  have found : ∀ {v : Option Value}, (∀ w ∈ v, w.Within text) → Option.Rel (within text).ValueLike v v := by
    rintro (_ | v) hv
    · exact .none
    · exact .some (.of_within (hv v rfl))
  have begin : (within text).ScopeLike (fun _ => True) (Scope.root run.standing record)
      (Scope.root run.standing record) := by
    refine .root (fun _ => id) (fun _ => ⟨rfl, rfl⟩) (fun x _ => found fun v hv => ?_) fun x _ => found fun v hv => ?_
    · exact hr _ (Bound.mem_of_get?_ofPairs hv)
    · exact hs _ (Dict.mem_of_get? hv)
  have traces := trace_like ((HostLike.of_within hhost).caller depth) tag blocks trees begin
  rw [← (ha.alike h).performs] at traces
  exact single_like traces

/-- The symbols of a record may be data of later ones. -/
theorem symbols_from (h : ofText text standing = .ok run) (ha : run.Reaches a) (hhost : host.From text)
    (hs : ∀ b ∈ standing, b.2.From text) (depth : Nat) (tag : Option String) {record : List (String × Value)}
    (hr : ∀ b ∈ record, b.2.From text) {symbols : Symbols}
    (hsymbols : (a.single (host.caller depth) tag record).1 = .ok symbols) : ∀ b ∈ symbols, b.2.From text := by
  have sound := ((ha.alike h).single_faultless h (fun b hb => (hs b hb).sound) (hhost.sound.caller depth) tag
    fun b hb => (hr b hb).sound).of_ok hsymbols
  have ends := single_within h ha hhost.within (fun b hb => (hs b hb).within) depth tag fun b hb => (hr b hb).within
  rw [hsymbols] at ends
  refine fun b hb => ⟨sound b hb, ?_⟩
  cases ends with
  | ok alike =>
    obtain ⟨sorted, -, alike⟩ := alike
    have same := alike b.1 trivial
    rw [Dict.get?_of_mem sorted hb] at same
    cases same with
    | some h => exact h.within
  | fault allowed _ => exact allowed.elim

/-! ### Columns -/

end Run

theorem Value.From.of_mem_items {text : String} {v : Value} (h : v.From text) {items : List Value}
    (hitems : v.items? = some items) : ∀ w ∈ items, w.From text := by
  refine fun w hw => ⟨h.sound.of_mem_items hitems w hw, ?_⟩
  obtain ⟨-, within⟩ := h
  cases within with
  | list h | tuple h =>
    cases hitems
    exact h w hw
  | _ => cases hitems

namespace Run

end Run

/-! ### The spans of a text -/

/-- What a parser makes of the lexemes of a text. -/
theorem Parser.onText_inOrder {α : Type} {p : Parser α} {M : α → Prop} {text : String}
    (hp : ∀ s, InOrder s → Yields (fun _ => True) p s fun a _ => M a) {a : α} (h : p.onText text = .ok a) : M a := by
  unfold onText at h
  cases hlexemes : Lexeme.ofText text with
  | error fault =>
    rw [hlexemes] at h
    cases h
  | ok lexemes =>
    have hp := hp lexemes (inOrder_of_follow (Lexeme.follow_of_ofText hlexemes))
    rw [hlexemes] at h
    unfold Yields at hp
    have h : (p lexemes).map Prod.fst = .ok a := h
    cases hrun : p lexemes with
    | ok r =>
      rw [hrun] at hp h
      cases h
      exact hp
    | error halt =>
      rw [hrun] at h
      cases h

/-- An expression of a text is at its places. -/
theorem Expr.ofText_within {text : String} {e : Expr} (h : Expr.ofText text = .ok e) : e.MadeOf (.within text) :=
  (Parser.onText_yields (Pieces.within_holds text) fun _ =>
    Parser.Takes.wholeExpression (Pieces.within_closed text)).1 e h

/-- All spans of a program of a text, and those of an expression of it, are spans of the text, and each encloses the
    spans of all nodes below its own. -/
theorem Outline.sound_of_ofText (text : String) :
    (∀ p, Program.ofText text = .ok p → p.outline.Sound text) ∧
      ∀ e, Expr.ofText text = .ok e → e.outline.Sound text := by
  refine ⟨fun p h => ?_, fun e h => ?_⟩
  · have nested : p.outline.Nested := Parser.onText_inOrder (fun _ => Parser.TakesPhrase.program) h
    exact nested.sound ((Program.ofText_within text).1 p h).outline_all
  · have nested : e.outline.Nested := Parser.onText_inOrder (fun _ => Parser.TakesPhrase.wholeExpression) h
    exact nested.sound (Expr.ofText_within h).outline_all

/-- A program with a varied region and a function's body, and an expression with a folded sign and a chain. -/
theorem Outline.sound_of_ofText_nested :
    (∃ p, Program.ofText "f(a) := \x7b c := (a\n< 1) < 3; -c \x7d\nvary 'up': s := f(1)[0] \x7b region 'r' s \x7b\n\x7d \x7d" =
        .ok p ∧ p.outline.nodes.length = 27 ∧
      p.outline.Sound
        "f(a) := \x7b c := (a\n< 1) < 3; -c \x7d\nvary 'up': s := f(1)[0] \x7b region 'r' s \x7b\n\x7d \x7d") ∧
    ∃ e, Expr.ofText "((x) -> -1 < x.y\n <= 2)" = .ok e ∧ e.outline.nodes.length = 14 ∧
      e.outline.Sound "((x) -> -1 < x.y\n <= 2)" := by
  have program : (Program.ofText
      "f(a) := \x7b c := (a\n< 1) < 3; -c \x7d\nvary 'up': s := f(1)[0] \x7b region 'r' s \x7b\n\x7d \x7d").toOption.any
        (fun p => p.outline.nodes.length = 27) = true := by
    decide +kernel
  have expression : (Expr.ofText "((x) -> -1 < x.y\n <= 2)").toOption.any
      (fun e => e.outline.nodes.length = 14) = true := by
    decide +kernel
  obtain ⟨p, hp, nodes⟩ := exists_of_any program
  obtain ⟨e, he, nodes'⟩ := exists_of_any expression
  exact ⟨⟨p, hp, of_decide_eq_true nodes, (sound_of_ofText _).1 p hp⟩,
    e, he, of_decide_eq_true nodes', (sound_of_ofText _).2 e he⟩

end RecordStats
