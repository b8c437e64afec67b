import RecordStats.Proofs.Grammar.SeparatedBody
import RecordStats.Proofs.Outcome

/-! Texts on lines behind one another. A newline sets statements apart as a semicolon does, but for one thing: an expression
    goes on behind a newline, so what ends with one goes on with the parenthesis that the next line begins with, and in
    the body of a function with a sign as well. -/

namespace RecordStats

/-! ### The lexemes of a text in another place -/

namespace Lexeme

/-- These are the lexemes of the text, without the mark of its end. They may stand in any place. -/
def Holds (text : String) (inside : List Lexeme) : Prop :=
  ∃ lexemes, ofText text = .ok lexemes ∧ List.Forall₂ Alike lexemes.dropLast inside

/-- The text ends with something that an operand can end with. -/
def endsOpen (text : String) : Bool :=
  match ofText text with
  | .error _ => false
  | .ok lexemes =>
    lexemes.dropLast.getLast?.any fun l => !(l.token.isSymbol .rightBrace || l.token.isSymbol .semicolon)

/-- The token that the text begins with. -/
def first (text : String) : Token :=
  match ofText text with
  | .error _ => .finish
  | .ok lexemes => Parser.front lexemes

variable {text more : String} {lexemes inside s t u : List Lexeme}

theorem Holds.of_ofText (h : Holds text inside) (hlexemes : ofText text = .ok lexemes) :
    List.Forall₂ Alike lexemes.dropLast inside := by
  obtain ⟨_, hsame, alike⟩ := h
  cases hlexemes.symm.trans hsame
  exact alike

theorem first_eq (h : ofText text = .ok lexemes) : first text = Parser.front lexemes := by
  rw [first, h]

theorem shut_of_endsOpen (h : ofText text = .ok lexemes) (hends : endsOpen text = false) : Parser.Shut lexemes := by
  rintro before l m rfl
  have hlast : (before ++ [l, m]).dropLast.getLast? = some l := by simp
  rw [endsOpen, h] at hends
  simp only [hlast, Option.any_some, Bool.not_eq_false', Bool.or_eq_true] at hends
  exact hends

theorem alike_trans (h : List.Forall₂ Alike s t) (h' : List.Forall₂ Alike t u) : List.Forall₂ Alike s u := by
  induction h generalizing u with
  | nil => exact h'
  | cons hl _ ih =>
    obtain ⟨_, _, hm, hlater, rfl⟩ := List.forall₂_cons_left_iff.mp h'
    exact .cons ⟨hl.token.trans hm.token, fun newline => hm.newline (hl.newline newline)⟩ (ih hlater)

theorem alike_append (h : List.Forall₂ Alike (s ++ t) u) :
    ∃ run more, u = run ++ more ∧ List.Forall₂ Alike s run ∧ List.Forall₂ Alike t more := by
  refine ⟨u.take s.length, u.drop s.length, (List.take_append_drop _ _).symm, ?_, ?_⟩
  · simpa using List.forall₂_take s.length h
  · simpa using List.forall₂_drop s.length h

end Lexeme

namespace Parser

/-- What a parser makes of a text, it makes of the text's lexemes. -/
theorem onText_eq_ok {α : Type} {p : Parser α} {text : String} {a : α} (h : p.onText text = .ok a) :
    ∃ lexemes t, Lexeme.ofText text = .ok lexemes ∧ p lexemes = .ok (a, t) := by
  unfold onText at h
  split at h
  · cases h
  · next lexemes hlexemes =>
    obtain ⟨⟨_, t⟩, hrun, rfl⟩ := Lexeme.map_eq_ok h
    exact ⟨lexemes, t, hlexemes, hrun⟩

/-- A parser that takes a whole text reads its lexemes up to the last. -/
theorem whole_eq_ok {α : Type} {p : Parser α} {text : String} {a : α}
    (h : onText (do let a ← p; expectFinish; return a) text = .ok a) :
    ∃ lexemes, Lexeme.ofText text = .ok lexemes ∧ InOrder lexemes ∧ ∃ t, p lexemes = .ok (a, t) ∧ front t = .finish := by
  obtain ⟨lexemes, _, hlexemes, hrun⟩ := onText_eq_ok h
  obtain ⟨b, t, hp, hrest⟩ := bind_eq_ok hrun
  obtain ⟨_, _, hfinish, hpure⟩ := bind_eq_ok hrest
  obtain ⟨hfront, -⟩ := Yields.expectFinishAny.of_eq hfinish
  cases hpure
  exact ⟨lexemes, hlexemes, inOrder_of_follow (Lexeme.follow_of_ofText hlexemes), t, hp, hfront⟩

theorem onText_run {α : Type} {p : Parser α} {text : String} {lexemes t : List Lexeme} {a : α}
    (hlexemes : Lexeme.ofText text = .ok lexemes) (hrun : p lexemes = .ok (a, t)) : p.onText text = .ok a := by
  unfold onText
  rw [hlexemes]
  exact congrArg (Except.map Prod.fst) hrun

theorem ReadsBlock.of_ofText {text : String} {p : Program} (h : Program.ofText text = .ok p) :
    ∃ lexemes, Lexeme.ofText text = .ok lexemes ∧ ReadsBlock lexemes p.block.reverse := by
  obtain ⟨lexemes, t, hlexemes, hrun⟩ := onText_eq_ok h
  exact ⟨lexemes, hlexemes, .of_program (inOrder_of_follow (Lexeme.follow_of_ofText hlexemes)) hrun⟩

theorem ReadsResult.of_ofText {text : String} {e : Expr} (h : Expr.ofText text = .ok e) :
    ∃ lexemes, Lexeme.ofText text = .ok lexemes ∧ ReadsResult lexemes e := by
  obtain ⟨lexemes, hlexemes, ordered, reads⟩ := whole_eq_ok h
  exact ⟨lexemes, hlexemes, ordered, reads⟩

end Parser

/-! ### Blocks of texts -/

namespace Program

/-- The text is read as a program with such a block, up to spans. -/
def HasBlock (text : String) (block : List Statement) : Prop :=
  ∃ p, ofText text = .ok p ∧ Statement.unplacedBlock p.block = block

/-- The last statement of the program ends with an expression; `text` is the text of the program. -/
def endsOpen (p : Program) (text : String) : Bool :=
  Lexeme.endsOpen text && !p.block.getLast?.any Statement.isBareCount

end Program

open RecordStats.Parser

/-- Between braces anywhere, the lexemes of the text are read as such a block, up to spans. -/
def BracedAs (text : String) (block : List Statement) : Prop :=
  ∀ inside opening closing next rest allowed, Lexeme.Holds text inside → opening.token = .symbol .leftBrace →
    closing.token = .symbol .rightBrace → inside.length + 1 < allowed →
    ∃ block', braced (statementWithin allowed) (opening :: (inside ++ closing :: next :: rest)) =
        .ok ((block', closing.span), next :: rest) ∧ Statement.unplacedBlock block' = block

/-- Between braces, the lexemes of the text are read as such a body of a function, up to spans. -/
def BodyAs (text : String) (body : List Statement) : Prop :=
  (∃ lexemes, Lexeme.ofText text = .ok lexemes) ∧
    ∀ inside opening closing next rest inner, Lexeme.Holds text inside → opening.token = .symbol .leftBrace →
      closing.token = .symbol .rightBrace → ReadsExpressions inner (inside ++ closing :: next :: rest).length →
      ∃ body', functionBody inner (opening :: (inside ++ closing :: next :: rest)) =
          .ok ((body', closing.span), next :: rest) ∧ Statement.unplacedBlock body' = body

section Texts

variable {text more : String} {p q : Program} {e : Expr} {block : List Statement}

theorem line_semicolon (text more : String) : text ++ "\n;" ++ more = text ++ "\n" ++ (";" ++ more) := by
  rw [show "\n;" = "\n" ++ ";" from rfl]
  simp only [String.append_assoc]

/-- A program on the lines behind another one. -/
theorem Program.hasBlock_line (hp : ofText text = .ok p) (hq : ofText more = .ok q)
    (hopen : (p.endsOpen text && (Lexeme.first more).isSymbol .leftParen) = false) :
    HasBlock (text ++ "\n" ++ more) (Statement.unplacedBlock p.block ++ Statement.unplacedBlock q.block) := by
  obtain ⟨lexemes, hlexemes, reads⟩ := ReadsBlock.of_ofText hp
  obtain ⟨others, hothers, reads'⟩ := ReadsBlock.of_ofText hq
  obtain ⟨later, hlater, alike, newline⟩ := Lexeme.ofText_line hlexemes hothers
  have hlast : front others = .symbol .leftParen → Shut lexemes ∨ ∀ d ∈ p.block.reverse.head?, d.isBareCount = true := by
    intro hopens
    rw [Lexeme.first_eq hothers, hopens, show (Token.symbol .leftParen).isSymbol .leftParen = true from rfl,
      Bool.and_true, endsOpen, Bool.and_eq_false_iff] at hopen
    refine hopen.imp (Lexeme.shut_of_endsOpen hlexemes) fun h d hd => ?_
    rw [List.head?_reverse] at hd
    rw [hd] at h
    simpa using h
  obtain ⟨r, m, hrun, hblock⟩ := reads.line reads' alike newline hlast
  rw [List.reverse_reverse, List.reverse_reverse] at hblock
  exact ⟨r, onText_run hlater hrun, hblock⟩

/-- A semicolon before a program is passed over. -/
theorem Program.hasBlock_semicolon (hq : ofText more = .ok q) :
    HasBlock (";" ++ more) (Statement.unplacedBlock q.block) := by
  obtain ⟨others, hothers, reads⟩ := ReadsBlock.of_ofText hq
  obtain ⟨l, later, hlater, hl, alike⟩ := Lexeme.ofText_semicolon hothers
  obtain ⟨r, m, hrun, hblock⟩ := reads.semicolon alike hl
  rw [List.reverse_reverse] at hblock
  exact ⟨r, onText_run hlater hrun, hblock⟩

theorem Lexeme.first_semicolon {others : List Lexeme} (h : ofText more = .ok others) :
    first (";" ++ more) = .symbol .semicolon := by
  obtain ⟨l, later, hlater, hl, -⟩ := ofText_semicolon h
  rw [first_eq hlater]
  exact hl

/-- A program behind another one, a newline and a semicolon. -/
theorem Program.hasBlock_line_semicolon (hp : ofText text = .ok p) (hq : ofText more = .ok q) :
    HasBlock (text ++ "\n;" ++ more) (Statement.unplacedBlock p.block ++ Statement.unplacedBlock q.block) := by
  obtain ⟨others, hothers, -⟩ := ReadsBlock.of_ofText hq
  obtain ⟨r, hr, hblock⟩ := hasBlock_semicolon hq
  rw [line_semicolon, ← hblock]
  refine hasBlock_line hp hr ?_
  rw [Lexeme.first_semicolon hothers]
  exact Bool.and_false _

/-- Between braces, a text is read as it is on its own. -/
theorem Program.HasBlock.braced (h : HasBlock text block) : BracedAs text block := by
  obtain ⟨p, hp, rfl⟩ := h
  intro inside opening closing next rest allowed holds opens closes hallowed
  obtain ⟨lexemes, hlexemes, reads⟩ := ReadsBlock.of_ofText hp
  have alike := holds.of_ofText hlexemes
  have length := alike.length_eq
  rw [List.length_dropLast] at length
  obtain ⟨block', hrun, hblock⟩ := reads.braced alike opens closes (show lexemes.length < allowed by omega)
  rw [List.reverse_reverse] at hblock
  exact ⟨block', hrun, hblock⟩

/-- Assignments, and the result on the lines behind them, in the body of a function. -/
theorem bodyAs_line (hp : Program.ofText text = .ok p) (definitions : ∀ d ∈ p.block, d.isDefinition = true)
    (he : Expr.ofText more = .ok e) (hopen : (Lexeme.endsOpen text && (Lexeme.first more).goesOn) = false) :
    BodyAs (text ++ "\n" ++ more) (Statement.unplacedBlock p.block ++ [.result e.unplaced default]) := by
  obtain ⟨lexemes, hlexemes, reads⟩ := ReadsBlock.of_ofText hp
  obtain ⟨others, hothers, reads'⟩ := ReadsResult.of_ofText he
  obtain ⟨later, hlater, alike, newline⟩ := Lexeme.ofText_line hlexemes hothers
  refine ⟨⟨_, hlater⟩, fun inside opening closing next rest inner holds opens closes hinner => ?_⟩
  obtain ⟨ending, m, rfl, hending, -⟩ := reads'.ordered.alike alike
  have alike := holds.of_ofText hlater
  rw [← List.append_assoc, List.dropLast_concat] at alike
  obtain ⟨run, run', rfl, hrun, hrun'⟩ := Lexeme.alike_append alike
  have hne : ending ≠ [] := by
    rintro rfl
    have length := hending.length_eq
    obtain ⟨k, hk, -⟩ := reads'.ordered.eq_cons reads'.front_ne
    rw [hk, List.dropLast_cons_of_ne_nil reads'.ordered.behind.ne_nil] at length
    cases length
  -- The newline stands before the first lexeme of the result, also in the longer text.
  have newline : ∃ l ∈ run'.head?, l.afterNewline = true := by
    obtain ⟨l, hl, hnewline⟩ := newline
    cases hrun' with
    | nil => exact absurd rfl hne
    | cons hlm _ =>
      cases hl
      exact ⟨_, rfl, hlm.newline hnewline⟩
  have hlast : (front others).goesOn = false ∨ Shut lexemes := by
    rw [Lexeme.first_eq hothers, Bool.and_eq_false_iff] at hopen
    exact hopen.symm.imp_right (Lexeme.shut_of_endsOpen hlexemes)
  rw [List.append_assoc] at hinner ⊢
  have body := functionBody_line reads (fun d hd => definitions d (List.mem_reverse.mp hd)) reads' hrun
    (Lexeme.alike_trans hending hrun') newline hlast opens closes hinner
  rwa [List.reverse_reverse] at body

/-- Assignments, and the result behind a newline and a semicolon, in the body of a function. -/
theorem bodyAs_line_semicolon (hp : Program.ofText text = .ok p) (definitions : ∀ d ∈ p.block, d.isDefinition = true)
    (he : Expr.ofText more = .ok e) :
    BodyAs (text ++ "\n;" ++ more) (Statement.unplacedBlock p.block ++ [.result e.unplaced default]) := by
  obtain ⟨lexemes, hlexemes, reads⟩ := ReadsBlock.of_ofText hp
  obtain ⟨others, hothers, reads'⟩ := ReadsResult.of_ofText he
  obtain ⟨l, behind, hbehind, hl, alike⟩ := Lexeme.ofText_semicolon hothers
  obtain ⟨later, hlater, alike', -⟩ := Lexeme.ofText_line hlexemes hbehind
  rw [line_semicolon]
  refine ⟨⟨_, hlater⟩, fun inside opening closing next rest inner holds opens closes hinner => ?_⟩
  obtain ⟨l', later, hl', hlater', rfl⟩ := List.forall₂_cons_left_iff.mp alike'
  obtain ⟨ending, m, rfl, hending, -⟩ := reads'.ordered.alike (Lexeme.alike_trans alike hlater')
  have alike := holds.of_ofText hlater
  rw [show lexemes.dropLast ++ l' :: (ending ++ [m]) = (lexemes.dropLast ++ l' :: ending) ++ [m] by simp,
    List.dropLast_concat] at alike
  obtain ⟨run, run', rfl, hrun, hrun'⟩ := Lexeme.alike_append alike
  obtain ⟨k, others', hk, hothers', rfl⟩ := List.forall₂_cons_left_iff.mp hrun'
  rw [List.append_assoc] at hinner ⊢
  have body := functionBody_semicolon reads (fun d hd => definitions d (List.mem_reverse.mp hd)) reads' hrun
    (hk.token.symm.trans (hl'.token.symm.trans hl)) (Lexeme.alike_trans hending hothers') opens closes hinner
  rwa [List.reverse_reverse] at body

/-- A newline sets the statements of two programs apart, and a newline and a semicolon do: the text has the statements of
    the first program and then those of the second, on its own and between braces. In the body of a function it sets
    assignments and the result apart. An expression goes on behind a newline alone, though: before a parenthesis, and
    before a sign that a result begins with. -/
theorem newline_separates :
    (∀ text more p q, Program.ofText text = .ok p → Program.ofText more = .ok q → ∀ whole,
      (whole = text ++ "\n;" ++ more ∨
        whole = text ++ "\n" ++ more ∧ (p.endsOpen text && (Lexeme.first more).isSymbol .leftParen) = false) →
      Program.HasBlock whole (Statement.unplacedBlock p.block ++ Statement.unplacedBlock q.block) ∧
        BracedAs whole (Statement.unplacedBlock p.block ++ Statement.unplacedBlock q.block)) ∧
    ∀ text more p e, Program.ofText text = .ok p → (∀ d ∈ p.block, d.isDefinition = true) → Expr.ofText more = .ok e →
      ∀ whole, (whole = text ++ "\n;" ++ more ∨
        whole = text ++ "\n" ++ more ∧ (Lexeme.endsOpen text && (Lexeme.first more).goesOn) = false) →
      BodyAs whole (Statement.unplacedBlock p.block ++ [.result e.unplaced default]) := by
  refine ⟨fun text more p q hp hq whole hwhole => ?_, fun text more p e hp definitions he whole hwhole => ?_⟩
  · have hasBlock : Program.HasBlock whole (Statement.unplacedBlock p.block ++ Statement.unplacedBlock q.block) := by
      rcases hwhole with rfl | ⟨rfl, hopen⟩
      · exact Program.hasBlock_line_semicolon hp hq
      · exact Program.hasBlock_line hp hq hopen
    exact ⟨hasBlock, hasBlock.braced⟩
  · rcases hwhole with rfl | ⟨rfl, hopen⟩
    · exact bodyAs_line_semicolon hp definitions he
    · exact bodyAs_line hp definitions he hopen

/-- Two assignments, on their own and between braces, and one of them with its result. -/
theorem newline_separates_assignments : ∃ p q e, Program.ofText "x := a" = .ok p ∧ Program.ofText "y := b" = .ok q ∧
    Expr.ofText "x" = .ok e ∧
    Program.HasBlock ("x := a" ++ "\n" ++ "y := b") (Statement.unplacedBlock p.block ++ Statement.unplacedBlock q.block) ∧
    BodyAs ("x := a" ++ "\n" ++ "x") (Statement.unplacedBlock p.block ++ [.result e.unplaced default]) := by
  have first : (Program.ofText "x := a").toOption.any (fun p => p.block.all Statement.isDefinition) = true := by
    decide +kernel
  have second : (Program.ofText "y := b").toOption.any (fun _ => true) = true := by decide +kernel
  have result : (Expr.ofText "x").toOption.any (fun _ => true) = true := by decide +kernel
  have name : (Lexeme.first "y := b").isSymbol .leftParen = false := by decide +kernel
  have plain : (Lexeme.first "x").goesOn = false := by decide +kernel
  obtain ⟨p, hp, definitions⟩ := exists_of_any first
  obtain ⟨q, hq, -⟩ := exists_of_any second
  obtain ⟨e, he, -⟩ := exists_of_any result
  refine ⟨p, q, e, hp, hq, he, ?_, ?_⟩
  · refine (newline_separates.1 _ _ p q hp hq _ (.inr ⟨rfl, ?_⟩)).1
    rw [name, Bool.and_false]
  · refine newline_separates.2 _ _ p e hp (List.all_eq_true.mp definitions) he _ (.inr ⟨rfl, ?_⟩)
    rw [plain, Bool.and_false]

/-- What stands on the next line in parentheses is the argument of the operand that the first line ends with. -/
theorem operand_goes_on : (Program.ofText "x := a").toOption.isSome = true ∧
    (Program.ofText "(b) := 1").toOption.isSome = true ∧
    (Program.ofText ("x := a" ++ "\n" ++ "(b) := 1")).toOption.isSome = false := by
  decide +kernel

end Texts

end RecordStats
