import RecordStats.Proofs.Evaluation.Conjunction
import RecordStats.Proofs.Grammar.Lines

/-! Chains of comparisons. Sums with comparisons between them are read as the conjunction of the comparisons of each
    one with the next, however long the chain is; what stands between two comparisons is read once and is an operand
    of both. -/

namespace RecordStats

open RecordStats.Parser

theorem Expr.unplaced_binary (op : Operator) (left right : Expr) (s : Span) :
    (operator op [left, right] s).unplaced = operator op [left.unplaced, right.unplaced] default := by
  rw [unplaced, unplacedAll, unplacedAll, unplacedAll]

namespace Parser

variable {inner level : Parser Expr} {s t run : List Lexeme}

/-! ### Sums before an arrow -/

/-- If the parser gives something, it leaves an arrow. -/
abbrev LeavesArrow (p : Parser Expr) (s : List Lexeme) : Prop :=
  Yields (fun _ => True) p s fun _ t => front t = .symbol .rightArrow

theorem leftGrouped_arrow {operators : List (Symbol × Operator)} (hops : ∀ o ∈ operators, o.1 ≠ .rightArrow)
    (h : LeavesArrow level s) : LeavesArrow (leftGrouped operators level) s := by
  rw [leftGrouped_eq]
  refine h.bind fun e t hfront => ?_
  have none : operators.find? (fun o => (front t).isSymbol o.1) = none := by
    rw [List.find?_eq_none, hfront]
    exact fun o ho hsees => hops o ho (of_decide_eq_true hsees)
  refine .get (.bind (Q := fun o u => o = Option.none ∧ u = t) (.current ?_) ?_)
  · rw [none]
    exact .pure ⟨rfl, rfl⟩
  · rintro _ _ ⟨rfl, rfl⟩
    exact .pure hfront

/-- Behind the parameters of a function an arrow stands. -/
theorem atom_arrow (h : SpansExpr inner) (hs : InOrder s) (ahead : functionAhead s = true) :
    LeavesArrow (atom inner) s := by
  rw [functionAhead] at ahead
  split at ahead
  · next text hname =>
    refine (atom_name hname).mono ?_
    rintro _ _ rfl
    rw [hs.front_behind (by rw [hname]; nofun)]
    exact Token.eq_of_isSymbol ahead
  · next hopens =>
    refine (atom_group h hs hopens).mono ?_
    rintro _ _ ⟨u, hu, hcloses, rfl⟩
    obtain ⟨inside, hinside, matched⟩ := hu.taken
    obtain ⟨m, hm, hclose⟩ := hu.ordered.eq_cons (by rw [hcloses]; nofun)
    rw [hs.drop_one (by rw [hopens]; nofun), hinside, hm] at ahead
    exact GroupAhead.parametersAhead_matched matched (hclose.trans hcloses) ahead
  · cases ahead

/-- Where a function stands ahead, a sum ends before its arrow. -/
theorem sum_arrow (h : SpansExpr inner) (hs : InOrder s) (ahead : functionAhead s = true) :
    LeavesArrow (sum inner) s := by
  have operand : LeavesArrow (operand inner) s := by
    refine (atom_arrow h hs ahead).bind fun e t hfront => .get ?_
    refine (repeatWithin_arrow (.inr rfl) hfront _).mono ?_
    rintro _ _ rfl
    exact hfront
  have unsigned {x : Symbol} (hx : front s = .symbol x) : x = .leftParen := by
    rw [functionAhead, hx] at ahead
    split at ahead
    · next h => cases h
    · next h => exact Token.symbol.inj h
    · cases ahead
  have factor (allowed : Nat) : LeavesArrow (factorWithin inner allowed) s := by
    cases allowed with
    | zero => exact .stops _
    | succ allowed =>
      refine .current ?_
      split
      · next hplus => cases unsigned hplus
      · next hminus => cases unsigned hminus
      · refine operand.bind fun e t hfront => .sees ?_
        rw [hfront]
        exact .pure hfront
  exact leftGrouped_arrow (by decide) (leftGrouped_arrow (by decide) (.get (factor _)))

/-! ### Sums in a chain -/

/-- Sums, with any expressions inside brackets. -/
def arithmetic : Parser Expr := do
  sum (expressionWithin (← get).length)

def wholeArithmetic : Parser Expr := do
  let e ← arithmetic
  expectFinish
  return e

/-- The lexemes of a text that is read as a sum. -/
structure ReadsSum (s : List Lexeme) (e : Expr) : Prop where
  ordered : InOrder s
  reads : ∃ t, sum (expressionWithin s.length) s = .ok (e, t) ∧ front t = .finish

namespace ReadsSum

variable {e : Expr} {more : List Lexeme} {many : Nat}

theorem of_onText {text : String} (h : wholeArithmetic.onText text = .ok e) :
    ∃ lexemes, Lexeme.ofText text = .ok lexemes ∧ ReadsSum lexemes e := by
  obtain ⟨lexemes, hlexemes, ordered, reads⟩ := whole_eq_ok h
  exact ⟨lexemes, hlexemes, ordered, reads⟩

theorem front_ne (h : ReadsSum s e) : front s ≠ .finish := fun hfinish => by
  obtain ⟨t, hrun, -⟩ := h.reads
  exact (StopsAtEnd.of_spans (TakesPhrase.sum (TakesPhrase.expressionWithin _)) s h.ordered hfinish).of_eq hrun

theorem front_ne_not (h : ReadsSum s e) : front s ≠ .symbol .not := fun hnot => by
  obtain ⟨t, hrun, -⟩ := h.reads
  exact (sum_stops hnot rfl).of_eq hrun

theorem no_function (h : ReadsSum s e) : functionAhead s = false := by
  obtain ⟨t, hrun, hfinish⟩ := h.reads
  refine Bool.eq_false_iff.mpr fun ahead => ?_
  have arrow := (sum_arrow (TakesPhrase.expressionWithin _) h.ordered ahead).of_eq hrun
  cases hfinish.symm.trans arrow

/-- Where the lexemes end, a comparison may follow them. -/
def Stands (more : List Lexeme) : Prop :=
  more ≠ [] ∧ ∀ x, front more = .symbol x → ∃ op, (x, op) ∈ comparisons

theorem Stands.follows (h : Stands more) : ∀ x, front more = .symbol x → x.follows = true := fun x hx => by
  obtain ⟨op, hop⟩ := h.2 x hx
  rw [Symbol.follows, List.contains_iff_mem.mpr (List.mem_map_of_mem hop), Bool.or_true]

/-- No comparison goes on with a sum before it. -/
theorem Stands.apart (h : Stands more) : (front more).goesOn = false := by
  cases hfront : front more with
  | symbol x =>
    obtain ⟨op, hop⟩ := h.2 x hfront
    have plain : ∀ o ∈ comparisons, (Token.symbol o.1).goesOn = false := by decide
    exact plain _ hop
  | _ => rfl

/-- What stands behind the lexemes of the sum. -/
def tail (s : List Lexeme) (h : Stands more) : Tail := ⟨more, h.1, h.follows, s.length⟩

theorem joined (h : ReadsSum s e) (alike : List.Forall₂ Lexeme.Alike s.dropLast run) (stands : Stands more) :
    Joined (tail s stands) True s (run ++ more) := by
  obtain ⟨t, hrun, hfinish⟩ := h.reads
  obtain ⟨phrase, -⟩ := (TakesPhrase.sum (TakesPhrase.expressionWithin _) s h.ordered).of_eq hrun
  exact ⟨.of_alike h.ordered alike _, h.ordered, balanced_of_phrase phrase hfinish, Nat.le_succ _,
    fun _ => .inl stands.apart⟩

/-- In another place, before a comparison or the end, the lexemes are read as the same sum. -/
theorem before (h : ReadsSum s e) (alike : List.Forall₂ Lexeme.Alike s.dropLast run) (stands : Stands more)
    (hmany : s.length ≤ many) :
    ∃ e', sum (expressionWithin many) (run ++ more) = .ok (e', more) ∧ e'.unplaced = e.unplaced := by
  obtain ⟨t, hrun, hfinish⟩ := h.reads
  have inner : Inner (tail s stands) True False (expressionWithin s.length) (expressionWithin many) :=
    Alongside.expressionWithin False.elim hmany
  obtain ⟨-, -, gives⟩ := Alongside.sum id inner.spans inner.along s _ (h.joined alike stands) e t hrun
  obtain ⟨e', t', hrun', he, ht⟩ := gives fun _ => trivial
  obtain rfl : t' = more := ht.eq_tail hfinish
  exact ⟨e', hrun', he.symm⟩

end ReadsSum

/-! ### Links of a chain -/

/-- The lexemes of a text, in any place, that is read as the sum on its own. -/
def IsArithmetic (run : List Lexeme) (e : Expr) : Prop :=
  ∃ text, wholeArithmetic.onText text = .ok e ∧ Lexeme.Holds text run

namespace IsArithmetic

variable {e : Expr} {more : List Lexeme}

theorem readsSum (h : IsArithmetic run e) : ∃ s, ReadsSum s e ∧ List.Forall₂ Lexeme.Alike s.dropLast run := by
  obtain ⟨text, hrun, holds⟩ := h
  obtain ⟨s, hs, reads⟩ := ReadsSum.of_onText hrun
  exact ⟨s, reads, holds.of_ofText hs⟩

/-- In any place, before a comparison or the end, the sum is read. -/
theorem before (h : IsArithmetic run e) (stands : ReadsSum.Stands more) {many : Nat} (hmany : run.length < many) :
    ∃ e', sum (expressionWithin many) (run ++ more) = .ok (e', more) ∧ e'.unplaced = e.unplaced := by
  obtain ⟨s, reads, alike⟩ := h.readsSum
  have length := alike.length_eq
  rw [List.length_dropLast] at length
  exact reads.before alike stands (by omega)

/-- Neither a function nor a negation begins there. -/
theorem plain (h : IsArithmetic run e) (stands : ReadsSum.Stands more) :
    functionAhead (run ++ more) = false ∧ front (run ++ more) ≠ .symbol .not := by
  obtain ⟨s, reads, alike⟩ := h.readsSum
  have joined := reads.joined alike stands
  rw [joined.functionAhead reads.front_ne, joined.front_eq reads.front_ne]
  exact ⟨reads.no_function, reads.front_ne_not⟩

end IsArithmetic

/-- Comparisons, each with the sum on its right. -/
inductive Links : List Lexeme → List (Operator × Expr) → Prop
  | nil : Links [] []
  | cons {l : Lexeme} {x : Symbol} {op : Operator} {run rest : List Lexeme} {right : Expr}
      {links : List (Operator × Expr)} (token : l.token = .symbol x) (compares : (x, op) ∈ comparisons)
      (operand : IsArithmetic run right) (later : Links rest links) : Links (l :: (run ++ rest)) ((op, right) :: links)

theorem Links.stands {inside : List Lexeme} {links : List (Operator × Expr)} (h : Links inside links) {m : Lexeme}
    (finish : m.token = .finish) : ReadsSum.Stands (inside ++ [m]) := by
  refine ⟨List.append_ne_nil_of_right_ne_nil _ (List.cons_ne_nil _ _), fun x hx => ?_⟩
  cases h with
  | nil => cases finish.symm.trans hx
  | cons token compares => cases token.symm.trans hx; exact ⟨_, compares⟩

theorem Links.length_le {inside : List Lexeme} {links : List (Operator × Expr)} (h : Links inside links) :
    links.length ≤ inside.length := by
  induction h with
  | nil => exact Nat.le_refl 0
  | cons _ _ _ _ ih =>
    rw [List.length_cons, List.length_cons, List.length_append]
    omega

/-- The conjunction of some comparisons, if there are any. -/
def Gathers (cs : List Expr) : Option Expr → Prop
  | none => cs = []
  | some e => Expr.Conjunction cs e

/-- A step of a chain gathers the comparison of the last operand with the next one. -/
theorem chainStep_link {l : Lexeme} {x : Symbol} {op : Operator} {right : Expr} {before : Option Expr} {cs : List Expr}
    (token : l.token = .symbol x) (compares : (x, op) ∈ comparisons) (hs : s ≠ []) (hrun : level s = .ok (right, t))
    (left : Expr) (gathered : Gathers cs before) :
    ∃ mark e, chainStep level (left, before) (l :: s) = .ok (some (right, some e), t) ∧
      Gathers (cs ++ [.operator op [left, right] mark]) (some e) := by
  have found : ∀ o ∈ comparisons, comparisons.find? (fun p => (Token.symbol o.1).isSymbol p.1) = some o := by decide
  have found := found _ compares
  obtain ⟨r, more, rfl⟩ := List.exists_cons_of_ne_nil hs
  have step : Gives (chainStep level (left, before)) (l :: r :: more) fun o u => u = t ∧
      ∃ mark e, o = some (right, some e) ∧ Gathers (cs ++ [.operator op [left, right] mark]) (some e) := by
    refine .current ?_
    rw [show front (l :: r :: more) = l.token from rfl, token, found]
    refine .skip (s := []) (.bind (Q := fun e u => e = right ∧ u = t) ?_ ?_)
    · unfold Yields
      rw [List.nil_append, hrun]
      exact ⟨rfl, rfl⟩
    · rintro _ _ ⟨rfl, rfl⟩
      cases before with
      | none =>
        obtain rfl : cs = [] := gathered
        exact .pure ⟨rfl, _, _, rfl, .single _⟩
      | some e => exact .pure ⟨rfl, _, _, rfl, .and gathered _ _⟩
  obtain ⟨o, u, hrun', rfl, mark, e, rfl, gathers⟩ := step.exists_ok
  exact ⟨mark, e, hrun', gathers⟩

/-- Operands that come to the same are compared alike. -/
theorem compared_unplaced {e e' : Expr} (h : e.unplaced = e'.unplaced) (links : List (Operator × Expr)) :
    (Expr.compared e links).map Expr.unplaced = (Expr.compared e' links).map Expr.unplaced := by
  cases links with
  | nil => rfl
  | cons link links =>
    obtain ⟨op, right⟩ := link
    rw [Expr.compared, Expr.compared, List.map_cons, List.map_cons, Expr.unplaced_binary, Expr.unplaced_binary, h]

/-- The loop of a chain gathers the comparisons of all its neighbouring operands. -/
theorem Links.loop {inside : List Lexeme} {links : List (Operator × Expr)} (h : Links inside links) {many allowed : Nat}
    (hmany : inside.length ≤ many) (hallowed : links.length < allowed) {m : Lexeme} (finish : m.token = .finish)
    (left : Expr) {before : Option Expr} {cs : List Expr} (gathered : Gathers cs before) :
    ∃ last e new, repeatWithin (chainStep (sum (expressionWithin many))) allowed (left, before) (inside ++ [m]) =
        .ok ((last, e), [m]) ∧ Gathers (cs ++ new) e ∧
      new.map Expr.unplaced = (Expr.compared left links).map Expr.unplaced ∧ ∀ c ∈ new, c.IsComparison := by
  induction h generalizing allowed left before cs with
  | nil =>
    obtain ⟨allowed, rfl⟩ : ∃ n, allowed = n + 1 := ⟨allowed - 1, by omega⟩
    have ends : Gives (repeatWithin (chainStep (sum (expressionWithin many))) (allowed + 1) (left, before)) [m]
        fun b t => b = (left, before) ∧ t = [m] :=
      .stop (chainStep_closed (by rw [finish]; nofun))
    obtain ⟨_, _, hrun, rfl, rfl⟩ := ends.exists_ok
    exact ⟨left, before, [], hrun, by rwa [List.append_nil], rfl, List.forall_mem_nil _⟩
  | @cons l x op run rest right links token compares operand later ih =>
    obtain ⟨allowed, rfl⟩ : ∃ n, allowed = n + 1 := ⟨allowed - 1, by omega⟩
    rw [List.length_cons, List.length_append] at hmany
    rw [List.length_cons] at hallowed
    -- One step pairs the last operand with the next one; the loop goes on from there.
    obtain ⟨right', hsum, hright⟩ := operand.before (later.stands finish) (show run.length < many by omega)
    obtain ⟨mark, e, hstep, gathers⟩ := chainStep_link token compares
      (List.append_ne_nil_of_right_ne_nil run (later.stands finish).1) hsum left gathered
    obtain ⟨last, e', new, hrun, gathers, hnew, comparison⟩ :=
      ih (by omega) (show links.length < allowed by omega) right' gathers
    refine ⟨last, e', .operator op [left, right'] mark :: new, ?_, ?_, ?_, ?_⟩
    · rw [List.cons_append, List.append_assoc]
      exact (bind_run hstep).trans hrun
    · rwa [List.append_assoc] at gathers
    · rw [List.map_cons, hnew, Expr.compared, List.map_cons, compared_unplaced hright, Expr.unplaced_binary,
        Expr.unplaced_binary, hright]
    · have compares' : ∀ o ∈ comparisons, o.2.isComparison = true := by decide
      exact List.forall_mem_cons.mpr ⟨⟨op, left, right', mark, rfl, compares' _ compares⟩, comparison⟩

/-- A sum and comparisons with others are read as a conjunction of comparisons, at the end of the lexemes. -/
theorem Links.expression {inside : List Lexeme} {links : List (Operator × Expr)} (h : Links inside links)
    (some : links ≠ []) {first : Expr} (operand : IsArithmetic run first) {m : Lexeme} (finish : m.token = .finish)
    {many : Nat} (hmany : run.length + inside.length < many) :
    ∃ e cs, expressionWithin (many + 1) (run ++ (inside ++ [m])) = .ok (e, [m]) ∧ Expr.Conjunction cs e ∧
      cs.map Expr.unplaced = (Expr.compared first links).map Expr.unplaced ∧ ∀ c ∈ cs, c.IsComparison := by
  obtain ⟨plain, affirmed⟩ := operand.plain (h.stands finish)
  obtain ⟨left, hsum, hleft⟩ := operand.before (h.stands finish) (show run.length < many by omega)
  have few : links.length < (inside ++ [m]).length + 1 := by
    have := h.length_le
    rw [List.length_append]
    omega
  obtain ⟨last, o, cs, hloop, gathers, hcs, comparisons⟩ :=
    h.loop (show inside.length ≤ many by omega) few finish left (show Gathers [] none from rfl)
  -- There is a link, so the loop has gathered something.
  obtain ⟨e, rfl⟩ : ∃ e, o = Option.some e := by
    cases o with
    | some e => exact ⟨e, rfl⟩
    | none =>
      obtain rfl : cs = [] := gathers
      cases links with
      | nil => exact absurd rfl some
      | cons link links => cases hcs
  have compared : comparison (expressionWithin many) (run ++ (inside ++ [m])) = .ok (e, [m]) :=
    (bind_run hsum).trans (bind_run (show repeating _ _ _ = _ from hloop))
  have gives : Gives (expressionWithin (many + 1)) (run ++ (inside ++ [m])) fun f t => f = e ∧ t = [m] := by
    refine .get ?_
    rw [plain]
    refine disjunction_comparison affirmed ?_ (by rw [finish]; rfl)
    unfold Gives Yields
    rw [compared]
    exact ⟨rfl, rfl⟩
  obtain ⟨_, _, hrun, rfl, rfl⟩ := gives.exists_ok
  refine ⟨_, cs, hrun, gathers, ?_, comparisons⟩
  rw [hcs, compared_unplaced hleft]

end Parser

namespace Expr

/-- The text is a sum and comparisons with others, written in any way: the lexemes of each sum are those of a text that
    is read as one on its own. -/
def IsChain (text : String) (first : Expr) (links : List (Operator × Expr)) : Prop :=
  ∃ lexemes run inside, Lexeme.ofText text = .ok lexemes ∧ lexemes.dropLast = run ++ inside ∧ IsArithmetic run first ∧
    Links inside links

/-! ### Chains on lines -/

/-- The texts on lines of their own, with comparisons on the lines between them. -/
def chainText (first : String) : List (Operator × String) → String
  | [] => first
  | (op, right) :: rest => first ++ "\n" ++ (op.symbol ++ "\n" ++ chainText right rest)

end Expr

theorem Parser.IsArithmetic.alike {run run' : List Lexeme} {e : Expr} (h : IsArithmetic run e)
    (alike : List.Forall₂ Lexeme.Alike run run') : IsArithmetic run' e := by
  obtain ⟨text, hrun, lexemes, hlexemes, holds⟩ := h
  exact ⟨text, hrun, lexemes, hlexemes, Lexeme.alike_trans holds alike⟩

theorem Parser.Links.alike {inside inside' : List Lexeme} {links : List (Operator × Expr)} (h : Links inside links)
    (alike : List.Forall₂ Lexeme.Alike inside inside') : Links inside' links := by
  induction h generalizing inside' with
  | nil =>
    obtain rfl := List.forall₂_nil_left_iff.mp alike
    exact .nil
  | cons token compares operand later ih =>
    obtain ⟨l, _, hl, hrest, rfl⟩ := List.forall₂_cons_left_iff.mp alike
    obtain ⟨run, rest, rfl, hrun, hrest⟩ := Lexeme.alike_append hrest
    exact .cons (hl.token.symm.trans token) compares (operand.alike hrun) (ih hrest)

theorem Operator.lexemes_of_comparison {op : Operator} (h : op.isComparison = true) :
    ∃ x l m, (x, op) ∈ comparisons ∧ Lexeme.ofText op.symbol = .ok [l, m] ∧ l.token = .symbol x := by
  have found (x : Symbol) (compares : (x, op) ∈ comparisons) (h : (Lexeme.ofText op.symbol).toOption.any (fun s =>
      s.length = 2 && (front s).isSymbol x) = true) :
      ∃ x l m, (x, op) ∈ comparisons ∧ Lexeme.ofText op.symbol = .ok [l, m] ∧ l.token = .symbol x := by
    obtain ⟨s, hs, hsymbol⟩ := exists_of_any h
    obtain ⟨hlength, hsymbol⟩ := Bool.and_eq_true_iff.mp hsymbol
    obtain ⟨l, m, rfl⟩ := List.length_eq_two.mp (of_decide_eq_true hlength)
    exact ⟨x, l, m, compares, hs, Token.eq_of_isSymbol hsymbol⟩
  cases op with
  | equal => exact found .equal (by decide) (by decide +kernel)
  | notEqual => exact found .notEqual (by decide) (by decide +kernel)
  | less => exact found .less (by decide) (by decide +kernel)
  | lessEqual => exact found .lessEqual (by decide) (by decide +kernel)
  | greater => exact found .greater (by decide) (by decide +kernel)
  | greaterEqual => exact found .greaterEqual (by decide) (by decide +kernel)
  | _ => cases h

namespace Expr

/-- Sums on lines of their own, with comparisons between them, are a chain. -/
theorem isChain_chainText {text : String} {first : Expr} {texts : List (Operator × String)}
    {links : List (Operator × Expr)} (hfirst : wholeArithmetic.onText text = .ok first)
    (hlinks : List.Forall₂ (fun t l => t.1 = l.1 ∧ l.1.isComparison = true ∧ wholeArithmetic.onText t.2 = .ok l.2)
      texts links) : IsChain (chainText text texts) first links := by
  induction hlinks generalizing text first with
  | nil =>
    obtain ⟨lexemes, hlexemes, -⟩ := ReadsSum.of_onText hfirst
    refine ⟨lexemes, lexemes.dropLast, [], hlexemes, (List.append_nil _).symm, ⟨text, hfirst, lexemes, hlexemes, ?_⟩,
      .nil⟩
    exact List.forall₂_same.mpr fun _ _ => .refl _
  | @cons t l texts links hlink _ ih =>
    obtain ⟨op, right⟩ := t
    obtain ⟨op', e⟩ := l
    obtain ⟨rfl, hop, hright⟩ := hlink
    obtain ⟨lexemes, hlexemes, -⟩ := ReadsSum.of_onText hfirst
    obtain ⟨others, run, inside, hothers, hsplit, operand, later⟩ := ih hright
    obtain ⟨x, k, m, compares, hmark, hk⟩ := Operator.lexemes_of_comparison hop
    -- the lines behind the first one, and then all of them
    obtain ⟨behind, hbehind, alike, -⟩ := Lexeme.ofText_line hmark hothers
    obtain ⟨whole, hwhole, alike', -⟩ := Lexeme.ofText_line hlexemes hbehind
    have ordered {text : String} {s : List Lexeme} (h : Lexeme.ofText text = .ok s) : InOrder s :=
      inOrder_of_follow (Lexeme.follow_of_ofText h)
    obtain ⟨later', m', rfl, hlater, -⟩ := (ordered hothers).alike alike
    obtain ⟨marked, n, rfl, hmarked, -⟩ := (ordered hbehind).alike alike'
    rw [show [k, m].dropLast ++ (later' ++ [m']) = k :: later' ++ [m'] from rfl, List.dropLast_concat] at hmarked
    obtain ⟨k', rest, hk', hrest, rfl⟩ := List.forall₂_cons_left_iff.mp hmarked
    rw [hsplit] at hlater
    obtain ⟨run', inside', rfl, hrun, hinside⟩ := Lexeme.alike_append (Lexeme.alike_trans hlater hrest)
    refine ⟨_, lexemes.dropLast, k' :: (run' ++ inside'), hwhole, ?_, ⟨text, hfirst, lexemes, hlexemes, ?_⟩, ?_⟩
    · rw [← List.append_assoc, List.dropLast_concat]
    · exact List.forall₂_same.mpr fun _ _ => .refl _
    · exact .cons (hk'.token.symm.trans hk) compares (operand.alike hrun) (later.alike hinside)

/-- A chain of comparisons is read as their conjunction, grouped to the left: each operand is compared with the next
    one. It comes to what the conjunction of the comparisons comes to: where they all have values it is true if each of
    them is, and where one has none it stops as the first such one does. -/
theorem ofText_chain {text : String} {first : Expr} {links : List (Operator × Expr)} (h : IsChain text first links)
    (some : links ≠ []) :
    ∃ e cs, Expr.ofText text = .ok e ∧ Conjunction cs e ∧
      cs.map unplaced = (compared first links).map unplaced ∧
      ∀ call scope origin, Outcome.Conjoins (evaluateConjuncts call scope origin cs) (evaluate call scope origin e) := by
  obtain ⟨lexemes, run, inside, hlexemes, hsplit, operand, hlinks⟩ := h
  have ordered := inOrder_of_follow (Lexeme.follow_of_ofText hlexemes)
  obtain ⟨_, m, rfl, -, finish⟩ := ordered.alike (List.forall₂_same.mpr fun _ _ => .refl _)
  rw [List.dropLast_concat] at hsplit
  subst hsplit
  have few : run.length + inside.length < (run ++ inside ++ [m]).length := by
    simp only [List.length_append, List.length_singleton, Nat.lt_succ_self]
  obtain ⟨e, cs, hrun, conjunction, hcs, comparisons⟩ := hlinks.expression some operand finish few
  rw [← List.append_assoc] at hrun
  have ends : expectFinish [m] = .ok ((), [m]) := by
    refine (bind_run (show current [m] = .ok (m.token, [m]) from rfl)).trans ?_
    rw [finish]
    rfl
  have whole : wholeExpression (run ++ inside ++ [m]) = .ok (e, [m]) :=
    (bind_run (show expression _ = .ok (e, [m]) from hrun)).trans (bind_run ends)
  exact ⟨e, cs, onText_run hlexemes whole, conjunction, hcs, fun _ _ _ => conjunction.evaluates comparisons⟩

/-- Sums of several kinds, and two comparisons. -/
theorem ofText_chain_mixed : ∃ e₀ e₁ e₂ e cs, wholeArithmetic.onText "0" = .ok e₀ ∧
    wholeArithmetic.onText "x + 1" = .ok e₁ ∧ wholeArithmetic.onText "(y < 1)" = .ok e₂ ∧
    Expr.ofText (chainText "0" [(.less, "x + 1"), (.notEqual, "(y < 1)")]) = .ok e ∧ Conjunction cs e ∧
    cs.map unplaced = [operator .less [e₀, e₁] default, operator .notEqual [e₁, e₂] default].map unplaced ∧
    ∀ call scope origin, Outcome.Conjoins (evaluateConjuncts call scope origin cs) (evaluate call scope origin e) := by
  have number : (wholeArithmetic.onText "0").toOption.any (fun _ => true) = true := by decide +kernel
  have sum : (wholeArithmetic.onText "x + 1").toOption.any (fun _ => true) = true := by decide +kernel
  have bracketed : (wholeArithmetic.onText "(y < 1)").toOption.any (fun _ => true) = true := by decide +kernel
  obtain ⟨e₀, h₀, -⟩ := exists_of_any number
  obtain ⟨e₁, h₁, -⟩ := exists_of_any sum
  obtain ⟨e₂, h₂, -⟩ := exists_of_any bracketed
  have chain : IsChain (chainText "0" [(.less, "x + 1"), (.notEqual, "(y < 1)")]) e₀ [(.less, e₁), (.notEqual, e₂)] :=
    isChain_chainText h₀ (.cons ⟨rfl, rfl, h₁⟩ (.cons ⟨rfl, rfl, h₂⟩ .nil))
  obtain ⟨e, cs, read⟩ := ofText_chain chain (List.cons_ne_nil _ _)
  exact ⟨e₀, e₁, e₂, e, cs, h₀, h₁, h₂, read⟩

end Expr

end RecordStats
