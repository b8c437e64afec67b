import RecordStats.Proofs.Grammar.Lines
import RecordStats.Proofs.Grammar.RoundTrip

/-! Whole numbers as literals. The decimal digits of a number, with a minus sign before them where it is negative, are
    read as the literal of the number. The least number is apart: its digits are refused before the sign is looked at,
    and no other text is read as its literal. -/

namespace RecordStats

open RecordStats.Parser

namespace Lexeme

/-- A minus sign right before a digit is a lexeme of its own. -/
theorem scan_minus (p : Place) {c : Char} (hc : c.isDigit = true) (rest : List Char) : ∃ l q,
    l.token = .symbol .minus ∧ scan p ('-' :: c :: rest) = (l :: (scan q (c :: rest)).1, (scan q (c :: rest)).2) := by
  have notPair : Symbol.ofPair? '-' c = none := by
    unfold Symbol.ofPair?
    split <;> first | rfl | (revert hc; decide)
  have read : read '-' (c :: rest) = .ok (.symbol .minus, 1) := by
    have notDigit : ¬ ('-'.isDigit = true ∨ '-' = '.' ∧ (c :: rest).head?.any Char.isDigit = true) := by
      rintro (h | ⟨h, -⟩) <;> revert h <;> decide
    rw [Lexeme.read, if_neg (by decide), if_neg (by decide), if_neg notDigit, readMark]
    simp only [List.head?_cons, Option.bind_some, notPair]
    rfl
  rw [scan]
  split
  · next h => cases h
  · next h =>
    cases h
    rw [read]
    exact ⟨_, _, rfl, rfl⟩

/-- The digits of a number make its lexeme, and the mark of the end follows. -/
theorem scan_digits (p : Place) {n : Int64} (hn : 0 ≤ n.toInt) : ∃ lexemes,
    scan p (Nat.toDigits 10 n.toInt.toNat) = (lexemes, none) ∧
      lexemes.map Lexeme.token = [.integer n, .finish] := by
  have readAs : ∀ w ∈ [(Token.integer n, Nat.toDigits 10 n.toInt.toNat)], ReadAs w.2 w.1 :=
    List.forall_mem_singleton.mpr (readAs_integer hn)
  obtain ⟨lexemes, htokens, -, hscan⟩ := scan_written readAs p (.inl rfl)
  exact ⟨lexemes, by simpa using hscan, htokens⟩

end Lexeme

/-! ### Decimal digits -/

theorem toList_toString_of_nonneg {m : Int} (h : 0 ≤ m) : (toString m).toList = Nat.toDigits 10 m.toNat := by
  obtain ⟨k, rfl⟩ := Int.eq_ofNat_of_zero_le h
  exact String.toList_ofList

theorem toList_toString_of_neg {m : Int} (h : m < 0) :
    (toString m).toList = '-' :: Nat.toDigits 10 (-m).toNat := by
  obtain ⟨k, rfl⟩ := Int.eq_negSucc_of_lt_zero h
  show ("-" ++ Nat.repr (k + 1)).toList = _
  rw [String.toList_append, show (Nat.repr (k + 1)).toList = Nat.toDigits 10 (k + 1) from String.toList_ofList]
  rfl

/-! ### Literals -/

/-- The lexemes of a number's sign and digits are those that its literal is written with. -/
theorem ofText_toString {n : Int64} (h : n ≠ Int64.minValue) : ∃ lexemes ts,
    Lexeme.ofText (toString n.toInt) = .ok lexemes ∧ lexemes.map Lexeme.token = ts ++ [.finish] ∧
      Written .sign (.literal (.integer n) default) ts := by
  rw [Lexeme.ofText, Lexeme.scanText]
  rcases Int.lt_or_le n.toInt 0 with below | whole
  · have hm := toInt_ofInt_neg h
    obtain ⟨c, rest, hdigits⟩ := List.exists_cons_of_ne_nil (Nat.toDigits_ne_nil (b := 10) (n := (-n.toInt).toNat))
    have hc : c.isDigit = true := Nat.isDigit_of_mem_toDigits (by decide) (by decide) (hdigits ▸ List.mem_cons_self)
    obtain ⟨l, q, hl, hminus⟩ := Lexeme.scan_minus .start hc rest
    obtain ⟨lexemes, hscan, htokens⟩ := Lexeme.scan_digits q (n := Int64.ofInt (-n.toInt)) (by omega)
    rw [hm, hdigits] at hscan
    rw [toList_toString_of_neg below, hdigits, hminus, hscan]
    exact ⟨_, _, rfl, by rw [List.map_cons, hl, htokens]; rfl, .negative default below hm⟩
  · obtain ⟨lexemes, hscan, htokens⟩ := Lexeme.scan_digits .start whole
    rw [toList_toString_of_nonneg whole, hscan]
    exact ⟨_, _, rfl, htokens, .looser (.integer default whole) (by decide)⟩

/-- No text is read as the literal of the least number. -/
theorem Expr.ofText_ne_minValue (text : String) (span : Span) :
    Expr.ofText text ≠ .ok (.literal (.integer Int64.minValue) span) := by
  intro h
  have made := (onText_yields (Pieces.readable_holds text) fun _ hs =>
    Takes.wholeExpression Pieces.readable_closed hs).1 _ h
  exact made.1 _ rfl rfl

/-- The digits and the offset of a number that a text is refused for. -/
def refusedNumber? : Except Halt Expr → Option (String × Nat)
  | .error (.fault (.lexical ⟨.number digits, offset⟩)) => some (digits, offset)
  | _ => none

theorem eq_of_refusedNumber? {result : Except Halt Expr} {digits : String} {offset : Nat}
    (h : refusedNumber? result = some (digits, offset)) :
    result = .error (.fault (.lexical ⟨.number digits, offset⟩)) := by
  unfold refusedNumber? at h
  split at h
  · cases h
    rfl
  · cases h

/-- Each number but the least is read from its digits and sign as its literal. The digits of the least are refused as
    too large before the sign is looked at, and no other text is read as its literal either. -/
theorem Expr.ofText_integer (n : Int64) :
    if n = Int64.minValue then
      Expr.ofText (toString n.toInt) = .error (.fault (.lexical ⟨.number "9223372036854775808", 1⟩)) ∧
        ∀ text span, Expr.ofText text ≠ .ok (.literal (.integer n) span)
    else ∃ span, Expr.ofText (toString n.toInt) = .ok (.literal (.integer n) span) := by
  split
  · next least =>
    subst least
    exact ⟨eq_of_refusedNumber? (by decide +kernel), Expr.ofText_ne_minValue⟩
  · next other =>
    obtain ⟨lexemes, ts, hlexemes, htokens, written⟩ := ofText_toString other
    obtain ⟨f, rest, hrun, hf⟩ := ((written.looser (Nat.zero_le _)).reads_whole htokens).exists_ok
    have literal : f.literal? = some (.integer n) := Expr.literal?_of_unplaced hf
    cases f with
    | literal value span =>
      cases literal
      exact ⟨span, onText_run hlexemes hrun⟩
    | _ => cases literal

/-- The least number has no literal, though its decimal digits are an integer's. -/
theorem Expr.minValue_unwritten : Expr.ofText (toString Int64.minValue.toInt) =
    .error (.fault (.lexical ⟨.number "9223372036854775808", 1⟩)) ∧
      ∀ span, Expr.ofText "-9223372036854775808" ≠ .ok (.literal (.integer Int64.minValue) span) :=
  ⟨eq_of_refusedNumber? (by decide +kernel), Expr.ofText_ne_minValue _⟩

end RecordStats
