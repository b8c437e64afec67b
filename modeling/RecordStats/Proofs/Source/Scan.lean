import Mathlib.Data.List.TakeWhile
import RecordStats.Proofs.Source.Places

/-! The lexemes of a text. Each is a piece of the text that a reader has taken; the last one marks the end of the text,
    and a fault points at one of its characters. -/

namespace RecordStats

/-! ### What readers take -/

/-- The name is spelled as one, and is no reserved word. -/
def Name.IsIdentifier (name : String) : Prop :=
  ∃ c rest, name.toList = c :: rest ∧ Lexeme.startsName c = true ∧ (∀ d ∈ rest, Lexeme.inName d = true) ∧
    Symbol.ofWord? name = none

/-- The token is one that a text can hold: numbers have no sign, and names are spelled as such. -/
def Token.Readable : Token → Prop
  | .integer n => 0 ≤ n.toInt
  | .name text => Name.IsIdentifier text
  | _ => True

namespace Lexeme

theorem map_eq_error {ε α β : Type} {x : Except ε α} {f : α → β} {e : ε} (h : x.map f = .error e) : x = .error e := by
  cases x with
  | ok a => cases h
  | error e =>
    cases h
    rfl

theorem map_eq_ok {ε α β : Type} {x : Except ε α} {f : α → β} {b : β} (h : x.map f = .ok b) :
    ∃ a, x = .ok a ∧ f a = b := by
  cases x with
  | error e => cases h
  | ok a =>
    cases h
    exact ⟨a, rfl, rfl⟩

/-- A fault in a string points at its opening quote or at a backslash in it. -/
theorem offset_of_shortString {quote : Char} {taken : Nat} {text : List Char} {e : LexError}
    (h : shortString quote taken text = .error e) : e.offset = 0 ∨ e.offset < taken + text.length := by
  fun_induction shortString quote taken text with
  | case1 | case3 =>
    cases h
    exact .inl rfl
  | case2 => cases h
  | case4 | case5 =>
    cases h
    exact .inr (by simp)
  | case6 _ _ _ _ _ _ _ ih =>
    refine (ih (map_eq_error h)).imp_right fun h => ?_
    simp only [List.length_cons] at h ⊢
    omega
  | case7 _ _ _ _ _ _ ih =>
    refine (ih (map_eq_error h)).imp_right fun h => ?_
    simp only [List.length_cons] at h ⊢
    omega

theorem offset_of_longString {quote : Char} {taken : Nat} {text : List Char} {e : LexError}
    (h : longString quote taken text = .error e) : e.offset = 0 ∨ e.offset < taken + text.length := by
  fun_induction longString quote taken text with
  | case1 =>
    cases h
    exact .inl rfl
  | case2 => cases h
  | case3 | case4 =>
    cases h
    exact .inr (by simp)
  | case5 _ _ _ _ _ _ ih =>
    refine (ih (map_eq_error h)).imp_right fun h => ?_
    simp only [List.length_cons] at h ⊢
    omega
  | case6 _ _ _ _ _ ih =>
    refine (ih (map_eq_error h)).imp_right fun h => ?_
    simp only [List.length_cons] at h ⊢
    omega

theorem offset_of_readString {quote : Char} {rest : List Char} {e : LexError} (h : readString quote rest = .error e) :
    e.offset = 0 ∨ e.offset < 1 + rest.length := by
  unfold readString at h
  have h := map_eq_error h
  split at h
  · next triple =>
    have long : 2 ≤ rest.length := by
      have := congrArg List.length triple
      rw [List.length_take, List.length_cons, List.length_singleton] at this
      omega
    refine (offset_of_longString h).imp_right fun h => ?_
    rw [List.length_drop] at h
    omega
  · exact offset_of_shortString h

theorem offset_of_readNumber {text : List Char} {e : LexError} (h : readNumber text = .error e) : e.offset = 0 := by
  unfold readNumber at h
  extract_lets at h
  split at h
  · cases h
  · split at h
    · split at h
      · cases h
      · cases h
        rfl
    · cases h

theorem offset_of_readMark {c : Char} {rest : List Char} {e : LexError} (h : readMark c rest = .error e) :
    e.offset = 0 := by
  unfold readMark at h
  split at h
  · cases h
  · cases h
  · cases h
    rfl

theorem offset_of_read {c : Char} {rest : List Char} {e : LexError} (h : read c rest = .error e) :
    e.offset < (c :: rest).length := by
  have inside : e.offset = 0 ∨ e.offset < 1 + rest.length := by
    unfold read at h
    split_ifs at h
    · exact offset_of_readString h
    · exact .inl (offset_of_readNumber h)
    · exact .inl (offset_of_readMark h)
  rw [List.length_cons]
  omega

theorem isIdentifier_of_word {c : Char} {rest : List Char} (hc : startsName c = true)
    (hword : Symbol.ofWord? (String.ofList (c :: rest.takeWhile inName)) = none) :
    Name.IsIdentifier (String.ofList (c :: rest.takeWhile inName)) :=
  ⟨c, rest.takeWhile inName, String.toList_ofList, hc, fun _ hd => List.mem_takeWhile_imp hd, hword⟩

theorem toInt_of_word? {k : Int} {n : Int64} (h : Decimal.word? k = some n) : n.toInt = k := by
  unfold Decimal.word? at h
  split at h
  · next fits =>
    cases h
    exact Int64.toInt_ofInt_of_le (by omega) (by omega)
  · cases h

section Reading
variable {c : Char} {rest : List Char}

/-- The token that is read at a character, by its kind. -/
inductive Taken (c : Char) (rest : List Char) : Token → Prop
  | string (text : String) : Taken c rest (.string text)
  | word (starts : startsName c = true) : Taken c rest (ofWord (c :: rest.takeWhile inName))
  | integer {n : Int64} (unsigned : 0 ≤ n.toInt) : Taken c rest (.integer n)
  | float (x : Float) : Taken c rest (.float x)
  | mark (s : Symbol) : Taken c rest (.symbol s)

theorem taken_of_readNumber {text : List Char} {token : Token} {width : Nat}
    (h : readNumber text = .ok (token, width)) : Taken c rest token := by
  unfold readNumber at h
  extract_lets at h
  split at h
  · cases h
    exact .float _
  · split at h
    · split at h
      · next n hn =>
        cases h
        refine .integer ?_
        rw [toInt_of_word? hn]
        exact Int.natCast_nonneg _
      · cases h
    · cases h
      exact .float _

theorem taken_of_read {token : Token} {width : Nat} (h : read c rest = .ok (token, width)) : Taken c rest token := by
  unfold read at h
  split_ifs at h with quote starts
  · obtain ⟨r, -, hr⟩ := map_eq_ok h
    cases hr
    exact .string _
  · cases h
    exact .word starts
  · exact taken_of_readNumber h
  · unfold readMark at h
    split at h
    · cases h
      exact .mark _
    · cases h
      exact .mark _
    · cases h

theorem readable_of_read {token : Token} {width : Nat} (h : read c rest = .ok (token, width)) : token.Readable := by
  cases taken_of_read h with
  | word starts =>
    unfold ofWord
    extract_lets text
    split
    · trivial
    · next hword => exact isIdentifier_of_word starts hword
  | integer unsigned => exact unsigned
  | string | float | mark => trivial

theorem ne_finish_of_read {token : Token} {width : Nat} (h : read c rest = .ok (token, width)) : token ≠ .finish := by
  cases taken_of_read h with
  | word starts =>
    unfold ofWord
    extract_lets text
    split <;> nofun
  | string | integer | float | mark => nofun

end Reading

/-! ### What a scan finds -/

/-- The span is that of a piece of the text. -/
def CutFrom (text : List Char) (s : Span) : Prop :=
  ∃ a b c, text = a ++ b ++ c ∧ s = ⟨Place.start.after a, Place.start.after (a ++ b)⟩

/-- What is known of the lexemes of a text and of its fault. -/
structure PiecesOf (text : List Char) (found : List Lexeme × Option LexError) : Prop where
  pieces : ∀ l ∈ found.1, CutFrom text l.span ∧ l.token.Readable
  fault : ∀ e, found.2 = some e → e.offset < text.length
  finish : found.2 = none → ∃ l, found.1.getLast? = some l ∧ l.token = .finish

theorem offset_start_after (run : List Char) : (Place.start.after run).offset = run.length := by
  rw [Place.offset_after]
  exact Nat.zero_add _

/-- Every lexeme is a readable piece of the text, and the end of the text is marked unless there is a fault. -/
theorem scan_pieces (text : List Char) (before rest : List Char) (h : text = before ++ rest) :
    PiecesOf text (scan (Place.start.after before) rest) := by
  induction hn : rest.length using Nat.strongRecOn generalizing before rest with
  | ind n ih =>
    have blank : text = before ++ rest.take (gap false rest) ++ rest.drop (gap false rest) := by
      rw [h, List.append_assoc, List.take_append_drop]
    rw [scan, ← Place.after_append]
    split
    · next hdrop =>
      rw [hdrop] at blank
      have cut : CutFrom text ⟨Place.start.after (before ++ rest.take (gap false rest)),
          Place.start.after (before ++ rest.take (gap false rest))⟩ := by
        refine ⟨_, [], [], ?_, by rw [List.append_nil]⟩
        rwa [List.append_nil]
      exact ⟨List.forall_mem_singleton.mpr ⟨cut, trivial⟩, fun _ he => (by cases he), fun _ => ⟨_, rfl, rfl⟩⟩
    · next c more hdrop =>
      rw [hdrop] at blank
      split
      · next e hread =>
        have inside := offset_of_read hread
        refine ⟨fun _ hl => absurd hl List.not_mem_nil, fun e he => ?_, fun hnone => by cases hnone⟩
        cases he
        rw [blank, List.length_append, offset_start_after]
        exact Nat.add_lt_add_left inside _
      · next token width hread =>
        have pieces : text =
            before ++ rest.take (gap false rest) ++ (c :: more.take (width - 1)) ++ more.drop (width - 1) := by
          rw [blank, List.append_assoc _ (c :: _), List.cons_append, List.take_append_drop]
        have shorter : (more.drop (width - 1)).length < n := by
          have := congrArg List.length hdrop
          rw [List.length_drop, List.length_cons] at this
          rw [List.length_drop]
          omega
        obtain ⟨later, fault, finish⟩ := ih _ shorter _ _ pieces rfl
        rw [Place.after_append] at later fault finish
        refine ⟨List.forall_mem_cons.mpr ⟨⟨⟨_, _, _, pieces, ?_⟩, readable_of_read hread⟩, later⟩, fault, fun hnone => ?_⟩
        · rw [Place.after_append _ (before ++ _)]
        · obtain ⟨l, hl, hfinish⟩ := finish hnone
          refine ⟨l, ?_, hfinish⟩
          rw [List.getLast?_cons, hl]
          rfl

/-- The lexemes of a text without a fault. -/
theorem pieces_of_ofText {text : String} {lexemes : List Lexeme} (h : ofText text = .ok lexemes) :
    (∀ l ∈ lexemes, l.span.Within text ∧ l.token.Readable) ∧
      ∃ l, lexemes.getLast? = some l ∧ l.token = .finish := by
  obtain ⟨pieces, -, finish⟩ := scan_pieces text.toList [] text.toList rfl
  unfold ofText at h
  split at h
  · next scanned hscan =>
    cases h
    rw [Place.after_nil] at pieces finish
    rw [scanText] at hscan
    rw [hscan] at pieces finish
    refine ⟨fun l hl => ⟨?_, (pieces l hl).2⟩, finish rfl⟩
    obtain ⟨a, b, c, hcut, hspan⟩ := (pieces l hl).1
    rw [hspan]
    exact .of_cut hcut
  · cases h

/-- A fault is at one of the characters of the text. -/
theorem offset_of_ofText {text : String} {e : LexError} (h : ofText text = .error e) : e.offset < text.length := by
  obtain ⟨-, fault, -⟩ := scan_pieces text.toList [] text.toList rfl
  unfold ofText at h
  split at h
  · cases h
  · next e' hscan =>
    cases h
    rw [Place.after_nil] at fault
    rw [scanText] at hscan
    rw [hscan] at fault
    rw [← String.length_toList]
    exact fault e rfl

end Lexeme
end RecordStats
