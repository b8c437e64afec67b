import Mathlib.Data.List.Forall2
import Mathlib.Data.List.TakeWhile
import RecordStats.Proofs.Source.Tokenized

/-! A text and another one on the next line. The newline ends whatever the first text ends with, so the lexemes are those
    of the first text and then those of the second, the first of which comes after a newline. -/

namespace RecordStats.Lexeme

/-! ### Readers before a newline -/

section Runs

variable {p : Char → Bool} {text : List Char}

/-- A run of characters ends before a newline that is none of them. -/
theorem takeWhile_line (hp : p '\n' = false) (text more : List Char) :
    (text ++ '\n' :: more).takeWhile p = text.takeWhile p := by
  induction text with
  | nil => rw [List.nil_append, List.takeWhile_cons, if_neg (by simp [hp]), List.takeWhile_nil]
  | cons c rest ih =>
    rw [List.cons_append, List.takeWhile_cons, List.takeWhile_cons, ih]

theorem dropWhile_line (hp : p '\n' = false) (text more : List Char) :
    (text ++ '\n' :: more).dropWhile p = text.dropWhile p ++ '\n' :: more := by
  induction text with
  | nil => rw [List.nil_append, List.dropWhile_cons, if_neg (by simp [hp]), List.dropWhile_nil, List.nil_append]
  | cons c rest ih =>
    rw [List.cons_append, List.dropWhile_cons, List.dropWhile_cons, ih]
    split
    · rfl
    · rfl

end Runs

/-- The quotes that open a long string are not made by a newline. -/
theorem take_two_line {quote : Char} (hquote : quote ≠ '\n') (rest more : List Char) :
    (rest ++ '\n' :: more).take 2 = [quote, quote] ↔ rest.take 2 = [quote, quote] := by
  match rest with
  | [] => simp [hquote.symm]
  | [c] => simp [hquote.symm]
  | c :: d :: rest => simp

/-- A string that ends is the same whatever follows, and it takes no more than there is. -/
theorem shortString_append {quote : Char} {taken : Nat} {text : List Char} {r : List Char × Nat}
    (h : shortString quote taken text = .ok r) (more : List Char) :
    shortString quote taken (text ++ more) = .ok r ∧ r.2 ≤ taken + text.length := by
  fun_induction shortString quote taken text generalizing r with
  | case1 | case3 | case4 | case5 => cases h
  | case2 taken rest =>
    cases h
    rw [List.cons_append, shortString.eq_def]
    simp
  | case6 taken e rest piece hpiece hquote hline ih =>
    obtain ⟨s, hs, rfl⟩ := map_eq_ok h
    obtain ⟨same, bound⟩ := ih hs
    rw [List.cons_append, List.cons_append, shortString.eq_def]
    simp only [hquote, hline, hpiece, same, List.length_cons]
    exact ⟨rfl, by omega⟩
  | case7 taken c rest hquote hline hslash ih =>
    obtain ⟨s, hs, rfl⟩ := map_eq_ok h
    obtain ⟨same, bound⟩ := ih hs
    rw [List.cons_append, shortString.eq_def]
    simp only [hquote, hline, hslash, same, List.length_cons]
    exact ⟨rfl, by omega⟩

theorem longString_line {quote : Char} (hquote : quote ≠ '\n') {taken : Nat} {text : List Char} {r : List Char × Nat}
    (h : longString quote taken text = .ok r) (more : List Char) :
    longString quote taken (text ++ '\n' :: more) = .ok r ∧ r.2 ≤ taken + text.length := by
  fun_induction longString quote taken text generalizing r with
  | case1 | case3 | case4 => cases h
  | case2 taken c rest hclosing =>
    cases h
    have long : 2 ≤ rest.length := by
      have := congrArg List.length hclosing.2
      rw [List.length_take, List.length_cons, List.length_singleton] at this
      omega
    rw [List.cons_append, longString.eq_def]
    simp only [take_two_line hquote, hclosing, and_self, if_true, List.length_cons]
    exact ⟨trivial, by omega⟩
  | case5 taken e rest piece hpiece hopen ih =>
    obtain ⟨s, hs, rfl⟩ := map_eq_ok h
    obtain ⟨same, bound⟩ := ih hs
    have hopen : ¬('\\' = quote ∧ (e :: (rest ++ '\n' :: more)).take 2 = [quote, quote]) := by
      rw [← List.cons_append, take_two_line hquote]
      exact hopen
    rw [List.cons_append, List.cons_append, longString.eq_def]
    simp only [hopen, hpiece, same, List.length_cons]
    exact ⟨rfl, by omega⟩
  | case6 taken c rest hopen hslash ih =>
    obtain ⟨s, hs, rfl⟩ := map_eq_ok h
    obtain ⟨same, bound⟩ := ih hs
    rw [List.cons_append, longString.eq_def]
    simp only [take_two_line hquote, hopen, hslash, same, List.length_cons]
    exact ⟨rfl, by omega⟩

theorem readString_line {quote : Char} (hquote : quote ≠ '\n') {rest : List Char} {token : Token} {width : Nat}
    (h : readString quote rest = .ok (token, width)) (more : List Char) :
    readString quote (rest ++ '\n' :: more) = .ok (token, width) ∧ width ≤ rest.length + 1 := by
  unfold readString at h ⊢
  obtain ⟨r, hbody, hr⟩ := map_eq_ok h
  split at hbody
  · next triple =>
    have long : 2 ≤ rest.length := by
      have := congrArg List.length triple
      rw [List.length_take, List.length_cons, List.length_singleton] at this
      omega
    obtain ⟨same, bound⟩ := longString_line hquote hbody more
    rw [List.length_drop] at bound
    simp only [take_two_line hquote, triple, if_true, List.drop_append_of_le_length long, same]
    cases hr
    exact ⟨rfl, by omega⟩
  · next single =>
    obtain ⟨same, bound⟩ := shortString_append hbody ('\n' :: more)
    simp only [take_two_line hquote, single, if_false, same]
    cases hr
    exact ⟨rfl, by omega⟩

/-! ### Numbers before a newline -/

theorem fraction_line (text more : List Char) : fraction (text ++ '\n' :: more) = fraction text := by
  match text with
  | [] => rfl
  | c :: rest =>
    by_cases hc : c = '.'
    · subst hc
      exact takeWhile_line (by decide) rest more
    · rw [List.cons_append, fraction, fraction]
      · rintro _ ⟨⟩
        exact hc rfl
      · rintro _ ⟨⟩
        exact hc rfl

/-- The sign of an exponent and what follows it. -/
theorem exponent?_cons (mark : Char) (rest : List Char) : ∃ sign tail, rest = sign ++ tail ∧
    (∀ more, exponent? (mark :: (rest ++ '\n' :: more)) = if mark = 'e' ∨ mark = 'E' then
      (Decimal.readExponent? (sign ++ tail.takeWhile Char.isDigit)).map
        fun e => (e, 1 + sign.length + (tail.takeWhile Char.isDigit).length) else none) ∧
    exponent? (mark :: rest) = if mark = 'e' ∨ mark = 'E' then
      (Decimal.readExponent? (sign ++ tail.takeWhile Char.isDigit)).map
        fun e => (e, 1 + sign.length + (tail.takeWhile Char.isDigit).length) else none := by
  have digits := takeWhile_line (p := Char.isDigit) (by decide)
  cases rest with
  | nil => exact ⟨[], [], rfl, fun more => by simp [exponent?], by simp [exponent?]⟩
  | cons c tail =>
    by_cases hplus : c = '+'
    · subst hplus
      exact ⟨['+'], tail, rfl, fun more => by simp [exponent?, digits], by simp [exponent?]⟩
    · by_cases hminus : c = '-'
      · subst hminus
        exact ⟨['-'], tail, rfl, fun more => by simp [exponent?, digits], by simp [exponent?]⟩
      · refine ⟨[], c :: tail, rfl, fun more => ?_, by simp [exponent?, hplus, hminus]⟩
        rw [← digits (c :: tail) more]
        simp [exponent?, hplus, hminus]

theorem exponent?_line (text more : List Char) : exponent? (text ++ '\n' :: more) = exponent? text := by
  cases text with
  | nil => simp [exponent?]
  | cons mark rest =>
    obtain ⟨sign, tail, -, line, alone⟩ := exponent?_cons mark rest
    rw [List.cons_append, line, alone]

theorem exponent?_le {text : List Char} {e : Int} {width : Nat} (h : exponent? text = some (e, width)) :
    width ≤ text.length := by
  cases text with
  | nil => cases h
  | cons mark rest =>
    obtain ⟨sign, tail, rfl, -, alone⟩ := exponent?_cons mark rest
    rw [alone] at h
    split at h
    · obtain ⟨_, _, h⟩ := Option.map_eq_some_iff.mp h
      cases h
      have := (List.takeWhile_prefix Char.isDigit (l := tail)).length_le
      rw [List.length_cons, List.length_append]
      omega
    · cases h

/-- A fraction takes its point and its digits. -/
theorem pointed_le (text : List Char) :
    (if (fraction text).isEmpty then 0 else (fraction text).length + 1) ≤ text.length := by
  have taken : fraction text = [] ∨ (fraction text).length + 1 ≤ text.length := by
    unfold fraction
    split
    · exact .inr (Nat.succ_le_succ (List.takeWhile_prefix _).length_le)
    · exact .inl rfl
  split
  · exact Nat.zero_le _
  · next some => exact taken.resolve_left fun none => some (none ▸ rfl)

theorem readNumber_line {text : List Char} {token : Token} {width : Nat} (h : readNumber text = .ok (token, width))
    (more : List Char) : readNumber (text ++ '\n' :: more) = .ok (token, width) ∧ width ≤ text.length := by
  have parts : (text.takeWhile Char.isDigit).length + (text.dropWhile Char.isDigit).length = text.length := by
    rw [← List.length_append, List.takeWhile_append_dropWhile]
  have pointed := pointed_le (text.dropWhile Char.isDigit)
  unfold readNumber at h ⊢
  simp only [takeWhile_line (p := Char.isDigit) (by decide), dropWhile_line (p := Char.isDigit) (by decide),
    fraction_line, List.drop_append_of_le_length pointed, exponent?_line] at h ⊢
  refine ⟨h, ?_⟩
  split at h
  · next e w hexponent =>
    cases h
    have := exponent?_le hexponent
    rw [List.length_drop] at this
    omega
  · split at h
    · split at h
      · cases h
        omega
      · cases h
    · next some =>
      rw [if_neg some] at pointed
      cases h
      omega

/-! ### Tokens before a newline -/

theorem ofPair?_line (c : Char) : Symbol.ofPair? c '\n' = none := by
  unfold Symbol.ofPair?
  split <;> first | rfl | simp_all

theorem readMark_line {c : Char} {rest : List Char} {token : Token} {width : Nat}
    (h : readMark c rest = .ok (token, width)) (more : List Char) :
    readMark c (rest ++ '\n' :: more) = .ok (token, width) ∧ width ≤ rest.length + 1 := by
  have same : (rest ++ '\n' :: more).head?.bind (Symbol.ofPair? c) = rest.head?.bind (Symbol.ofPair? c) := by
    cases rest with
    | nil => exact ofPair?_line c
    | cons => rfl
  unfold readMark at h ⊢
  rw [same]
  refine ⟨h, ?_⟩
  split at h
  · next _ hpair =>
    cases h
    cases rest with
    | nil => cases hpair
    | cons => simp
  · cases h
    omega
  · cases h

/-- What is read at the head of a text is read there too when a newline and more follow. -/
theorem read_line {c : Char} {rest : List Char} {token : Token} {width : Nat} (h : read c rest = .ok (token, width))
    (more : List Char) : read c (rest ++ '\n' :: more) = .ok (token, width) ∧ width ≤ rest.length + 1 := by
  have head : (rest ++ '\n' :: more).head?.any Char.isDigit = rest.head?.any Char.isDigit := by
    cases rest with
    | nil => rfl
    | cons => rfl
  unfold read at h ⊢
  rw [head, takeWhile_line (by decide)]
  split at h
  · next hquote =>
    rw [if_pos hquote]
    exact readString_line (by rintro rfl; revert hquote; decide) h more
  · next hquote =>
    rw [if_neg hquote]
    split at h
    · next hname =>
      rw [if_pos hname]
      refine ⟨h, ?_⟩
      cases h
      exact Nat.succ_le_succ (List.takeWhile_prefix _).length_le
    · next hname =>
      rw [if_neg hname]
      split at h
      · next hdigit =>
        rw [if_pos hdigit]
        exact readNumber_line h more
      · next hdigit =>
        rw [if_neg hdigit]
        exact readMark_line h more

/-! ### Gaps before a newline -/

/-- Before a token the gap is the same; a text that is all gap goes on with what the newline begins. -/
theorem gap_line (comment : Bool) (text more : List Char) :
    gap comment (text ++ '\n' :: more) =
      if gap comment text = text.length then text.length + 1 + gap false more else gap comment text := by
  induction text generalizing comment with
  | nil =>
    have blank : gap comment ('\n' :: more) = gap false more + 1 := by
      cases comment <;> simp [gap, Text.isBlank_newline]
    rw [List.nil_append, blank, gap, List.length_nil, if_pos rfl]
    omega
  | cons c rest ih =>
    have step (b : Bool) : gap b (rest ++ '\n' :: more) + 1 =
        if gap b rest + 1 = (c :: rest).length then (c :: rest).length + 1 + gap false more else gap b rest + 1 := by
      rw [ih, List.length_cons]
      split <;> split <;> omega
    rw [List.cons_append, gap, gap]
    split
    · exact step _
    · split
      · exact step _
      · split
        · exact step _
        · rw [List.length_cons, if_neg (by omega)]

/-! ### Lexemes before a newline -/

/-- The two lexemes have the same token, and the second comes after a newline if the first does. -/
structure Alike (l m : Lexeme) : Prop where
  token : l.token = m.token
  newline : l.afterNewline = true → m.afterNewline = true

theorem Alike.refl (l : Lexeme) : l.Alike l := ⟨rfl, id⟩

/-- The lexemes of a text behind its first gap. -/
def scanBehind (start : Place) (afterNewline : Bool) : List Char → List Lexeme × Option LexError
  | [] => ([⟨.finish, ⟨start, start⟩, afterNewline⟩], none)
  | c :: rest =>
    match read c rest with
    | .error e => ([], some ⟨e.cause, start.offset + e.offset⟩)
    | .ok (token, width) =>
      let stop := start.after (c :: rest.take (width - 1))
      let more := scan stop (rest.drop (width - 1))
      (⟨token, ⟨start, stop⟩, afterNewline⟩ :: more.1, more.2)

theorem scan_eq (p : Place) (text : List Char) : scan p text =
    scanBehind (p.after (text.take (gap false text))) ((text.take (gap false text)).contains '\n')
      (text.drop (gap false text)) := by
  rw [scan]
  split
  · next hdrop => exact (congrArg (scanBehind _ _) hdrop).symm
  · next c rest hdrop => exact (congrArg (scanBehind _ _) hdrop).symm

/-- The token behind a gap without a fault, and what follows it. -/
theorem scanBehind_cons {start : Place} {flag : Bool} {c : Char} {rest : List Char} {lexemes : List Lexeme}
    (h : scanBehind start flag (c :: rest) = (lexemes, none)) : ∃ token width later, read c rest = .ok (token, width) ∧
      scan (start.after (c :: rest.take (width - 1))) (rest.drop (width - 1)) = (later, none) ∧
      lexemes = ⟨token, ⟨start, start.after (c :: rest.take (width - 1))⟩, flag⟩ :: later := by
  rw [scanBehind] at h
  split at h
  · cases h
  · next token width hread =>
    obtain ⟨rfl, hfault⟩ := Prod.mk.inj h
    exact ⟨token, width, _, hread, Prod.ext rfl hfault, rfl⟩

theorem scanBehind_read {start : Place} {flag : Bool} {c : Char} {rest : List Char} {token : Token} {width : Nat}
    {later : List Lexeme} (hread : read c rest = .ok (token, width))
    (h : scan (start.after (c :: rest.take (width - 1))) (rest.drop (width - 1)) = (later, none)) :
    scanBehind start flag (c :: rest) =
      (⟨token, ⟨start, start.after (c :: rest.take (width - 1))⟩, flag⟩ :: later, none) := by
  rw [scanBehind, hread]
  simp only [h]

/-- The lexemes of a text without a fault do not depend on where it begins, but for their places, and all but the first
    one not on what stands before it. -/
theorem scanBehind_moved {start : Place} {flag : Bool} {text : List Char} {lexemes : List Lexeme}
    (h : scanBehind start flag text = (lexemes, none)) (other : Place) {mark : Bool} (hmark : flag = true → mark = true) :
    ∃ moved, scanBehind other mark text = (moved, none) ∧ List.Forall₂ Alike lexemes moved ∧
      ∃ l ∈ moved.head?, l.afterNewline = mark := by
  induction hn : text.length using Nat.strongRecOn generalizing start flag text lexemes other mark with
  | ind n ih =>
    cases text with
    | nil =>
      cases h
      exact ⟨_, rfl, .cons ⟨rfl, hmark⟩ .nil, _, rfl, rfl⟩
    | cons c rest =>
      obtain ⟨token, width, later, hread, hlater, rfl⟩ := scanBehind_cons h
      have shorter : ((rest.drop (width - 1)).drop (gap false (rest.drop (width - 1)))).length < n := by
        rw [List.length_cons] at hn
        rw [List.length_drop, List.length_drop]
        omega
      rw [scan_eq] at hlater
      obtain ⟨moved, hmoved, alike, -⟩ := ih _ shorter hlater _ id rfl
      rw [← scan_eq] at hmoved
      exact ⟨_, scanBehind_read hread hmoved, .cons ⟨rfl, hmark⟩ alike, _, rfl, rfl⟩

theorem scan_moved {p : Place} {text : List Char} {lexemes : List Lexeme} (h : scan p text = (lexemes, none))
    (q : Place) : ∃ moved, scan q text = (moved, none) ∧ List.Forall₂ Alike lexemes moved := by
  rw [scan_eq] at h
  obtain ⟨moved, hmoved, alike, -⟩ := scanBehind_moved h (q.after (text.take (gap false text))) id
  exact ⟨moved, (scan_eq q text).trans hmoved, alike⟩

theorem scan_ne_nil {p : Place} {text : List Char} {lexemes : List Lexeme} (h : scan p text = (lexemes, none)) :
    lexemes ≠ [] := by
  rintro rfl
  rw [scan_eq] at h
  cases hdrop : text.drop (gap false text) with
  | nil =>
    rw [hdrop] at h
    cases h
  | cons c rest =>
    rw [hdrop] at h
    obtain ⟨_, _, _, _, _, hcons⟩ := scanBehind_cons h
    cases hcons

/-- The lexemes of a text without a fault, but for the mark of its end, and those of another one on the next line. -/
theorem scan_line {p r : Place} {text more : List Char} {lexemes others : List Lexeme}
    (h : scan p text = (lexemes, none)) (hmore : scan r more = (others, none)) :
    ∃ later, scan p (text ++ '\n' :: more) = (lexemes.dropLast ++ later, none) ∧ List.Forall₂ Alike others later ∧
      ∃ l ∈ later.head?, l.afterNewline = true := by
  induction hn : text.length using Nat.strongRecOn generalizing p text lexemes with
  | ind n ih =>
    rw [scan_eq] at h ⊢
    have le := gap_le false text
    cases hdrop : text.drop (gap false text) with
    | nil =>
      -- The text ends with white space or a comment, and the newline ends either; the gap goes on in the second text.
      have full : gap false text = text.length := Nat.le_antisymm le (List.drop_eq_nil_iff.mp hdrop)
      have split : gap false (text ++ '\n' :: more) = (text ++ ['\n']).length + gap false more := by
        rw [gap_line, if_pos full, List.length_append, List.length_singleton]
      have line : text ++ '\n' :: more = (text ++ ['\n']) ++ more := by rw [List.append_assoc, List.singleton_append]
      rw [hdrop] at h
      cases h
      rw [split, line, List.take_length_add_append, List.drop_length_add_append]
      have flag : ((text ++ ['\n'] ++ more.take (gap false more)).contains '\n') = true := by simp
      rw [flag]
      rw [scan_eq] at hmore
      exact scanBehind_moved hmore _ fun _ => rfl
    | cons c rest =>
      have inside : gap false text ≠ text.length := fun full => by
        rw [full, List.drop_length] at hdrop
        cases hdrop
      rw [hdrop] at h
      -- A lexeme is cut off as before, since no reader looks beyond a newline.
      obtain ⟨token, width, tail, hread, htail, rfl⟩ := scanBehind_cons h
      obtain ⟨hline, hwidth⟩ := read_line hread more
      have taken : width - 1 ≤ rest.length := Nat.sub_le_of_le_add hwidth
      have shorter : (rest.drop (width - 1)).length < n := by
        have := congrArg List.length hdrop
        rw [List.length_drop, List.length_cons] at this
        rw [List.length_drop]
        omega
      obtain ⟨later, hlater, alike, first⟩ := ih _ shorter htail rfl
      have head : (rest ++ '\n' :: more).take (width - 1) = rest.take (width - 1) := List.take_append_of_le_length taken
      have behind : (rest ++ '\n' :: more).drop (width - 1) = rest.drop (width - 1) ++ '\n' :: more :=
        List.drop_append_of_le_length taken
      refine ⟨later, ?_, alike, first⟩
      rw [gap_line, if_neg inside, List.take_append_of_le_length le, List.drop_append_of_le_length le, hdrop,
        List.cons_append, scanBehind_read hline (by rw [head, behind]; exact hlater), head,
        List.dropLast_cons_of_ne_nil (scan_ne_nil htail), List.cons_append]

theorem scanText_of_ofText {text : String} {lexemes : List Lexeme} (h : ofText text = .ok lexemes) :
    scanText text = (lexemes, none) := by
  unfold ofText at h
  split at h
  · next hscan =>
    cases h
    exact hscan
  · cases h

/-- The lexemes of a text and of another one on the next line: those of the first, but for the mark of its end, and then
    those of the second, the first of which comes after a newline. -/
theorem ofText_line {text more : String} {lexemes others : List Lexeme} (h : ofText text = .ok lexemes)
    (hmore : ofText more = .ok others) : ∃ later, ofText (text ++ "\n" ++ more) = .ok (lexemes.dropLast ++ later) ∧
      List.Forall₂ Alike others later ∧ ∃ l ∈ later.head?, l.afterNewline = true := by
  obtain ⟨later, hlater, alike, first⟩ := scan_line (scanText_of_ofText h) (scanText_of_ofText hmore)
  have line : (text ++ "\n" ++ more).toList = text.toList ++ '\n' :: more.toList := by
    rw [String.toList_append, String.toList_append, List.append_assoc]
    rfl
  refine ⟨later, ?_, alike, first⟩
  rw [ofText, scanText, line, hlater]

/-- A semicolon at the head of a text is a lexeme of its own. -/
theorem ofText_semicolon {text : String} {lexemes : List Lexeme} (h : ofText text = .ok lexemes) :
    ∃ l later, ofText (";" ++ text) = .ok (l :: later) ∧ l.token = .symbol .semicolon ∧
      List.Forall₂ Alike lexemes later := by
  have hread : read ';' text.toList = .ok (.symbol .semicolon, 1) := by
    have pair : text.toList.head?.bind (Symbol.ofPair? ';') = none := by
      cases text.toList with
      | nil => rfl
      | cons c rest =>
        unfold Symbol.ofPair?
        simp
    simp [read, readMark, startsName, pair, Symbol.ofChar?]
  obtain ⟨later, hlater, alike⟩ := scan_moved (scanText_of_ofText h) (Place.start.after [';'])
  have whole : (";" ++ text).toList = ';' :: text.toList := by
    rw [String.toList_append]
    rfl
  have start : gap false (';' :: text.toList) = 0 := by
    rw [gap, if_neg Bool.false_ne_true, if_neg (by decide), if_neg (by decide)]
  have hscan : scan .start (';' :: text.toList) =
      (⟨.symbol .semicolon, ⟨.start, Place.start.after [';']⟩, false⟩ :: later, none) := by
    rw [scan_eq, start, List.take_zero, List.drop_zero]
    exact scanBehind_read hread hlater
  exact ⟨_, later, by rw [ofText, scanText, whole, hscan], rfl, alike⟩

end RecordStats.Lexeme
