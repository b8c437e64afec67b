import RecordStats.Proofs.Source.Scan

/-! How tokens are written. A text of spelled tokens with a space between any two has these tokens for its lexemes, and
    the mark of its end.

    A string may be written between single or double quote characters, which stand once or three times on either side. If
    backslashes, both quote characters and newlines are written as escapes, it is read back either way, and so is a text
    of such strings, whole numbers, names, words and marks. -/

namespace RecordStats

/-! ### Spellings -/

/-- A character between double quotes. -/
def Text.quoted (c : Char) : List Char :=
  if c = '"' then ['\\', '"'] else if c = '\\' then ['\\', '\\'] else if c = '\n' then ['\\', 'n'] else [c]

namespace Token

/-- The characters that a token is written with. -/
def spelling : Token → List Char
  | float x => (Decimal.plain x).toList
  | integer n => Nat.toDigits 10 n.toInt.toNat
  | string s => '"' :: (s.toList.flatMap Text.quoted ++ ['"'])
  | name x => x.toList
  | symbol s => s.text.toList
  | finish => []

/-- The token is read where it is written: a whole number without a sign, a string, an identifier, a word or a mark. -/
def Spelled : Token → Prop
  | float _ => False
  | integer n => 0 ≤ n.toInt
  | string _ => True
  | name x => Name.IsIdentifier x
  | symbol _ => True
  | finish => False

end Token

/-- The text of some tokens, with a space between any two. -/
def Text.ofTokens (tokens : List Token) : String :=
  String.ofList ([' '].intercalate (tokens.map Token.spelling))

/-! ### Reading a spelled token -/

namespace Lexeme

/-- What follows a token: the end of the text, or a space. -/
inductive Gap : List Char → Prop where
  | finish : Gap []
  | space (more : List Char) : Gap (' ' :: more)

variable {tail : List Char}

theorem Gap.takeWhile_append (h : Gap tail) {p : Char → Bool} (hspace : p ' ' = false) {run : List Char}
    (hrun : ∀ c ∈ run, p c = true) : (run ++ tail).takeWhile p = run := by
  rw [List.takeWhile_append_of_pos hrun]
  cases h with
  | finish => rw [List.takeWhile_nil, List.append_nil]
  | space more => rw [List.takeWhile_cons, if_neg (by simp [hspace]), List.append_nil]

theorem Gap.dropWhile_append (h : Gap tail) {p : Char → Bool} (hspace : p ' ' = false) {run : List Char}
    (hrun : ∀ c ∈ run, p c = true) : (run ++ tail).dropWhile p = tail := by
  rw [List.dropWhile_append_of_pos hrun]
  cases h with
  | finish => rfl
  | space more => rw [List.dropWhile_cons, if_neg (by simp [hspace])]

/-! ### Single characters -/

theorem isDigit_iff {c : Char} : c.isDigit = true ↔ 48 ≤ c.toNat ∧ c.toNat ≤ 57 := by
  have zero : '0'.val.toNat = 48 := rfl
  have nine : '9'.val.toNat = 57 := rfl
  simp only [Char.isDigit, Bool.and_eq_true, decide_eq_true_eq, ge_iff_le, UInt32.le_iff_toNat_le, Char.toNat, zero,
    nine]

theorem startsName_iff {c : Char} : startsName c = true ↔
    65 ≤ c.toNat ∧ c.toNat ≤ 90 ∨ 97 ≤ c.toNat ∧ c.toNat ≤ 122 ∨ c.toNat = 95 := by
  have upper : 'A'.val.toNat = 65 ∧ 'Z'.val.toNat = 90 := ⟨rfl, rfl⟩
  have lower : 'a'.val.toNat = 97 ∧ 'z'.val.toNat = 122 := ⟨rfl, rfl⟩
  have underscore : c = '_' ↔ c.toNat = 95 := ⟨fun h => h ▸ rfl, fun h => Char.toNat_inj.mp (h.trans rfl)⟩
  have letter : c.isAlpha = (decide (c.val ≥ 'A'.val ∧ c.val ≤ 'Z'.val) ||
      (decide (c.val ≥ 'a'.val) && decide (c.val ≤ 'z'.val))) := rfl
  simp only [startsName, letter, Bool.or_eq_true, Bool.and_eq_true, decide_eq_true_eq, ge_iff_le,
    UInt32.le_iff_toNat_le, underscore, upper.1, upper.2, lower.1, lower.2]
  rw [Char.toNat, or_assoc]

/-- The character is neither white space nor the mark of a comment. -/
def Inked (c : Char) : Prop := Text.isBlank c = false ∧ c ≠ '#'

theorem inked_of_toNat {c : Char} (low : 35 < c.toNat) (high : c.toNat < 127) : Inked c := by
  refine ⟨?_, fun h => ?_⟩
  · simp only [Text.isBlank, Text.blankRanges, List.any_cons, List.any_nil, Bool.or_false, Bool.or_eq_false_iff,
      Bool.and_eq_false_iff, decide_eq_false_iff_not]
    omega
  · subst h
    exact absurd low (by decide)

theorem Inked.gap {c : Char} (h : Inked c) (rest : List Char) : Lexeme.gap false (c :: rest) = 0 := by
  simp [Lexeme.gap, h.1, h.2]

/-! ### Single tokens -/

/-- Where a space or the end follows, the characters are read as the token. -/
def ReadAs (text : List Char) (t : Token) : Prop :=
  ∃ c rest, text = c :: rest ∧ Inked c ∧ ∀ tail, Gap tail → read c (rest ++ tail) = .ok (t, rest.length + 1)

/-- A word is read up to its end. -/
theorem read_word (h : Gap tail) {c : Char} {rest : List Char} (hc : startsName c = true)
    (hrest : ∀ d ∈ rest, inName d = true) :
    read c (rest ++ tail) = .ok (ofWord (c :: rest), rest.length + 1) := by
  have notQuote : ¬(c = '\'' ∨ c = '"') := by
    rintro (rfl | rfl) <;> revert hc <;> decide
  rw [read, if_neg notQuote, if_pos hc, h.takeWhile_append (by decide) hrest]
  rfl

theorem words_spelled : ∀ s ∈ Symbol.words, (s.text.toList.head?.any startsName = true ∧
    s.text.toList.all inName = true) ∧ Symbol.ofWord? s.text = some s := by decide

theorem readAs_symbol (s : Symbol) : ReadAs s.text.toList (.symbol s) := by
  by_cases hs : s ∈ Symbol.words
  · obtain ⟨⟨hfirst, hall⟩, hword⟩ := words_spelled s hs
    cases htext : s.text.toList with
    | nil =>
      rw [htext] at hfirst
      cases hfirst
    | cons c rest =>
      rw [htext] at hfirst hall
      obtain ⟨-, hrest⟩ := List.forall_mem_cons.mp (List.all_eq_true.mp hall)
      have range := startsName_iff.mp hfirst
      refine ⟨c, rest, rfl, inked_of_toNat (by omega) (by omega), fun tail h => ?_⟩
      rw [read_word h hfirst hrest, ofWord, ← htext, String.ofList_toList, hword]
  · cases s <;> first
      | exact absurd (by decide) hs
      | exact ⟨_, _, rfl, ⟨by decide, by decide⟩, fun tail h => by cases h <;> rfl⟩

theorem readAs_name {x : String} (hx : Name.IsIdentifier x) : ReadAs x.toList (.name x) := by
  obtain ⟨c, rest, htext, hc, hrest, hword⟩ := hx
  have range := startsName_iff.mp hc
  refine ⟨c, rest, htext, inked_of_toNat (by omega) (by omega), fun tail h => ?_⟩
  rw [read_word h hc hrest, ofWord, ← htext, String.ofList_toList, hword]

theorem word?_toInt (n : Int64) : Decimal.word? n.toInt = some n := by
  have low := n.le_toInt
  have high := n.toInt_lt
  rw [Decimal.word?, if_pos ⟨by omega, by omega⟩, Int64.ofInt_toInt]

theorem readAs_integer {n : Int64} (hn : 0 ≤ n.toInt) : ReadAs (Nat.toDigits 10 n.toInt.toNat) (.integer n) := by
  have digits : ∀ c ∈ Nat.toDigits 10 n.toInt.toNat, c.isDigit = true := fun c hc =>
    Nat.isDigit_of_mem_toDigits (by decide) (by decide) hc
  have value : Decimal.natOfDigits (Nat.toDigits 10 n.toInt.toNat) = n.toInt.toNat :=
    Nat.ofDigitChars_toDigits (by decide) (by decide)
  cases hdigits : Nat.toDigits 10 n.toInt.toNat with
  | nil => exact absurd hdigits Nat.toDigits_ne_nil
  | cons c rest =>
    rw [hdigits] at digits value
    have hc := digits c List.mem_cons_self
    have notQuote : ¬(c = '\'' ∨ c = '"') := by
      rintro (rfl | rfl) <;> revert hc <;> decide
    have range := isDigit_iff.mp hc
    have notName : startsName c = false := Bool.eq_false_iff.mpr fun hname => by
      have := startsName_iff.mp hname
      omega
    refine ⟨c, rest, rfl, inked_of_toNat (by omega) (by omega), fun tail h => ?_⟩
    rw [read, if_neg notQuote, if_neg (by simp [notName]), if_pos (.inl hc), ← List.cons_append]
    unfold readNumber
    extract_lets whole more part pointed float
    have hwhole : whole = c :: rest := h.takeWhile_append (by decide) digits
    have hmore : more = tail := h.dropWhile_append (by decide) digits
    -- No point with a digit behind it and no exponent follows the digits.
    have hpart : part = [] := by
      show fraction more = []
      rw [hmore]
      cases h <;> rfl
    have hexponent : exponent? (more.drop pointed) = none := by
      have : pointed = 0 := by
        show (if part.isEmpty then 0 else part.length + 1) = 0
        rw [hpart]
        rfl
      rw [this, hmore]
      cases h <;> rfl
    rw [hexponent, hpart, hwhole, value, Int.toNat_of_nonneg hn, word?_toInt]
    rfl

/-! ### Strings -/

/-- Between these quotes, every character is written as itself or as an escape for it. -/
structure Escapes (quote : Char) (written : Char → List Char) : Prop where
  mark : quote = '\'' ∨ quote = '"'
  each : ∀ c, (∃ e, written c = ['\\', e] ∧ unescape? e = some [c]) ∨
    (written c = [c] ∧ c ≠ quote ∧ c ≠ '\n' ∧ c ≠ '\\')

section Strings
variable {quote : Char} {written : Char → List Char}

theorem Escapes.backslash_ne (h : Escapes quote written) : '\\' ≠ quote := by
  rcases h.mark with hmark | hmark <;> rw [hmark] <;> decide

theorem Escapes.head_ne (h : Escapes quote written) (c : Char) :
    ∃ first more, written c = first :: more ∧ first ≠ quote := by
  rcases h.each c with ⟨e, hc, -⟩ | ⟨hc, hquote, -⟩
  · exact ⟨_, _, hc, h.backslash_ne⟩
  · exact ⟨_, _, hc, hquote⟩

/-- What a reader of strings makes of written characters, if it takes escapes and plain characters one by one and
    knows the end. -/
theorem read_written {reader : Nat → List Char → Except LexError (List Char × Nat)} (h : Escapes quote written)
    (escaped : ∀ e piece, unescape? e = some piece → ∀ taken rest,
      reader taken ('\\' :: e :: rest) = (reader (taken + 2) rest).map fun r => (piece ++ r.1, r.2))
    (plain : ∀ c, c ≠ quote → c ≠ '\n' → c ≠ '\\' → ∀ taken rest,
      reader taken (c :: rest) = (reader (taken + 1) rest).map fun r => (c :: r.1, r.2))
    {ending : List Char} {width : Nat} (close : ∀ taken, reader taken ending = .ok ([], taken + width))
    (s : List Char) (taken : Nat) :
    reader taken (s.flatMap written ++ ending) = .ok (s, taken + (s.flatMap written).length + width) := by
  induction s generalizing taken with
  | nil => exact close taken
  | cons c s ih =>
    rw [List.flatMap_cons, List.append_assoc, List.length_append]
    rcases h.each c with ⟨e, hc, he⟩ | ⟨hc, hquote, hline, hback⟩
    · rw [hc, List.cons_append, List.cons_append, List.nil_append, escaped e _ he, ih]
      simp only [Except.map, List.singleton_append, List.length_cons, List.length_nil]
      congr 2
      omega
    · rw [hc, List.singleton_append, plain c hquote hline hback, ih]
      simp only [Except.map, List.length_singleton]
      congr 2
      omega

theorem shortString_written (h : Escapes quote written) (s : List Char) (taken : Nat) (tail : List Char) :
    shortString quote taken (s.flatMap written ++ quote :: tail) =
      .ok (s, taken + (s.flatMap written).length + 1) := by
  refine read_written h (fun e piece he taken rest => ?_) (fun c hquote hline hback taken rest => ?_)
    (fun taken => ?_) s taken
  · rw [shortString.eq_def]
    simp [h.backslash_ne, he]
  · rw [shortString.eq_def]
    simp [hquote, hline, hback]
  · rw [shortString.eq_def]
    simp

theorem longString_written (h : Escapes quote written) (s : List Char) (taken : Nat) (tail : List Char) :
    longString quote taken (s.flatMap written ++ quote :: quote :: quote :: tail) =
      .ok (s, taken + (s.flatMap written).length + 3) := by
  refine read_written h (fun e piece he taken rest => ?_) (fun c hquote _ hback taken rest => ?_)
    (fun taken => ?_) s taken
  · rw [longString.eq_def]
    simp [h.backslash_ne, he]
  · rw [longString.eq_def]
    simp [hquote, hback]
  · rw [longString.eq_def]
    simp

theorem inked_quote (h : Escapes quote written) : Inked quote := by
  rcases h.mark with rfl | rfl <;> exact ⟨by decide, by decide⟩

/-- A string between single quotes. If nothing stands between them, the second is not taken for the second of three. -/
theorem readAs_single (h : Escapes quote written) (s : String) :
    ReadAs (quote :: (s.toList.flatMap written ++ [quote])) (.string s) := by
  refine ⟨_, _, rfl, inked_quote h, fun tail htail => ?_⟩
  have single : (s.toList.flatMap written ++ [quote] ++ tail).take 2 ≠ [quote, quote] := by
    cases s.toList with
    | nil =>
      have notSpace : ' ' ≠ quote := by rcases h.mark with hmark | hmark <;> rw [hmark] <;> decide
      cases htail <;> simp [notSpace]
    | cons c cs =>
      obtain ⟨first, more, hc, hfirst⟩ := h.head_ne c
      simp [hc, hfirst]
  rw [read, if_pos h.mark, readString]
  simp only [if_neg single]
  rw [List.append_assoc, List.singleton_append, shortString_written h]
  simp only [Except.map, String.ofList_toList, List.length_append, List.length_singleton]
  congr 2
  omega

/-- A string between triple quotes. -/
theorem readAs_triple (h : Escapes quote written) (s : String) :
    ReadAs (quote :: quote :: quote :: (s.toList.flatMap written ++ [quote, quote, quote])) (.string s) := by
  refine ⟨_, _, rfl, inked_quote h, fun tail _ => ?_⟩
  have triple : (quote :: quote :: (s.toList.flatMap written ++ [quote, quote, quote]) ++ tail).take 2 =
      [quote, quote] := rfl
  rw [read, if_pos h.mark, readString]
  simp only [if_pos triple]
  rw [List.cons_append, List.cons_append, List.append_assoc]
  show Except.map _ (longString quote 3 (s.toList.flatMap written ++ quote :: quote :: quote :: tail)) = _
  rw [longString_written h]
  simp only [Except.map, String.ofList_toList, List.length_append, List.length_cons, List.length_nil]
  congr 2
  omega

end Strings

theorem escapes_quoted : Escapes '"' Text.quoted := by
  refine ⟨.inr rfl, fun c => ?_⟩
  rw [Text.quoted]
  by_cases hquote : c = '"'
  · subst hquote
    exact .inl ⟨'"', rfl, rfl⟩
  · by_cases hback : c = '\\'
    · subst hback
      exact .inl ⟨'\\', rfl, rfl⟩
    · by_cases hline : c = '\n'
      · subst hline
        exact .inl ⟨'n', rfl, rfl⟩
      · rw [if_neg hquote, if_neg hback, if_neg hline]
        exact .inr ⟨rfl, hquote, hline, hback⟩

/-- A token is read as far as it is spelled. -/
theorem readAs_spelling {t : Token} (ht : t.Spelled) : ReadAs t.spelling t := by
  cases t with
  | float _ => cases ht
  | integer n => exact readAs_integer ht
  | string s => exact readAs_single escapes_quoted s
  | name x => exact readAs_name ht
  | symbol s => exact readAs_symbol s
  | finish => cases ht

/-! ### Scanning spelled tokens -/

/-- A text that begins with the characters of a token. -/
theorem scan_readAs (p : Place) {blank : List Char} (hblank : blank = [] ∨ blank = [' ']) {text : List Char} {t : Token}
    (ht : ReadAs text t) (h : Gap tail) : ∃ l q, l.token = t ∧ l.afterNewline = false ∧
      scan p (blank ++ (text ++ tail)) = (l :: (scan q tail).1, (scan q tail).2) := by
  obtain ⟨c, rest, rfl, hc, hread⟩ := ht
  rw [List.cons_append]
  have width : gap false (blank ++ c :: (rest ++ tail)) = blank.length := by
    rcases hblank with rfl | rfl
    · exact hc.gap _
    · rw [List.singleton_append, gap, if_neg (by decide), if_neg (by decide), if_pos (by decide), hc.gap]
      rfl
  have skipped : (blank ++ c :: (rest ++ tail)).drop (gap false (blank ++ c :: (rest ++ tail))) =
      c :: (rest ++ tail) := by
    rw [width, List.drop_left]
  have sameLine : ((blank ++ c :: (rest ++ tail)).take (gap false (blank ++ c :: (rest ++ tail)))).contains '\n' =
      false := by
    rw [width, List.take_left]
    rcases hblank with rfl | rfl <;> decide
  rw [scan]
  split
  · next hdrop =>
    rw [skipped] at hdrop
    cases hdrop
  · next hdrop =>
    rw [skipped] at hdrop
    cases hdrop
    rw [hread tail h]
    simp only [Nat.add_sub_cancel, List.drop_left]
    exact ⟨_, _, rfl, sameLine, rfl⟩

/-- What a scan of written tokens finds, where a space stands between any two. -/
theorem scan_written {pieces : List (Token × List Char)} (h : ∀ w ∈ pieces, ReadAs w.2 w.1) :
    ∀ (p : Place) {blank : List Char}, blank = [] ∨ blank = [' '] →
      ∃ lexemes, lexemes.map Lexeme.token = pieces.map Prod.fst ++ [.finish] ∧
        (∀ l ∈ lexemes, l.afterNewline = false) ∧
        scan p (blank ++ [' '].intercalate (pieces.map Prod.snd)) = (lexemes, none) := by
  induction pieces with
  | nil =>
    rintro p blank (rfl | rfl)
    · exact ⟨_, rfl, List.forall_mem_singleton.mpr rfl, by rw [scan]; rfl⟩
    · exact ⟨_, rfl, List.forall_mem_singleton.mpr rfl, by rw [scan]; rfl⟩
  | cons w rest ih =>
    obtain ⟨hw, hrest⟩ := List.forall_mem_cons.mp h
    intro p blank hblank
    -- what follows the first token: nothing, or a space and the others
    have later : ∃ more, (more = [] ∨ more = [' ']) ∧ Gap (more ++ [' '].intercalate (rest.map Prod.snd)) ∧
        [' '].intercalate ((w :: rest).map Prod.snd) =
          w.2 ++ (more ++ [' '].intercalate (rest.map Prod.snd)) := by
      cases rest with
      | nil => exact ⟨[], .inl rfl, .finish, by simp⟩
      | cons u more => exact ⟨[' '], .inr rfl, .space _, by simp⟩
    obtain ⟨more, hmore, hgap, htext⟩ := later
    obtain ⟨l, q, hl, hline, hscan⟩ := scan_readAs p hblank hw hgap
    obtain ⟨lexemes, htokens, hlines, hothers⟩ := ih hrest q hmore
    refine ⟨l :: lexemes, ?_, List.forall_mem_cons.mpr ⟨hline, hlines⟩, ?_⟩
    · rw [List.map_cons, hl, htokens, List.map_cons, List.cons_append]
    · rw [htext, hscan, hothers]

/-- The lexemes of a text of written tokens are these tokens, and no newline stands before any. -/
theorem ofText_written {pieces : List (Token × List Char)} (h : ∀ w ∈ pieces, ReadAs w.2 w.1) :
    ∃ lexemes, ofText (String.ofList ([' '].intercalate (pieces.map Prod.snd))) = .ok lexemes ∧
      lexemes.map Lexeme.token = pieces.map Prod.fst ++ [.finish] ∧ ∀ l ∈ lexemes, l.afterNewline = false := by
  obtain ⟨lexemes, htokens, hlines, hscan⟩ := scan_written h .start (.inl rfl)
  refine ⟨lexemes, ?_, htokens, hlines⟩
  rw [List.nil_append] at hscan
  rw [ofText, scanText, String.toList_ofList, hscan]

/-- The lexemes of a text of spelled tokens are these tokens. -/
theorem ofText_ofTokens {tokens : List Token} (h : ∀ t ∈ tokens, t.Spelled) :
    ∃ lexemes, ofText (Text.ofTokens tokens) = .ok lexemes ∧ lexemes.map Lexeme.token = tokens ++ [.finish] := by
  have written : ∀ w ∈ tokens.map fun t => (t, t.spelling), ReadAs w.2 w.1 :=
    List.forall_mem_map.mpr fun t ht => readAs_spelling (h t ht)
  obtain ⟨lexemes, hlexemes, htokens, -⟩ := ofText_written written
  rw [List.map_map] at hlexemes htokens
  have same : tokens.map (Prod.fst ∘ fun t => (t, t.spelling)) = tokens := List.map_id tokens
  exact ⟨lexemes, hlexemes, by rw [htokens, same]⟩

end Lexeme

/-! ### Strings between any quotes -/

/-- The quotes of a string: the character, and whether it stands three times. -/
structure Quotation where
  mark : { c : Char // c = '\'' ∨ c = '"' }
  tripled : Bool
deriving DecidableEq

/-- A character of a string between any quotes. -/
def Text.escaped (c : Char) : List Char :=
  if c = '\n' then ['\\', 'n']
  else if c = '\\' ∨ c = '\'' ∨ c = '"' then ['\\', c]
  else [c]

namespace Quotation

def single : Quotation := ⟨⟨'\'', .inl rfl⟩, false⟩
def tripleDouble : Quotation := ⟨⟨'"', .inr rfl⟩, true⟩

def enclose (q : Quotation) (s : String) : List Char :=
  let quotes := List.replicate (if q.tripled then 3 else 1) q.mark.val
  quotes ++ (s.toList.flatMap Text.escaped ++ quotes)

end Quotation

/-- The characters that a token is written with, if strings get these quotes. -/
def Token.writtenWith (q : Quotation) : Token → List Char
  | string s => q.enclose s
  | t => t.spelling

/-- The text of some tokens, each string with quotes of its own, with a space between any two. -/
def Text.ofWritten (tokens : List (Token × Quotation)) : String :=
  String.ofList ([' '].intercalate (tokens.map fun w => w.1.writtenWith w.2))

namespace Lexeme

/-- Both quote characters are escapes, so the text of a string does not depend on the quotes around it. -/
theorem escapes_escaped (q : Quotation) : Escapes q.mark.val Text.escaped := by
  refine ⟨q.mark.property, fun c => ?_⟩
  rw [Text.escaped]
  by_cases hline : c = '\n'
  · subst hline
    exact .inl ⟨'n', rfl, rfl⟩
  · rw [if_neg hline]
    by_cases hc : c = '\\' ∨ c = '\'' ∨ c = '"'
    · rw [if_pos hc]
      rcases hc with rfl | rfl | rfl <;> exact .inl ⟨_, rfl, rfl⟩
    · rw [if_neg hc]
      obtain ⟨hback, hquotes⟩ := not_or.mp hc
      have notQuote : c ≠ q.mark.val := fun h => hquotes (h ▸ q.mark.property)
      exact .inr ⟨rfl, notQuote, hline, hback⟩

theorem readAs_enclose (q : Quotation) (s : String) : ReadAs (q.enclose s) (.string s) := by
  obtain ⟨mark, tripled⟩ := q
  cases tripled with
  | false => exact readAs_single (escapes_escaped ⟨mark, false⟩) s
  | true => exact readAs_triple (escapes_escaped ⟨mark, true⟩) s

theorem readAs_writtenWith (q : Quotation) {t : Token} (ht : t.Spelled) : ReadAs (t.writtenWith q) t := by
  cases t with
  | string s => exact readAs_enclose q s
  | float _ | integer _ | name _ | symbol _ | finish => exact readAs_spelling ht

/-- The lexemes of a written text are the tokens that it was written from, whatever quotes its strings have. -/
theorem ofText_ofWritten {tokens : List (Token × Quotation)} (h : ∀ w ∈ tokens, w.1.Spelled) :
    ∃ lexemes, ofText (Text.ofWritten tokens) = .ok lexemes ∧
      lexemes.map Lexeme.token = tokens.map Prod.fst ++ [.finish] ∧ ∀ l ∈ lexemes, l.afterNewline = false := by
  have written : ∀ w ∈ tokens.map fun w => (w.1, w.1.writtenWith w.2), ReadAs w.2 w.1 :=
    List.forall_mem_map.mpr fun w hw => readAs_writtenWith w.2 (h w hw)
  obtain ⟨lexemes, hlexemes, htokens, hlines⟩ := ofText_written written
  rw [List.map_map] at hlexemes htokens
  exact ⟨lexemes, hlexemes, htokens, hlines⟩

theorem ofText_ofWritten_strings : ∃ tokens : List (Token × Quotation),
    Text.ofWritten tokens = "'' ** x in 12 \"\"\"it\\'s\\n\"\"\"" ∧
      ∃ lexemes, ofText (Text.ofWritten tokens) = .ok lexemes ∧
        lexemes.map Lexeme.token = tokens.map Prod.fst ++ [.finish] ∧ ∀ l ∈ lexemes, l.afterNewline = false := by
  have x : Name.IsIdentifier "x" := ⟨'x', [], rfl, rfl, List.forall_mem_nil _, by decide⟩
  refine ⟨[(.string "", .single), (.symbol .power, .single), (.name "x", .single), (.symbol .within, .single),
    (.integer 12, .single), (.string "it's\n", .tripleDouble)], by decide +kernel, ofText_ofWritten ?_⟩
  simp [Token.Spelled, x]

end Lexeme
end RecordStats
