import RecordStats.Program.Basic
import RecordStats.Proofs.Glob.Wildcard
import RecordStats.Proofs.Regex.Matching

/-!
Patterns that are one bracketed set of single characters, without hyphens and closing brackets. Such a set accepts its
characters, and with `!` at its head all others, where it holds no opening bracket and no operator of sets. A caret at
its head brings the backslash with it, since it is escaped before backslashes are doubled.
-/

namespace RecordStats.Glob

open Regex

theorem doubleBackslashes_cons (c : Char) (s : List Char) :
    doubleBackslashes (c :: s) = (if c = '\\' then ['\\', '\\'] else [c]) ++ doubleBackslashes s := rfl

theorem head?_doubleBackslashes (s : List Char) (d : Char) (rest : List Char) :
    (doubleBackslashes s ++ d :: rest).head? = some (s.head?.getD d) := by
  cases s with
  | nil => rfl
  | cons c s =>
    rw [doubleBackslashes_cons]
    split_ifs with h <;> simp [h]

/-! ### Reading a set -/

/-- The characters that are read one by one, but for those that stand twice as an operator. -/
def Plain (s : List Char) : Prop := ∀ c ∈ s, c ∉ ['[', ']', '-']

/-- A character that is not the first of an operator is read as itself, up to the next bracket. -/
theorem readSet?_char {inner : OpenSet} {outer : List OpenSet} {c d : Char} {s rest : List Char}
    (plain : Plain (c :: s)) (bracket : d ∈ ['[', ']']) (single : c ∈ ['&', '~'] → s.head? ≠ some c) :
    readSet? inner outer (doubleBackslashes (c :: s) ++ d :: rest) =
      readSet? (inner.add (.single c)) outer (doubleBackslashes s ++ d :: rest) := by
  obtain ⟨hc, hs⟩ := List.forall_mem_cons.mp plain
  have next : s.head?.getD d ∉ ['-'] ∧ (c ∈ ['&', '~'] → s.head?.getD d ≠ c) := by
    cases s with
    | nil => grind
    | cons e s => exact ⟨fun h => hs e (List.mem_cons_self ..) (by simp_all), fun h => by simpa using single h⟩
  have hyphen : (doubleBackslashes s ++ d :: rest).head? ≠ some '-' := by
    rw [head?_doubleBackslashes]
    simpa using next.1
  rw [doubleBackslashes_cons]
  split_ifs with h
  · subst h
    exact readSet?_item (by decide) (fun h => absurd h (by decide)) (setItem?_of_setChar? rfl hyphen)
  · refine readSet?_item (by grind) (fun operator => ?_) (setItem?_of_setChar? (setChar?_cons h _) hyphen)
    show (doubleBackslashes s ++ d :: rest).head? ≠ some c
    have : c ∈ ['&', '~'] := by grind
    rw [head?_doubleBackslashes]
    simpa using next.2 this

/-- No character stands twice in a row that would then be an operator of sets. -/
def Undoubled (s : List Char) : Prop := ¬ ['&', '&'] <:+: s ∧ ¬ ['~', '~'] <:+: s

theorem Undoubled.tail {c : Char} {s : List Char} (h : Undoubled (c :: s)) : Undoubled s :=
  ⟨fun hs => h.1 (hs.trans (List.suffix_cons c s).isInfix), fun hs => h.2 (hs.trans (List.suffix_cons c s).isInfix)⟩

theorem Undoubled.head? {c : Char} {s : List Char} (h : Undoubled (c :: s)) (hc : c ∈ ['&', '~']) :
    s.head? ≠ some c := by
  intro hs
  obtain ⟨t, rfl⟩ := List.head?_eq_some_iff.mp hs
  have twice : [c, c] <:+: c :: c :: t := (List.prefix_append [c, c] t).isInfix
  simp only [List.mem_cons, List.not_mem_nil, or_false] at hc
  rcases hc with rfl | rfl
  · exact h.1 twice
  · exact h.2 twice

/-- The characters of a set are read one by one up to its closing bracket. -/
theorem readSet?_chars {inner : OpenSet} {outer : List OpenSet} {s rest : List Char} (plain : Plain s)
    (undoubled : Undoubled s) :
    readSet? inner outer (doubleBackslashes s ++ ']' :: rest) =
      readSet? { inner with items := inner.items.addAll s } outer (']' :: rest) := by
  induction s generalizing inner with
  | nil => rfl
  | cons c s ih =>
    rw [readSet?_char plain (by decide) undoubled.head?, ih (List.forall_mem_cons.mp plain).2 undoubled.tail]
    rfl

theorem readSet?_operator {c : Char} (hc : c ∈ ['&', '~']) (inner : OpenSet) (outer : List OpenSet) :
    ∃ inner', ∀ rest, readSet? inner outer (c :: c :: rest) = readSet? inner' outer rest := by
  simp only [List.mem_cons, List.not_mem_nil, or_false] at hc
  rcases hc with rfl | rfl
  · exact ⟨inner.operate .meet, fun rest => by rw [readSet?]⟩
  · exact ⟨inner.operate .symmetric, fun rest => by rw [readSet?]⟩

/-- Whatever operators stand before it, an opening bracket is reached. -/
theorem readSet?_reaches (outer : List OpenSet) {s : List Char} (rest : List Char) (plain : Plain s) (inner : OpenSet) :
    ∃ inner', readSet? inner outer (doubleBackslashes s ++ '[' :: rest) = readSet? inner' outer ('[' :: rest) := by
  match s with
  | [] => exact ⟨inner, rfl⟩
  | c :: s =>
    have plain' := (List.forall_mem_cons.mp plain).2
    by_cases single : c ∈ ['&', '~'] → s.head? ≠ some c
    · rw [readSet?_char plain (by decide) single]
      exact readSet?_reaches outer rest plain' _
    · obtain ⟨hc, hs⟩ := Classical.not_imp.mp single
      obtain ⟨t, rfl⟩ := List.head?_eq_some_iff.mp (not_not.mp hs)
      obtain ⟨inner', operator⟩ := readSet?_operator hc inner outer
      have backslash : c ≠ '\\' := by rintro rfl; exact absurd hc (by decide)
      simp only [doubleBackslashes_cons, if_neg backslash, List.cons_append, List.nil_append, operator]
      exact readSet?_reaches outer rest (List.forall_mem_cons.mp plain').2 inner'

/-! ### Sets as parts of a pattern -/

/-- A set that begins with none of the characters that mean something there. -/
theorem start_plain {c : Char} {text : List Char} (head : text.head? = some c) (hc : c ∉ ['^', '-', ']']) :
    OpenSet.start text = (⟨false, none, .empty⟩, text) := by
  obtain ⟨text, rfl⟩ := List.head?_eq_some_iff.mp head
  simp only [List.mem_cons, List.not_mem_nil, or_false, not_or] at hc
  simp [OpenSet.start, hc, CharSet.addAll]

theorem start_caret {c : Char} {text : List Char} (head : text.head? = some c) (hc : c ∉ ['-', ']']) :
    OpenSet.start ('^' :: text) = (⟨true, none, .empty⟩, text) := by
  obtain ⟨text, rfl⟩ := List.head?_eq_some_iff.mp head
  simp only [List.mem_cons, List.not_mem_nil, or_false, not_or] at hc
  simp [OpenSet.start, hc, CharSet.addAll]

/-- What a set holds as it is read: a caret at its head has a backslash before it. -/
def escaped (s : List Char) : List Char :=
  if s.head? = some '^' then '\\' :: s else s

theorem mem_escaped_iff {s : List Char} {c : Char} : c ∈ escaped s ↔ c ∈ s ∨ s.head? = some '^' ∧ c = '\\' := by
  unfold escaped
  split_ifs with h <;> simp [h, or_comm]

theorem setRegex_escaped {s : List Char} (bang : s.head? ≠ some '!') :
    setRegex s = doubleBackslashes (escaped s) := by
  cases s with
  | nil => rfl
  | cons c s =>
    by_cases caret : c = '^'
    · subst caret
      rfl
    · have bang : c ≠ '!' := fun h => bang (by rw [h]; rfl)
      simp [setRegex, escaped, caret, bang]

theorem Undoubled.escaped {s : List Char} (h : Undoubled s) : Undoubled (escaped s) := by
  unfold Glob.escaped
  split_ifs
  · constructor <;> rw [List.infix_cons_iff] <;> rintro (⟨_, hprefix⟩ | inside)
    · cases hprefix
    · exact h.1 inside
    · cases hprefix
    · exact h.2 inside
  · exact h

theorem setRegex_bang (s : List Char) : setRegex ('!' :: s) = '^' :: doubleBackslashes s := rfl

theorem mem_doubleBackslashes_iff {s : List Char} {c : Char} : c ∈ doubleBackslashes s ↔ c ∈ s := by
  simp only [doubleBackslashes, List.mem_flatMap]
  constructor
  · rintro ⟨d, hd, hc⟩
    split_ifs at hc with h <;> simp_all
  · intro hc
    refine ⟨c, hc, ?_⟩
    split_ifs with h <;> simp [h]

/-- What begins as a set of single characters is the set of them. -/
theorem charSet?_chars {text s rest : List Char} {negated : Bool}
    (start : OpenSet.start text = (⟨negated, none, .empty⟩, doubleBackslashes s ++ ']' :: rest)) (plain : Plain s)
    (undoubled : Undoubled s) : charSet? text = some (.bracketed negated (CharSet.empty.addAll s), rest) := by
  rw [charSet?, start, readSet?_chars plain undoubled, readSet?]
  rfl

/-- With an opening bracket among its characters the set is not closed. -/
theorem charSet?_unclosed {text s rest : List Char} {inner : OpenSet}
    (start : OpenSet.start text = (inner, doubleBackslashes s ++ ']' :: rest)) (hopen : '[' ∈ s) (close : ']' ∉ s)
    (hyphen : '-' ∉ s) (last : ']' ∉ rest) : charSet? text = none := by
  obtain ⟨u, v, rfl, first⟩ := List.eq_append_cons_of_mem hopen
  have plain : Plain u := fun c hc => by
    simp only [List.mem_append, not_or] at close hyphen
    simp only [List.mem_cons, List.not_mem_nil, or_false, not_or]
    exact ⟨fun h => first (h ▸ hc), fun h => close.1 (h ▸ hc), fun h => hyphen.1 (h ▸ hc)⟩
  have split : doubleBackslashes (u ++ '[' :: v) ++ ']' :: rest =
      doubleBackslashes u ++ '[' :: (doubleBackslashes v ++ ']' :: rest) := by
    simp [doubleBackslashes]
  obtain ⟨inner', reaches⟩ := readSet?_reaches [] (doubleBackslashes v ++ ']' :: rest) plain inner
  have one : (doubleBackslashes v ++ ']' :: rest).count ']' = 1 := by
    have close : ']' ∉ v := fun h => close (List.mem_append_right u (List.mem_cons_of_mem _ h))
    rw [List.count_append, List.count_cons_self, List.count_eq_zero.mpr last,
      List.count_eq_zero.mpr (mt mem_doubleBackslashes_iff.mp close)]
  rw [charSet?, start, split, reaches]
  cases h : readSet? inner' [] ('[' :: (doubleBackslashes v ++ ']' :: rest)) with
  | none => rfl
  | some p =>
    have := count_of_readSet?_nested h
    simp [one] at this

/-- A text between brackets is a set. -/
theorem pieces_bracketed {body : List Char} (h : setText? (body ++ [']']) = some (body, [])) :
    pieces ('[' :: body ++ [']']) = [.set body] := by
  rw [List.cons_append, pieces]
  split
  · next h' =>
    rw [h] at h'
    cases h'
    rw [pieces]
  · next h' =>
    rw [h] at h'
    cases h'

/-- A set is read up to its first closing bracket, an exclamation mark at its head included. -/
theorem setText?_chars {s bang : List Char} (nonempty : s ≠ []) (close : ']' ∉ s)
    (hbang : bang = ['!'] ∨ bang = [] ∧ s.head? ≠ some '!') :
    setText? (bang ++ s ++ [']']) = some (bang ++ s, []) := by
  obtain ⟨c, s, rfl⟩ := List.exists_cons_of_ne_nil nonempty
  have all : ∀ d ∈ c :: s, decide (d ≠ ']') = true := fun d hd => by
    rw [decide_eq_true_iff]
    exact fun h => close (h ▸ hd)
  rcases hbang with rfl | ⟨rfl, hbang⟩ <;>
    simp_all [setText?, List.takeWhile_append_of_pos, List.dropWhile_append_of_pos]

theorem readsAs_set {body : List Char} {set : CharSet}
    (h : ∀ rest, charSet? (setRegex body ++ ']' :: rest) = some (set, rest)) :
    (Piece.set body).ReadsAs (.one (.set set)) := fun rest star => by
  have text : (Piece.set body).regex ++ rest = '[' :: (setRegex body ++ ']' :: rest) := by simp [Piece.regex]
  rw [text]
  exact terms?_of_atom? (by decide) (by rw [atom?, h]; rfl) star

/-! ### Whole patterns -/

/-- The pattern that is one set. -/
def bracketed (body : List Char) : String := String.ofList ('[' :: body ++ [']'])

theorem compile?_bracketed {body s : List Char} {negated : Bool} (part : setText? (body ++ [']']) = some (body, []))
    (start : ∀ rest, OpenSet.start (setRegex body ++ ']' :: rest) =
      (⟨negated, none, .empty⟩, doubleBackslashes s ++ ']' :: rest)) (plain : Plain s) (undoubled : Undoubled s) :
    compile? (bracketed body) = some [.start, .one (.set (.bracketed negated (CharSet.empty.addAll s))), .stop] := by
  have parts : List.Forall₂ Piece.ReadsAs (pieces (bracketed body).toList)
      [.one (.set (.bracketed negated (CharSet.empty.addAll s)))] := by
    rw [bracketed, String.toList_ofList, pieces_bracketed part]
    exact .cons (readsAs_set fun rest => charSet?_chars (start rest) plain undoubled) .nil
  refine compile?_of_readsAs parts fun t ht => ?_
  rw [List.mem_singleton.mp ht]
  have : (CharSet.empty.addAll s).depth ≤ 1 := depth_addAll_le s (by decide)
  simp only [Term.depth, Atom.depth, CharSet.depth, depthLimit]
  omega

theorem compile?_unclosed {body : List Char} (part : setText? (body ++ [']']) = some (body, []))
    (h : charSet? (setRegex body ++ [']', '$']) = none) : compile? (bracketed body) = none := by
  have text : (regexText (bracketed body)).toList = '^' :: '[' :: (setRegex body ++ [']', '$']) := by
    rw [regexText, bracketed, String.toList_ofList, String.toList_ofList, pieces_bracketed part]
    simp [Piece.regex]
  have terms : terms? ('[' :: (setRegex body ++ [']', '$'])) = none := by
    have atom : atom? ('[' :: (setRegex body ++ [']', '$'])) = none := by rw [atom?, h]; rfl
    rw [terms?]
    · split
      · rfl
      · next h' => rw [atom] at h'; cases h'
      · next h' => rw [atom] at h'; cases h'
    all_goals decide
  rw [compile?, ofText?, text, terms?, terms]
  rfl

theorem accepts_bracketed_iff {body s : List Char} {negated : Bool} (span : Span) (c : Char) :
    Pattern.accepts ⟨bracketed body, [.start, .one (.set (.bracketed negated (CharSet.empty.addAll s))), .stop], span⟩
      (String.singleton c) = true ↔ (c ∈ s ↔ negated = false) := by
  have contains : (CharSet.empty.addAll s).contains c = true ↔ c ∈ s := by
    rw [contains_addAll]
    simp [CharSet.contains]
  rw [Pattern.accepts, isMatch_start_iff, fits_one_iff, String.toList_singleton]
  constructor
  · rintro ⟨d, rest, h, takes, _⟩
    cases h
    rw [← contains]
    cases negated <;> simpa [Atom.takes, CharSet.contains] using takes
  · intro h
    refine ⟨c, [], rfl, ?_, .stop .nil⟩
    rw [← contains] at h
    cases negated <;> simpa [Atom.takes, CharSet.contains] using h

section Characters

variable {s : List Char} (nonempty : s ≠ []) (close : ']' ∉ s) (hyphen : '-' ∉ s)

include nonempty close hyphen

theorem start_setRegex (bang : s.head? ≠ some '!') (rest : List Char) :
    OpenSet.start (setRegex s ++ ']' :: rest) =
      (⟨false, none, .empty⟩, doubleBackslashes (escaped s) ++ ']' :: rest) := by
  rw [setRegex_escaped bang]
  refine start_plain (head?_doubleBackslashes ..) ?_
  obtain ⟨c, s, rfl⟩ := List.exists_cons_of_ne_nil nonempty
  unfold escaped
  split_ifs with caret
  · show '\\' ∉ _
    decide
  · grind

theorem start_setRegex_bang (rest : List Char) :
    OpenSet.start (setRegex ('!' :: s) ++ ']' :: rest) =
      (⟨true, none, .empty⟩, doubleBackslashes s ++ ']' :: rest) := by
  rw [setRegex_bang]
  refine start_caret (head?_doubleBackslashes ..) ?_
  obtain ⟨c, s, rfl⟩ := List.exists_cons_of_ne_nil nonempty
  grind

/-- An opening bracket among its characters leaves the set without an end. -/
theorem compile?_bracketed_unclosed (bang : s.head? ≠ some '!') (hopen : '[' ∈ s) :
    compile? (bracketed s) = none ∧ compile? (bracketed ('!' :: s)) = none := by
  have absent {c : Char} (hc : c ∉ s) (h : c ≠ '\\') : c ∉ escaped s := by
    simp [mem_escaped_iff, hc, h]
  constructor
  · exact compile?_unclosed (setText?_chars nonempty close (.inr ⟨rfl, bang⟩))
      (charSet?_unclosed (start_setRegex nonempty close hyphen bang ['$']) (mem_escaped_iff.mpr (.inl hopen))
        (absent close (by decide)) (absent hyphen (by decide)) (by decide))
  · exact compile?_unclosed (setText?_chars nonempty close (.inl rfl))
      (charSet?_unclosed (start_setRegex_bang nonempty close hyphen ['$']) hopen close hyphen (by decide))

end Characters

/-- A set of single characters, none of them a bracket and no two of them an operator, accepts its characters, and
its complement all others. With a caret at its head it accepts the backslash too. -/
theorem bracketed_accepts_iff {s : List Char} (nonempty : s ≠ []) (close : ']' ∉ s) (hyphen : '-' ∉ s)
    (bang : s.head? ≠ some '!') :
    ('[' ∈ s → compile? (bracketed s) = none ∧ compile? (bracketed ('!' :: s)) = none) ∧
    ('[' ∉ s → Undoubled s → ∃ only others,
      compile? (bracketed s) = some only ∧ compile? (bracketed ('!' :: s)) = some others ∧
      ∀ (span : Span) (c : Char),
        (Pattern.accepts ⟨bracketed s, only, span⟩ (String.singleton c) = true ↔
          c ∈ s ∨ s.head? = some '^' ∧ c = '\\') ∧
        (Pattern.accepts ⟨bracketed ('!' :: s), others, span⟩ (String.singleton c) = true ↔ c ∉ s)) := by
  refine ⟨compile?_bracketed_unclosed nonempty close hyphen bang, fun hopen undoubled => ?_⟩
  have plain : Plain s := fun c hc h => by
    simp only [List.mem_cons, List.not_mem_nil, or_false] at h
    rcases h with rfl | rfl | rfl
    · exact hopen hc
    · exact close hc
    · exact hyphen hc
  have plain' : Plain (escaped s) := fun c hc h => by
    rcases mem_escaped_iff.mp hc with hc | ⟨_, rfl⟩
    · exact plain c hc h
    · exact absurd h (by decide)
  refine ⟨_, _,
    compile?_bracketed (setText?_chars nonempty close (.inr ⟨rfl, bang⟩))
      (start_setRegex nonempty close hyphen bang) plain' undoubled.escaped,
    compile?_bracketed (setText?_chars nonempty close (.inl rfl))
      (start_setRegex_bang nonempty close hyphen) plain undoubled,
    fun span c => ⟨?_, ?_⟩⟩
  · rw [accepts_bracketed_iff, mem_escaped_iff]
    exact iff_true_right rfl
  · rw [accepts_bracketed_iff]
    simp

/-- A caret, an ampersand and a letter. -/
theorem bracketed_accepts_ampersand :
    (['^', '&', 'x'] ≠ [] ∧ ']' ∉ ['^', '&', 'x'] ∧ '-' ∉ ['^', '&', 'x'] ∧ ['^', '&', 'x'].head? ≠ some '!' ∧
      '[' ∉ ['^', '&', 'x'] ∧ Undoubled ['^', '&', 'x']) ∧
    ∃ only others, compile? (bracketed ['^', '&', 'x']) = some only ∧
      compile? (bracketed ['!', '^', '&', 'x']) = some others ∧
      Pattern.accepts ⟨bracketed ['^', '&', 'x'], only, default⟩ (String.singleton '&') = true ∧
      Pattern.accepts ⟨bracketed ['!', '^', '&', 'x'], others, default⟩ (String.singleton '&') = false := by
  have undoubled : Undoubled ['^', '&', 'x'] := by unfold Undoubled; decide
  obtain ⟨only, others, compiled, compiled', accepts⟩ :=
    (bracketed_accepts_iff (s := ['^', '&', 'x']) (by decide) (by decide) (by decide) (by decide)).2 (by decide)
      undoubled
  refine ⟨⟨by decide, by decide, by decide, by decide, by decide, undoubled⟩, only, others, compiled, compiled',
    (accepts default '&').1.mpr (.inl (by decide)), ?_⟩
  rw [Bool.eq_false_iff]
  exact fun h => (accepts default '&').2.mp h (by decide)

/-- The set of the caret alone accepts the backslash, that of the opening bracket alone cannot be compiled, and two
ampersands leave nothing that stands on both sides of them. -/
theorem bracketed_not_its_characters :
    (∃ only, compile? (bracketed ['^']) = some only ∧
      ¬ (Pattern.accepts ⟨bracketed ['^'], only, default⟩ (String.singleton '\\') = true ↔ '\\' ∈ ['^'])) ∧
    compile? (bracketed ['[']) = none ∧
    ∃ only, compile? (bracketed ['a', '&', '&', 'b']) = some only ∧
      ¬ (Pattern.accepts ⟨bracketed ['a', '&', '&', 'b'], only, default⟩ (String.singleton 'a') = true ↔
        'a' ∈ ['a', '&', '&', 'b']) := by
  have caret : (compile? (bracketed ['^'])).any (fun r => r.isMatch (String.singleton '\\')) = true := by
    decide +kernel
  have bracket : compile? (bracketed ['[']) = none := by decide +kernel
  have meet : (compile? (bracketed ['a', '&', '&', 'b'])).any (fun r => !r.isMatch (String.singleton 'a')) = true := by
    decide +kernel
  obtain ⟨only, compiled, accepts⟩ := (Option.any_eq_true _ _).mp caret
  obtain ⟨only', compiled', refuses⟩ := (Option.any_eq_true _ _).mp meet
  refine ⟨⟨only, compiled, fun h => ?_⟩, bracket, only', compiled', fun h => ?_⟩
  · exact absurd (h.mp accepts) (by decide)
  · have accepts : only'.isMatch (String.singleton 'a') = true := h.mpr (by decide)
    rw [accepts] at refuses
    cases refuses

end RecordStats.Glob
