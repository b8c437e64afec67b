import RecordStats.Glob.Pattern
import RecordStats.Program.Basic
import RecordStats.Proofs.Regex.Matching

/-!
How patterns are read as regular expressions: part by part, and the whole between the two anchors. Patterns without
sets accept just the tags that they describe: a star is any run of characters, a question mark any one, and all else
stands for itself. Newlines are apart, since a wildcard takes none.
-/

namespace RecordStats.Glob

open Regex

/-- The part's text is read as one term. No text behind it that begins with a star would leave it so. -/
def Piece.ReadsAs (p : Piece) (t : Term) : Prop :=
  ∀ rest, rest.head? ≠ some '*' → terms? (p.regex ++ rest) = (terms? rest).map (t :: ·)

/-! ### Single parts -/

/-- What is read as an atom and has no star behind it stands once. -/
theorem terms?_of_atom? {c : Char} {text rest : List Char} {a : Atom} (hc : c ≠ '^' ∧ c ≠ '$')
    (h : atom? (c :: text) = some (a, rest)) (star : rest.head? ≠ some '*') :
    terms? (c :: text) = (terms? rest).map (.one a :: ·) := by
  rw [terms?]
  · split
    · next h' => rw [h] at h'; cases h'
    · next h' => rw [h] at h'; cases h'; simp at star
    · next h' => rw [h] at h'; cases h'; rfl
  · exact fun h => hc.1 h
  · exact fun h => hc.2 h

theorem terms?_of_atom?_star {c : Char} {text rest : List Char} {a : Atom} (hc : c ≠ '^' ∧ c ≠ '$')
    (h : atom? (c :: text) = some (a, '*' :: rest)) :
    terms? (c :: text) = (terms? rest).map (.many a :: ·) := by
  rw [terms?]
  · split
    · next h' => rw [h] at h'; cases h'
    · next h' => rw [h] at h'; cases h'; rfl
    · next none h' => rw [h] at h'; cases h'; exact absurd rfl (none _)
  · exact fun h => hc.1 h
  · exact fun h => hc.2 h

theorem readsAs_run : Piece.run.ReadsAs (.many .any) := fun rest _ =>
  terms?_of_atom?_star (by decide) rfl

theorem readsAs_any : Piece.any.ReadsAs (.one .any) := fun rest star =>
  terms?_of_atom? (by decide) rfl star

theorem readsAs_char (c : Char) : (Piece.char c).ReadsAs (.one (.char c)) := fun rest star => by
  by_cases hc : c ∈ marks
  · rw [Piece.regex, if_pos hc]
    exact terms?_of_atom? (by decide) (by simp [atom?, hc]) star
  · have special_subset : special ⊆ marks := by decide
    have hspecial : c ∉ special := fun h => hc (special_subset h)
    have atom : atom? (c :: rest) = some (.char c, rest) := by
      unfold atom?
      split <;> simp_all [special]
    rw [Piece.regex, if_neg hc]
    refine terms?_of_atom? ⟨?_, ?_⟩ atom star <;> rintro rfl <;> simp [special] at hspecial

/-! ### Whole patterns -/

/-- No part's text begins with a star, so each part is read apart from those behind it. -/
theorem head?_regex_append (p : Piece) (rest : List Char) : (p.regex ++ rest).head? ≠ some '*' := by
  cases p with
  | run => simp [Piece.regex]
  | any => simp [Piece.regex]
  | set text => simp [Piece.regex]
  | char c =>
    by_cases hc : c ∈ marks
    · simp [Piece.regex, hc]
    · have star : '*' ∈ marks := by decide
      simp only [Piece.regex, hc, if_false, List.cons_append, List.head?_cons, ne_eq, Option.some.injEq]
      rintro rfl
      exact hc star

theorem head?_regexes (ps : List Piece) : (ps.flatMap Piece.regex ++ ['$']).head? ≠ some '*' := by
  cases ps with
  | nil => simp
  | cons p ps => rw [List.flatMap_cons, List.append_assoc]; exact head?_regex_append p _

theorem terms?_regexes {ps : List Piece} {ts : List Term} (h : List.Forall₂ Piece.ReadsAs ps ts) :
    terms? (ps.flatMap Piece.regex ++ ['$']) = some (ts ++ [.stop]) := by
  induction h with
  | nil => simp [terms?]
  | @cons p t ps ts reads _ ih =>
    rw [List.flatMap_cons, List.append_assoc, reads _ (head?_regexes ps), ih]
    rfl

/-- A pattern is compiled to the terms of its parts, between the anchors. -/
theorem compile?_of_readsAs {g : String} {ts : List Term} (h : List.Forall₂ Piece.ReadsAs (pieces g.toList) ts)
    (shallow : ∀ t ∈ ts, t.depth < depthLimit) : compile? g = some (.start :: (ts ++ [.stop])) := by
  have text : (regexText g).toList = '^' :: ((pieces g.toList).flatMap Piece.regex ++ ['$']) := by
    rw [regexText, String.toList_ofList, List.cons_append]
  have terms : terms? (regexText g).toList = some (.start :: (ts ++ [.stop])) := by
    rw [text, terms?, terms?_regexes h]
    rfl
  rw [compile?, ofText?, terms]
  simpa using ⟨by decide, shallow, by decide⟩

/-! ### What a pattern describes -/

/-- The text as a whole is what the pattern describes. -/
inductive Matches : List Char → List Char → Prop where
  | nil : Matches [] []
  | run {g text : List Char} (taken : List Char) (rest : Matches g text) : Matches ('*' :: g) (taken ++ text)
  | any {g text : List Char} (c : Char) (rest : Matches g text) : Matches ('?' :: g) (c :: text)
  | char {g text : List Char} {c : Char} (plain : c ≠ '*' ∧ c ≠ '?') (rest : Matches g text) :
      Matches (c :: g) (c :: text)

theorem matches_nil_iff {text : List Char} : Matches [] text ↔ text = [] := by
  constructor
  · rintro ⟨⟩
    rfl
  · rintro rfl
    exact .nil

theorem matches_run_iff {g text : List Char} :
    Matches ('*' :: g) text ↔ ∃ taken rest, text = taken ++ rest ∧ Matches g rest := by
  constructor
  · intro h
    cases h with
    | run taken rest => exact ⟨taken, _, rfl, rest⟩
    | char plain => exact absurd rfl plain.1
  · rintro ⟨taken, rest, rfl, h⟩
    exact .run taken h

theorem matches_any_iff {g text : List Char} :
    Matches ('?' :: g) text ↔ ∃ c rest, text = c :: rest ∧ Matches g rest := by
  constructor
  · intro h
    cases h with
    | any c rest => exact ⟨c, _, rfl, rest⟩
    | char plain => exact absurd rfl plain.2
  · rintro ⟨c, rest, rfl, h⟩
    exact .any c h

theorem matches_char_iff {g text : List Char} {c : Char} (plain : c ≠ '*' ∧ c ≠ '?') :
    Matches (c :: g) text ↔ ∃ rest, text = c :: rest ∧ Matches g rest := by
  constructor
  · intro h
    cases h with
    | run => exact absurd rfl plain.1
    | any => exact absurd rfl plain.2
    | char _ rest => exact ⟨_, rfl, rest⟩
  · rintro ⟨rest, rfl, h⟩
    exact .char plain h

/-! ### Without sets -/

/-- The term that a character of a pattern without sets becomes. -/
def plainTerm (c : Char) : Term :=
  if c = '*' then .many .any else if c = '?' then .one .any else .one (.char c)

theorem pieces_readAs_plain {g : List Char} (plain : '[' ∉ g) :
    List.Forall₂ Piece.ReadsAs (pieces g) (g.map plainTerm) := by
  fun_induction pieces g with
  | case1 => exact .nil
  | case2 rest ih => exact .cons readsAs_run (ih (List.not_mem_of_not_mem_cons plain))
  | case3 rest ih => exact .cons readsAs_any (ih (List.not_mem_of_not_mem_cons plain))
  | case4 => exact absurd (List.mem_cons_self ..) plain
  | case5 => exact absurd (List.mem_cons_self ..) plain
  | case6 c rest star mark _ ih =>
    have term : plainTerm c = .one (.char c) := by
      rw [plainTerm, if_neg (fun h => star h), if_neg (fun h => mark h)]
    rw [List.map_cons, term]
    exact .cons (readsAs_char c) (ih (List.not_mem_of_not_mem_cons plain))

theorem depth_plainTerm_lt (c : Char) : (plainTerm c).depth < depthLimit := by
  unfold plainTerm
  split_ifs <;> simp [Term.depth, Atom.depth, depthLimit]

theorem compile?_plain {g : String} (plain : '[' ∉ g.toList) :
    compile? g = some (.start :: (g.toList.map plainTerm ++ [.stop])) :=
  compile?_of_readsAs (pieces_readAs_plain plain) (List.forall_mem_map.mpr fun c _ => depth_plainTerm_lt c)

theorem takes_any {text : List Char} (line : '\n' ∉ text) : ∀ c ∈ text, Atom.any.takes c = true := by
  intro c hc
  simp only [Atom.takes, bne_iff_ne]
  rintro rfl
  exact line hc

/-- On a text of one line, the terms of a pattern match all of it just where the pattern describes it. -/
theorem fits_plain_iff {g text : List Char} {atStart : Bool} (line : '\n' ∉ text) :
    Fits atStart (g.map plainTerm ++ [.stop]) text ↔ Matches g text := by
  induction g generalizing text atStart with
  | nil =>
    rw [List.map_nil, List.nil_append, fits_stop_iff, matches_nil_iff]
    exact and_iff_left .nil
  | cons c g ih =>
    rw [List.map_cons, List.cons_append, plainTerm]
    -- The terms of `*` and `?` take any character but a newline, and the text has none.
    split_ifs with run any
    · rw [run, fits_many_iff, matches_run_iff]
      refine exists₂_congr fun taken rest => and_congr_right ?_
      rintro rfl
      rw [List.mem_append, not_or] at line
      rw [ih line.2]
      exact and_iff_right (takes_any line.1)
    · rw [any, fits_one_iff, matches_any_iff]
      refine exists₂_congr fun d rest => and_congr_right ?_
      rintro rfl
      rw [List.mem_cons, not_or] at line
      rw [ih line.2]
      have single : '\n' ∉ [d] := fun h => line.1 (List.mem_singleton.mp h)
      exact and_iff_right (takes_any single d (List.mem_singleton_self d))
    · rw [fits_one_iff, matches_char_iff ⟨run, any⟩]
      constructor
      · rintro ⟨d, rest, rfl, takes, fits⟩
        obtain rfl : d = c := by simpa [Atom.takes] using takes
        exact ⟨rest, rfl, (ih (List.not_mem_of_not_mem_cons line)).mp fits⟩
      · rintro ⟨rest, rfl, h⟩
        exact ⟨c, rest, rfl, by simp [Atom.takes], (ih (List.not_mem_of_not_mem_cons line)).mpr h⟩

/-- Every pattern without sets can be compiled, and accepts a tag of one line just where it describes it. -/
theorem accepts_iff_matches {g : String} (plain : '[' ∉ g.toList) :
    ∃ regex, compile? g = some regex ∧ ∀ (span : Span) (tag : String), '\n' ∉ tag.toList →
      (Pattern.accepts ⟨g, regex, span⟩ tag = true ↔ Matches g.toList tag.toList) :=
  ⟨_, compile?_plain plain, fun _ tag line => (isMatch_start_iff _ tag).trans (fits_plain_iff line)⟩

/-- Two stars with marks of regular expressions between them: the first star takes all up to the last `.*`. -/
theorem accepts_run_dot_run :
    '[' ∉ "*.?(x)*".toList ∧ '\n' ∉ "a.b.*(x)".toList ∧
      ∃ regex, compile? "*.?(x)*" = some regex ∧ Pattern.accepts ⟨"*.?(x)*", regex, default⟩ "a.b.*(x)" = true := by
  have plain : '[' ∉ "*.?(x)*".toList := by decide
  have line : '\n' ∉ "a.b.*(x)".toList := by decide
  obtain ⟨regex, compiled, accepts⟩ := accepts_iff_matches plain
  refine ⟨plain, line, regex, compiled, (accepts default _ line).mpr ?_⟩
  exact .run ['a', '.', 'b'] (.char (by decide) (.any '*' (.char (by decide) (.char (by decide)
    (.char (by decide) (.run [] .nil))))))

end RecordStats.Glob
