import RecordStats.Proofs.Source.Scan

/-! Splitting a text loses nothing of it. The lexemes stand in the order of the text, each where the line table of the
    text says; what stands between them is white space and comments; a lexeme knows whether a line has ended before
    it. -/

namespace RecordStats

/-! ### A line table that grows with what is read -/

namespace LineTable

/-- A line begins at an offset, unless the table has come that far. -/
def startLine (table : LineTable) (offset : Nat) : LineTable :=
  if table.starts.getLast?.all (· < offset) then ⟨table.starts ++ [offset]⟩ else table

/-- The table after a run of characters that begins at an offset: each newline starts a line. -/
def grow (table : LineTable) (offset : Nat) : List Char → LineTable
  | [] => table
  | c :: run => (if c = '\n' then table.startLine (offset + 1) else table).grow (offset + 1) run

theorem startLine_eq {table : LineTable} {offset : Nat} (h : ∀ x ∈ table.starts, x < offset) :
    table.startLine offset = ⟨table.starts ++ [offset]⟩ := by
  refine if_pos ?_
  rw [Option.all_eq_true_iff_get]
  exact fun some => decide_eq_true (h _ (List.mem_of_getLast? (Option.some_get some).symm))

theorem grow_eq {table : LineTable} {offset : Nat} {run : List Char} (h : ∀ x ∈ table.starts, x ≤ offset) :
    table.grow offset run = ⟨table.starts ++ newlineEnds offset run⟩ := by
  induction run generalizing table offset with
  | nil => rw [grow, newlineEnds, List.append_nil]
  | cons c run ih =>
    have before : ∀ x ∈ table.starts, x < offset + 1 := fun x hx => Nat.lt_succ_of_le (h x hx)
    rw [grow, newlineEnds]
    split
    · rw [startLine_eq before, ih, List.append_assoc, List.singleton_append]
      exact List.forall_mem_append.mpr ⟨fun x hx => (before x hx).le, by simp⟩
    · exact ih fun x hx => (before x hx).le

/-- The table that has grown over a text is that of the text. -/
theorem grow_ofChars (text : List Char) : (ofChars []).grow 0 text = ofChars text :=
  grow_eq (by simp [ofChars, newlineEnds])

/-- The lines that begin later do not matter to the place of an offset. -/
theorem locate_take (text : List Char) {offset stop : Nat} (h : offset ≤ stop) :
    (ofChars (text.take stop)).locate offset = (ofChars text).locate offset := by
  rw [locate_ofChars, locate_ofChars, List.take_take, Nat.min_eq_left h]

theorem span_grow (text : List Char) {start stop : Nat} (h : start ≤ stop) :
    ((ofChars []).grow 0 (text.take stop)).span start stop = (ofChars text).span start stop := by
  rw [grow_ofChars, span, span, locate_take text h, locate_take text (Nat.le_refl _)]

end LineTable

namespace Lexeme

/-! ### Gaps -/

/-- From an offset to another, a comment has begun and its line has not ended. -/
def CommentFrom (text : List Char) (mark offset : Nat) : Prop :=
  text[mark]? = some '#' ∧ ∀ i, mark ≤ i → i ≤ offset → text[i]? ≠ some '\n'

/-- White space and comments stand between two offsets. -/
def Skipped (text : List Char) (start stop : Nat) : Prop :=
  ∀ i, start ≤ i → i < stop →
    (∃ c, text[i]? = some c ∧ Text.isBlank c = true) ∨ ∃ mark, start ≤ mark ∧ mark ≤ i ∧ CommentFrom text mark i

theorem gap_le (comment : Bool) (text : List Char) : gap comment text ≤ text.length := by
  fun_induction gap comment text <;> simp_all

theorem CommentFrom.cons {text : List Char} {mark offset : Nat} (h : CommentFrom text mark offset) (c : Char) :
    CommentFrom (c :: text) (mark + 1) (offset + 1) := by
  refine ⟨by simpa using h.1, fun i hi hoffset => ?_⟩
  obtain ⟨k, rfl⟩ : ∃ k, i = k + 1 := ⟨i - 1, by omega⟩
  rw [List.getElem?_cons_succ]
  exact h.2 k (by omega) (by omega)

/-- Each character that is passed over is white space or in a comment, which may have begun before the text. -/
theorem blank_or_comment {comment : Bool} {text : List Char} {i : Nat} (h : i < gap comment text) :
    (∃ c, text[i]? = some c ∧ Text.isBlank c = true) ∨
      (comment = true ∧ ∀ k ≤ i, text[k]? ≠ some '\n') ∨ ∃ mark ≤ i, CommentFrom text mark i := by
  have lift {c : Char} {rest : List Char} {j : Nat} : (∃ mark ≤ j, CommentFrom rest mark j) →
      ∃ mark ≤ j + 1, CommentFrom (c :: rest) mark (j + 1) := fun ⟨mark, hmark, from_⟩ =>
    ⟨mark + 1, Nat.succ_le_succ hmark, from_.cons c⟩
  have free {c : Char} {rest : List Char} {j : Nat} (hc : c ≠ '\n') (hrest : ∀ k ≤ j, rest[k]? ≠ some '\n') :
      ∀ k ≤ j + 1, (c :: rest)[k]? ≠ some '\n' := fun k hk => by
    cases k with
    | zero => simpa using hc
    | succ k => simpa using hrest k (Nat.le_of_succ_le_succ hk)
  induction text generalizing comment i with
  | nil => cases h
  | cons c rest ih =>
    rw [gap] at h
    cases i with
    | zero =>
      split at h
      · next hcomment =>
        by_cases hc : c = '\n'
        · exact .inl ⟨c, rfl, hc ▸ Text.isBlank_newline⟩
        · exact .inr (.inl ⟨hcomment, fun k hk => by simpa [Nat.le_zero.mp hk] using hc⟩)
      · split at h
        · next hc => exact .inr (.inr ⟨0, Nat.le_refl _, by simp [CommentFrom, hc]⟩)
        · split at h
          · next hc => exact .inl ⟨c, rfl, hc⟩
          · cases h
    | succ j =>
      rw [List.getElem?_cons_succ]
      split at h
      · next hcomment =>
        refine (ih (Nat.lt_of_succ_lt_succ h)).imp_right fun later => ?_
        refine later.imp (fun ⟨hc, hrest⟩ => ⟨hcomment, free (by simpa using hc) hrest⟩) lift
      · split at h
        · next hc =>
          refine (ih (Nat.lt_of_succ_lt_succ h)).imp_right fun later => .inr ?_
          refine later.elim (fun ⟨_, hrest⟩ => ⟨0, Nat.zero_le _, ?_, fun k _ => free ?_ hrest k⟩) lift
          · simpa using hc
          · simp [hc]
        · split at h
          · refine (ih (Nat.lt_of_succ_lt_succ h)).imp_right fun later => .inr ?_
            exact later.elim (fun ⟨hfalse, _⟩ => absurd hfalse (by simp)) lift
          · cases h

/-- What a scan passes over before the next token is a gap of the text. -/
theorem skipped_of_scan {text before rest : List Char} (h : text = before ++ rest) :
    Skipped text before.length (before.length + gap false rest) := by
  intro i hstart hstop
  obtain ⟨j, rfl⟩ : ∃ j, i = before.length + j := ⟨i - before.length, by omega⟩
  have shift (k : Nat) : text[before.length + k]? = rest[k]? := by
    rw [h, List.getElem?_append_right (Nat.le_add_right _ _), Nat.add_sub_cancel_left]
  rw [shift]
  refine (blank_or_comment (Nat.lt_of_add_lt_add_left hstop)).imp_right fun comment => ?_
  obtain ⟨hfalse, -⟩ | ⟨mark, hmark, hash, line⟩ := comment
  · cases hfalse
  · refine ⟨before.length + mark, Nat.le_add_right _ _, Nat.add_le_add_left hmark _, by rwa [shift], fun k hk hki => ?_⟩
    obtain ⟨m, rfl⟩ : ∃ m, k = before.length + m := ⟨k - before.length, by omega⟩
    rw [shift]
    exact line m (by omega) (by omega)

/-! ### Lexemes in the order of the text -/

/-- A newline stands between two offsets. -/
def NewlineIn (text : List Char) (start stop : Nat) : Prop :=
  ∃ i, start ≤ i ∧ i < stop ∧ text[i]? = some '\n'

theorem newlineIn_of_scan {text before rest : List Char} (h : text = before ++ rest) (width : Nat) :
    (rest.take width).contains '\n' = true ↔ NewlineIn text before.length (before.length + width) := by
  rw [List.contains_iff_mem, List.mem_iff_getElem?, NewlineIn]
  simp only [List.getElem?_take, Option.ite_none_right_eq_some]
  have shift (k : Nat) : text[before.length + k]? = rest[k]? := by
    rw [h, List.getElem?_append_right (Nat.le_add_right _ _), Nat.add_sub_cancel_left]
  constructor
  · rintro ⟨k, hlt, hk⟩
    exact ⟨before.length + k, Nat.le_add_right _ _, Nat.add_lt_add_left hlt _, (shift k).trans hk⟩
  · rintro ⟨i, hstart, hstop, hi⟩
    obtain ⟨k, rfl⟩ : ∃ k, i = before.length + k := ⟨i - before.length, by omega⟩
    exact ⟨k, Nat.lt_of_add_lt_add_left hstop, (shift k).symm.trans hi⟩

/-- A lexeme stands where the line table says, after a gap that begins at an offset. -/
structure After (text : List Char) (start : Nat) (l : Lexeme) : Prop where
  located : l.span = (LineTable.ofChars text).span l.span.first.offset l.span.last.offset
  start_le : start ≤ l.span.first.offset
  first_le : l.span.first.offset ≤ l.span.last.offset
  last_le : l.span.last.offset ≤ text.length
  gap : Skipped text start l.span.first.offset
  newline : l.afterNewline = true ↔ NewlineIn text start l.span.first.offset

/-- The lexemes of a text from an offset on: each begins after the one before it has ended, and the mark of the end is
    the only one that takes nothing. -/
inductive Follow (text : List Char) : Nat → List Lexeme → Prop
  | finish {start : Nat} {l : Lexeme} (here : After text start l) (token : l.token = .finish)
      (first : l.span.first.offset = text.length) : Follow text start [l]
  | token {start : Nat} {l : Lexeme} {rest : List Lexeme} (here : After text start l) (token : l.token ≠ .finish)
      (taken : l.span.first.offset < l.span.last.offset) (later : Follow text l.span.last.offset rest) :
      Follow text start (l :: rest)

/-- A piece that a scan cuts off after a gap. -/
theorem after_of_cut {text before rest : List Char} (h : text = before ++ rest) (piece more : List Char)
    (hcut : rest.drop (gap false rest) = piece ++ more) (token : Token) :
    After text before.length ⟨token, ⟨Place.start.after (before ++ rest.take (gap false rest)),
      Place.start.after (before ++ rest.take (gap false rest) ++ piece)⟩,
      (rest.take (gap false rest)).contains '\n'⟩ := by
  have hgap : (rest.take (gap false rest)).length = gap false rest := List.length_take_of_le (gap_le _ _)
  have whole : text = before ++ rest.take (gap false rest) ++ piece ++ more := by
    rw [h, List.append_assoc (before ++ _), ← hcut, List.append_assoc, List.take_append_drop]
  -- The piece begins where the gap ends.
  have first : (Place.start.after (before ++ rest.take (gap false rest))).offset = before.length + gap false rest := by
    rw [offset_start_after, List.length_append, hgap]
  have last : (Place.start.after (before ++ rest.take (gap false rest) ++ piece)).offset =
      before.length + gap false rest + piece.length := by
    rw [offset_start_after, List.length_append, List.length_append, hgap]
  constructor
  · simp only [offset_start_after, LineTable.span]
    congr 1
    · rw [whole, List.append_assoc (before ++ _)]
      exact Place.start_after _ _
    · rw [whole]
      exact Place.start_after _ _
  · simp only [first]
    exact Nat.le_add_right _ _
  · simp only [first, last]
    exact Nat.le_add_right _ _
  · simp only [offset_start_after]
    rw [whole]
    exact (List.prefix_append _ more).length_le
  · simp only [first]
    exact skipped_of_scan h
  · simp only [first]
    exact newlineIn_of_scan h _

/-- What a scan finds follows what stands before. -/
theorem scan_follow (text before rest : List Char) (h : text = before ++ rest) {lexemes : List Lexeme}
    (hscan : scan (Place.start.after before) rest = (lexemes, none)) : Follow text before.length lexemes := by
  induction hn : rest.length using Nat.strongRecOn generalizing before rest lexemes with
  | ind n ih =>
    rw [scan, ← Place.after_append] at hscan
    split at hscan
    · next hdrop =>
      cases hscan
      have here := after_of_cut h [] [] hdrop .finish
      rw [List.append_nil] at here
      refine .finish here rfl ?_
      rw [offset_start_after, List.take_of_length_le (List.drop_eq_nil_iff.mp hdrop), ← h]
    · next c more hdrop =>
      split at hscan
      · cases hscan
      · next token width hread =>
        have hcut : rest.drop (gap false rest) = (c :: more.take (width - 1)) ++ more.drop (width - 1) := by
          rw [hdrop, List.cons_append, List.take_append_drop]
        have here := after_of_cut h _ _ hcut token
        have pieces : text =
            before ++ rest.take (gap false rest) ++ (c :: more.take (width - 1)) ++ more.drop (width - 1) := by
          rw [h, List.append_assoc (before ++ _), ← hcut, List.append_assoc, List.take_append_drop]
        have shorter : (more.drop (width - 1)).length < n := by
          have := congrArg List.length hdrop
          rw [List.length_drop, List.length_cons] at this
          rw [List.length_drop]
          omega
        simp only [← Place.after_append] at hscan
        obtain ⟨rfl, hfault⟩ := Prod.mk.inj hscan
        refine .token here (ne_finish_of_read hread) ?_ ?_
        · simp only [offset_start_after, List.length_append, List.length_cons]
          omega
        · simp only [offset_start_after]
          exact ih _ shorter _ _ pieces (Prod.ext rfl hfault) rfl

theorem follow_of_ofText {text : String} {lexemes : List Lexeme} (h : ofText text = .ok lexemes) :
    Follow text.toList 0 lexemes := by
  unfold ofText at h
  split at h
  · next scanned hscan =>
    cases h
    exact scan_follow text.toList [] text.toList rfl hscan
  · cases h

namespace Follow

variable {text : List Char} {start : Nat} {lexemes : List Lexeme}

theorem located (h : Follow text start lexemes) : ∀ l ∈ lexemes, ∃ before, After text before l := by
  induction h with
  | finish here => exact List.forall_mem_singleton.mpr ⟨_, here⟩
  | token here _ _ _ ih => exact List.forall_mem_cons.mpr ⟨⟨_, here⟩, ih⟩

theorem start_le (h : Follow text start lexemes) : ∀ l ∈ lexemes, start ≤ l.span.first.offset := by
  induction h with
  | finish here => exact List.forall_mem_singleton.mpr here.start_le
  | token here _ taken _ ih =>
    exact List.forall_mem_cons.mpr ⟨here.start_le, fun l hl => here.start_le.trans (taken.le.trans (ih l hl))⟩

/-- Every lexeme ends before the next ones begin. -/
theorem ordered (h : Follow text start lexemes) :
    lexemes.Pairwise fun l m => l.span.last.offset ≤ m.span.first.offset := by
  induction h with
  | finish => exact List.pairwise_singleton _ _
  | token _ _ _ later ih => exact List.pairwise_cons.mpr ⟨later.start_le, ih⟩

end Follow

/-- The offset is in none of the lexemes. -/
def Outside (lexemes : List Lexeme) (offset : Nat) : Prop :=
  ∀ l ∈ lexemes, ¬(l.span.first.offset ≤ offset ∧ offset < l.span.last.offset)

/-- Where the last of some lexemes ends, or the place that they begin at. -/
def endFrom (start : Nat) (lexemes : List Lexeme) : Nat :=
  (lexemes.getLast?.map (·.span.last.offset)).getD start

theorem endFrom_cons (start : Nat) (l : Lexeme) (lexemes : List Lexeme) :
    endFrom start (l :: lexemes) = endFrom l.span.last.offset lexemes := by
  rw [endFrom, endFrom, List.getLast?_cons, Option.map_some, Option.getD_some]
  cases lexemes.getLast? <;> rfl

namespace Follow

variable {text : List Char} {start : Nat} {lexemes : List Lexeme}

theorem outside_of_lt (h : Follow text start lexemes) {offset : Nat} (hlt : offset < start) : Outside lexemes offset :=
  fun l hl inside => absurd inside.1 (Nat.not_le_of_lt (hlt.trans_le (h.start_le l hl)))

/-- Each lexeme follows the one before it. -/
theorem after (h : Follow text start lexemes) {before : List Lexeme} {l : Lexeme} {rest : List Lexeme}
    (hsplit : lexemes = before ++ l :: rest) : After text (endFrom start before) l := by
  induction h generalizing before with
  | finish here =>
    cases before with
    | nil =>
      cases hsplit
      exact here
    | cons m before => cases before <;> cases hsplit
  | token here _ _ _ ih =>
    cases before with
    | nil =>
      cases hsplit
      exact here
    | cons m before =>
      cases hsplit
      rw [endFrom_cons]
      exact ih rfl

/-- What is in no lexeme is white space or in a comment that is in no lexeme. -/
theorem skipped (h : Follow text start lexemes) {offset : Nat} (hstart : start ≤ offset) (hend : offset < text.length)
    (outside : Outside lexemes offset) :
    (∃ c, text[offset]? = some c ∧ Text.isBlank c = true) ∨
      ∃ mark, start ≤ mark ∧ mark ≤ offset ∧ CommentFrom text mark offset ∧
        ∀ i, mark ≤ i → i ≤ offset → Outside lexemes i := by
  induction h with
  | finish here _ first =>
    refine (here.gap offset hstart (first ▸ hend)).imp_right fun ⟨mark, hmark, hle, comment⟩ => ?_
    refine ⟨mark, hmark, hle, comment, fun i _ hi => List.forall_mem_singleton.mpr fun inside => ?_⟩
    omega
  | @token start l rest here _ taken later ih =>
    obtain ⟨houtside, hrest⟩ := List.forall_mem_cons.mp outside
    by_cases hgap : offset < l.span.first.offset
    · refine (here.gap offset hstart hgap).imp_right fun ⟨mark, hmark, hle, comment⟩ => ?_
      refine ⟨mark, hmark, hle, comment, fun i _ hi => List.forall_mem_cons.mpr ⟨fun inside => ?_, ?_⟩⟩
      · omega
      · exact later.outside_of_lt (by omega)
    · have past : l.span.last.offset ≤ offset := by omega
      refine (ih past hrest).imp_right fun ⟨mark, hmark, hle, comment, free⟩ => ?_
      have hfirst := here.start_le
      refine ⟨mark, by omega, hle, comment, fun i hi hioffset => ?_⟩
      exact List.forall_mem_cons.mpr ⟨fun inside => by omega, free i hi hioffset⟩

/-- Only the last lexeme marks the end, and only it takes nothing. -/
theorem finish_last (h : Follow text start lexemes) :
    ∃ tokens l, lexemes = tokens ++ [l] ∧ l.token = .finish ∧ l.span.first.offset = text.length ∧
      l.span.last.offset = text.length ∧
      ∀ m ∈ tokens, m.token ≠ .finish ∧ m.span.first.offset < m.span.last.offset := by
  induction h with
  | @finish _ l here token first =>
    exact ⟨[], l, rfl, token, first, Nat.le_antisymm here.last_le (first ▸ here.first_le), nofun⟩
  | @token _ l _ _ token taken _ ih =>
    obtain ⟨tokens, m, rfl, finish⟩ := ih
    obtain ⟨hm, hfirst, hlast, htokens⟩ := finish
    exact ⟨l :: tokens, m, rfl, hm, hfirst, hlast, List.forall_mem_cons.mpr ⟨⟨token, taken⟩, htokens⟩⟩

end Follow

/-! ### The lexemes of a text -/

/-- What the lexemes of a text are to the text. -/
structure Tokenized (text : String) (lexemes : List Lexeme) : Prop where
  /-- Each is where the line table of the text says. -/
  located : ∀ l ∈ lexemes, l.span = (LineTable.ofText text).span l.span.first.offset l.span.last.offset
  /-- The line table that has grown with what is read up to the end of a lexeme says the same. -/
  grown : ∀ l ∈ lexemes, l.span =
    ((LineTable.ofText "").grow 0 (text.toList.take l.span.last.offset)).span l.span.first.offset l.span.last.offset
  /-- They are in order and disjoint. -/
  ordered : lexemes.Pairwise fun l m => l.span.last.offset ≤ m.span.first.offset
  /-- The last one, and no other, marks the end and takes nothing. -/
  finish : ∃ tokens l, lexemes = tokens ++ [l] ∧ l.token = .finish ∧ l.span.first.offset = text.length ∧
    l.span.last.offset = text.length ∧ ∀ m ∈ tokens, m.token ≠ .finish ∧ m.span.first.offset < m.span.last.offset
  /-- What is in none of them is white space, or in a comment, of which all is in none. -/
  skipped : ∀ offset < text.length, Outside lexemes offset →
    (∃ c, text.toList[offset]? = some c ∧ Text.isBlank c = true) ∨
      ∃ mark ≤ offset, CommentFrom text.toList mark offset ∧ ∀ i, mark ≤ i → i ≤ offset → Outside lexemes i
  /-- A line has ended before a lexeme if and only if a newline stands between it and the one before it. -/
  newline : ∀ before l rest, lexemes = before ++ l :: rest →
    (l.afterNewline = true ↔ NewlineIn text.toList (endFrom 0 before) l.span.first.offset)

theorem Follow.tokenized {text : String} {lexemes : List Lexeme} (h : Follow text.toList 0 lexemes) :
    Tokenized text lexemes where
  located := fun l hl => by
    obtain ⟨_, here⟩ := h.located l hl
    exact here.located
  grown := fun l hl => by
    obtain ⟨_, here⟩ := h.located l hl
    exact here.located.trans (LineTable.span_grow _ here.first_le).symm
  ordered := h.ordered
  finish := by
    rw [← String.length_toList]
    exact h.finish_last
  skipped := fun offset hoffset outside => by
    rw [← String.length_toList] at hoffset
    refine (h.skipped (Nat.zero_le _) hoffset outside).imp_right fun ⟨mark, _, comment⟩ => ⟨mark, comment⟩
  newline := fun _ _ _ hsplit => (h.after hsplit).newline

/-- Every text is split into lexemes that lose nothing of it and are where they say, or has a fault at one of its
    characters. -/
theorem ofText_tokenized (text : String) :
    match ofText text with
    | .ok lexemes => Tokenized text lexemes
    | .error e => e.offset < text.length := by
  split
  · next h => exact (follow_of_ofText h).tokenized
  · next h => exact offset_of_ofText h

end Lexeme
end RecordStats
