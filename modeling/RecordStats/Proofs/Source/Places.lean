import Mathlib.Data.List.Induction
import Mathlib.Data.List.TakeWhile
import RecordStats.Source.Lexeme
import RecordStats.Text.Basic

/-! Places of a text. Walking through a text from its start leads to the places that its line table tells, so the spans
    of lexemes are spans of the text, and so is the smallest span around any two. The lines that such a span touches
    are lines that the text has. -/

namespace RecordStats

/-! ### Lines before a place -/

namespace LineTable

theorem newlineEnds_append (offset : Nat) (run more : List Char) :
    newlineEnds offset (run ++ more) = newlineEnds offset run ++ newlineEnds (offset + run.length) more := by
  induction run generalizing offset with
  | nil => rfl
  | cons c run ih =>
    have later : offset + 1 + run.length = offset + (c :: run).length := by
      rw [List.length_cons]
      omega
    rw [List.cons_append, newlineEnds, newlineEnds, ih, later]
    split <;> rfl

theorem bounds_of_mem_newlineEnds {offset x : Nat} {run : List Char} (h : x ∈ newlineEnds offset run) :
    offset < x ∧ x ≤ offset + run.length := by
  induction run generalizing offset with
  | nil => cases h
  | cons c run ih =>
    rw [newlineEnds] at h
    rw [List.length_cons]
    have later : x ∈ newlineEnds (offset + 1) run → offset < x ∧ x ≤ offset + (run.length + 1) := fun h => by
      have := ih h
      omega
    split at h
    · rcases List.mem_cons.mp h with rfl | h
      · omega
      · exact later h
    · exact later h

/-- The lines that begin in the first part of a text are those that begin at or before its end. -/
theorem takeWhile_starts (run more : List Char) :
    (ofChars (run ++ more)).starts.takeWhile (· ≤ run.length) = 0 :: newlineEnds 0 run := by
  have here : ∀ x ∈ newlineEnds 0 run, decide (x ≤ run.length) = true := fun x hx => by
    have := bounds_of_mem_newlineEnds hx
    simpa using this.2
  have beyond : (newlineEnds (0 + run.length) more).takeWhile (· ≤ run.length) = [] := by
    cases hlater : newlineEnds (0 + run.length) more with
    | nil => rfl
    | cons x rest =>
      have := bounds_of_mem_newlineEnds (hlater ▸ List.mem_cons_self (a := x))
      rw [List.takeWhile_cons, if_neg (by simp; omega)]
  rw [ofChars, newlineEnds_append, List.takeWhile_cons, if_pos (by simp), List.takeWhile_append_of_pos here, beyond,
    List.append_nil]

/-- The lines that begin at or before an offset are those of the characters before it. -/
theorem takeWhile_starts_take (text : List Char) (offset : Nat) :
    (ofChars text).starts.takeWhile (· ≤ offset) = 0 :: newlineEnds 0 (text.take offset) := by
  rcases Nat.le_total offset text.length with inside | beyond
  · have parts := takeWhile_starts (text.take offset) (text.drop offset)
    rwa [List.take_append_drop, List.length_take, Nat.min_eq_left inside] at parts
  · have all : ∀ x ∈ (ofChars text).starts, decide (x ≤ offset) = true := by
      intro x hx
      rcases List.mem_cons.mp hx with rfl | hx
      · exact decide_eq_true (Nat.zero_le _)
      · have bounds := bounds_of_mem_newlineEnds hx
        exact decide_eq_true (by omega)
    rw [List.takeWhile_eq_self_iff.mpr all, List.take_of_length_le beyond]
    rfl

theorem locate_ofChars (text : List Char) (offset : Nat) : (ofChars text).locate offset =
    ⟨offset, (newlineEnds 0 (text.take offset)).length + 1,
      offset - (0 :: newlineEnds 0 (text.take offset)).getLastD 0⟩ := by
  rw [locate, takeWhile_starts_take, List.length_cons]

end LineTable

/-- A walk from the start of a text ends at the place that the line table tells. -/
theorem Place.start_after (run more : List Char) :
    Place.start.after run = (LineTable.ofChars (run ++ more)).locate run.length := by
  rw [LineTable.locate, LineTable.takeWhile_starts]
  clear more
  induction run using List.reverseRecOn with
  | nil => rfl
  | append_singleton run c ih =>
    rw [Place.after_append, ih, Place.after_cons, Place.after_nil, Place.step, LineTable.newlineEnds_append,
      LineTable.newlineEnds, List.length_append]
    split
    · have last : (0 :: (LineTable.newlineEnds 0 run ++ [run.length + 1])).getLastD 0 = run.length + 1 := by
        rw [← List.cons_append, List.getLastD_concat]
      simp only [LineTable.newlineEnds, Nat.zero_add, last]
      simp
    · have before : (0 :: LineTable.newlineEnds 0 run).getLastD 0 ≤ run.length := by
        have last : (0 :: LineTable.newlineEnds 0 run).getLastD 0 ∈ 0 :: LineTable.newlineEnds 0 run := by
          rw [List.getLastD_cons]
          exact List.getLastD_mem_cons
        rcases List.mem_cons.mp last with hzero | hlast
        · omega
        · have := LineTable.bounds_of_mem_newlineEnds hlast
          omega
      simp only [LineTable.newlineEnds, List.append_nil, List.length_singleton]
      congr 1
      omega

/-! ### Lines -/

theorem Text.length_splitAt (offset : Nat) (text : List Char) :
    (splitAt '\n' text).length = (LineTable.newlineEnds offset text).length + 1 := by
  induction text generalizing offset with
  | nil => rfl
  | cons c rest ih =>
    rw [splitAt, LineTable.newlineEnds]
    split
    · rw [List.length_cons, List.length_cons, ih]
    · have some : (splitAt '\n' rest).length = _ := ih (offset + 1)
      rw [← some]
      generalize splitAt '\n' rest = parts at some
      cases parts with
      | nil => cases some
      | cons => rfl

namespace LineTable

theorem line_locate_pos (text : List Char) (offset : Nat) : 1 ≤ ((ofChars text).locate offset).line := by
  rw [locate, ofChars, List.takeWhile_cons, if_pos (by simp)]
  exact Nat.succ_le_succ (Nat.zero_le _)

theorem line_locate_le (text : String) (offset : Nat) :
    ((ofText text).locate offset).line ≤ (Text.lines text).length := by
  have starts : (ofText text).starts.length = (Text.lines text).length := by
    rw [Text.lines, List.length_map, Text.length_splitAt 0]
    rfl
  rw [locate, ← starts]
  exact (List.takeWhile_prefix _).length_le

theorem length_takeWhile_mono {α : Type} {p q : α → Bool} (h : ∀ a, p a = true → q a = true) (l : List α) :
    (l.takeWhile p).length ≤ (l.takeWhile q).length := by
  induction l with
  | nil => exact Nat.le_refl _
  | cons a l ih =>
    rw [List.takeWhile_cons, List.takeWhile_cons]
    split
    · next hp =>
      rw [if_pos (h a hp)]
      exact Nat.succ_le_succ ih
    · exact Nat.zero_le _

theorem line_locate_mono (table : LineTable) {a b : Nat} (h : a ≤ b) : (table.locate a).line ≤ (table.locate b).line :=
  length_takeWhile_mono (fun x hx => by simp only [decide_eq_true_eq] at hx ⊢; omega) _

end LineTable

/-! ### Spans of a line table -/

/-- The span is one that the table tells: its places are those of its offsets, which are in order. -/
structure Span.LocatedBy (table : LineTable) (s : Span) : Prop where
  places : s = table.span s.first.offset s.last.offset
  ordered : s.first.offset ≤ s.last.offset

namespace Span.LocatedBy

variable {table : LineTable} {s t : Span}

theorem of_span {start stop : Nat} (h : start ≤ stop) : (table.span start stop).LocatedBy table :=
  ⟨rfl, h⟩

theorem first (h : s.LocatedBy table) : s.first = table.locate s.first.offset :=
  congrArg Span.first h.places

theorem last (h : s.LocatedBy table) : s.last = table.locate s.last.offset :=
  congrArg Span.last h.places

/-- The smallest span around two spans of a table is one of the table. -/
theorem join (hs : s.LocatedBy table) (ht : t.LocatedBy table) : (s.join t).LocatedBy table := by
  have first := hs.first
  have first' := ht.first
  have last := hs.last
  have last' := ht.last
  have ordered := hs.ordered
  have ordered' := ht.ordered
  unfold Span.join
  constructor
  · rw [LineTable.span]
    congr 1 <;> split <;> assumption
  · show Place.offset (if _ then _ else _) ≤ Place.offset (if _ then _ else _)
    split <;> split <;> omega

end Span.LocatedBy

/-! ### Spans of a text -/

/-- The span is one of the text: its places are those of its offsets, which are in order and within the text. -/
structure Span.Within (text : String) (s : Span) : Prop where
  places : s = (LineTable.ofText text).span s.first.offset s.last.offset
  ordered : s.first.offset ≤ s.last.offset
  bounded : s.last.offset ≤ text.length

namespace Span.Within

variable {text : String} {s t : Span}

theorem located (h : s.Within text) : s.LocatedBy (LineTable.ofText text) :=
  ⟨h.places, h.ordered⟩

theorem first (h : s.Within text) : s.first = (LineTable.ofText text).locate s.first.offset :=
  h.located.first

theorem last (h : s.Within text) : s.last = (LineTable.ofText text).locate s.last.offset :=
  h.located.last

/-- The smallest span around two spans of a text is one of the text. -/
theorem join (hs : s.Within text) (ht : t.Within text) : (s.join t).Within text := by
  obtain ⟨places, ordered⟩ := hs.located.join ht.located
  refine ⟨places, ordered, ?_⟩
  have bounded := hs.bounded
  have bounded' := ht.bounded
  show Place.offset (if _ then _ else _) ≤ _
  split <;> omega

/-- A piece of a text. -/
theorem of_cut {a b c : List Char} (h : text.toList = a ++ b ++ c) :
    Within text ⟨Place.start.after a, Place.start.after (a ++ b)⟩ := by
  have first := Place.start_after a (b ++ c)
  have last := Place.start_after (a ++ b) c
  rw [← List.append_assoc, ← h] at first
  rw [← h] at last
  have bound := congrArg List.length h
  rw [String.length_toList, List.length_append, List.length_append] at bound
  refine ⟨?_, ?_, ?_⟩
  · rw [LineTable.span, LineTable.ofText, first, last]
    rfl
  · rw [first, last]
    show a.length ≤ (a ++ b).length
    simp
  · rw [last]
    show (a ++ b).length ≤ text.length
    rw [List.length_append]
    omega

/-- The lines that a span touches are lines of the text. -/
theorem lines (h : s.Within text) :
    1 ≤ s.first.line ∧ s.first.line ≤ s.last.line ∧ s.last.line ≤ (Text.lines text).length := by
  rw [h.first, h.last]
  exact ⟨LineTable.line_locate_pos _ _, LineTable.line_locate_mono _ h.ordered, LineTable.line_locate_le _ _⟩

end Span.Within

end RecordStats
