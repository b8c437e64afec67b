import Mathlib.Data.Nat.PSub
import RecordStats.Proofs.Source.Joined
import RecordStats.Proofs.Source.Tokenized

/-! What a line table tells of a text. The table begins with zero and ascends, however far it has grown, so the search
    by halving finds the last line that begins at or before an offset, and none of the differences on the way is
    negative. The place that is found counts the newlines before the offset and measures the distance from the last of
    them. The spans between such places are closed under joining, which is a least upper bound. -/

namespace RecordStats

/-! ### Search by halving -/

namespace Search

/-- What a search in an ascending list comes to: the index of the item, or the one at which it would have to stand. -/
inductive Hit where
  | found (index : Nat)
  | missing (index : Nat)

/-- The index that a search for `x` is left with. Of the `size` items from `base` on the upper half is given up if the
    middle one is too large, and the lower half if not. -/
def narrow (items : List Nat) (x base size : Nat) : Option Nat :=
  if size ≤ 1 then some base
  else items[base + size / 2]?.bind fun middle =>
    narrow items x (if x < middle then base else base + size / 2) (size - size / 2)
termination_by size

/-- The search for `x` in an ascending list. It has no result if it looks at an index that is none of the list. -/
def find (items : List Nat) (x : Nat) : Option Hit :=
  if items.isEmpty then some (.missing 0)
  else do
    let base ← narrow items x 0 items.length
    let item ← items[base]?
    return if item = x then .found base else if item < x then .missing (base + 1) else .missing base

/-- How many items at the head of a list are at most `x`. -/
def reached (items : List Nat) (x : Nat) : Nat :=
  (items.takeWhile (· ≤ x)).length

theorem reached_le (items : List Nat) (x : Nat) : reached items x ≤ items.length :=
  (List.takeWhile_prefix _).length_le

/-- The last of the items at the head. -/
theorem getElem?_reached {items : List Nat} {x : Nat} (some_item : 0 < reached items x) :
    items[reached items x - 1]? = some ((items.takeWhile (· ≤ x)).getLastD 0) := by
  have inside : (items.takeWhile (· ≤ x)).length - 1 < (items.takeWhile (· ≤ x)).length :=
    Nat.sub_lt some_item Nat.one_pos
  rw [List.getLastD_eq_getLast?, List.getLast?_eq_getElem?, List.getElem?_eq_getElem inside, Option.getD_some]
  exact List.prefix_iff_getElem?.mp (List.takeWhile_prefix _) _ inside

section Ascending
variable {items : List Nat} (ascending : items.Pairwise (· < ·)) {x : Nat}
include ascending

/-- The items that are at most `x` are those at the head. -/
theorem getElem_le_iff {i : Nat} (hi : i < items.length) : items[i] ≤ x ↔ i < reached items x := by
  unfold reached
  induction items generalizing i with
  | nil => cases hi
  | cons a rest ih =>
    obtain ⟨least, ascending⟩ := List.pairwise_cons.mp ascending
    by_cases ha : a ≤ x
    · rw [List.takeWhile_cons_of_pos (by simpa using ha), List.length_cons]
      cases i with
      | zero => simpa using ha
      | succ i => simpa using ih ascending (Nat.lt_of_succ_lt_succ hi)
    · rw [List.takeWhile_cons_of_neg (by simpa using ha), List.length_nil]
      cases i with
      | zero => simpa using ha
      | succ i =>
        have := least _ (List.getElem_mem (Nat.lt_of_succ_lt_succ hi))
        simp only [List.getElem_cons_succ]
        omega

/-- The last item that is at most `x` stays between the ends of what the search keeps. -/
theorem narrow_eq {base size : Nat} (some_left : 0 < size) (within : base + size ≤ items.length)
    (low : base ≤ reached items x - 1) (high : reached items x ≤ base + size) :
    narrow items x base size = some (reached items x - 1) := by
  induction size using Nat.strong_induction_on generalizing base with
  | _ size ih =>
    rw [narrow]
    split
    · congr 1
      omega
    · -- The middle item tells on which side of it the last one that is at most `x` stands.
      have inside : base + size / 2 < items.length := by omega
      have middle := getElem_le_iff ascending inside (x := x)
      rw [List.getElem?_eq_getElem inside, Option.bind_some]
      rcases Nat.lt_or_ge x items[base + size / 2] with large | small
      · rw [if_pos large]
        apply ih <;> omega
      · rw [if_neg (Nat.not_lt.mpr small)]
        apply ih <;> omega

/-- The only place for `x` is that of the last item which is at most `x`. -/
theorem mem_iff (some_item : reached items x - 1 < items.length) : x ∈ items ↔ items[reached items x - 1] = x := by
  refine ⟨fun hx => ?_, fun h => h ▸ List.getElem_mem _⟩
  obtain ⟨i, hi, rfl⟩ := List.mem_iff_getElem.mp hx
  have here : i < reached items items[i] := (getElem_le_iff ascending hi).mp (Nat.le_refl _)
  have last := (getElem_le_iff ascending some_item).mpr (Nat.sub_lt (Nat.zero_lt_of_lt here) Nat.one_pos)
  rcases Nat.lt_or_eq_of_le (Nat.le_sub_one_of_lt here) with before | same
  · have := List.pairwise_iff_getElem.mp ascending _ _ hi some_item before
    omega
  · simp only [← same]

/-- An item is found where it stands, and a missing one would stand behind all smaller ones. -/
theorem find_eq (x : Nat) : find items x =
    some (if x ∈ items then .found (reached items x - 1) else .missing (reached items x)) := by
  have bound := reached_le items x
  cases items with
  | nil => rfl
  | cons a rest =>
    have length_pos : 0 < (a :: rest).length := Nat.succ_pos _
    have some_item : reached (a :: rest) x - 1 < (a :: rest).length := by omega
    have last := getElem_le_iff ascending some_item (x := x)
    have left : narrow (a :: rest) x 0 (a :: rest).length = some (reached (a :: rest) x - 1) := by
      apply narrow_eq ascending <;> omega
    simp only [find, List.isEmpty_cons, Bool.false_eq_true, if_false, left, List.getElem?_eq_getElem some_item,
      Option.bind_eq_bind, Option.bind_some, Option.pure_def, mem_iff ascending some_item]
    congr 1
    split
    · rfl
    · split
      · congr 1
        omega
      · congr 1
        omega

end Ascending

/-- The line that a search has found: the one whose start it has met, or the one before. -/
def Hit.line : Hit → Option Nat
  | .found index => some index
  | .missing index => index.ppred

end Search

namespace LineTable

/-- The place of an offset by a search for its line. There is none if an index is not one of the table, or if a
    difference is negative. -/
def locate? (table : LineTable) (offset : Nat) : Option Place := do
  let hit ← Search.find table.starts offset
  let line ← hit.line
  let start ← table.starts[line]?
  let column ← offset.psub start
  return ⟨offset, line + 1, column⟩

/-! ### Tables that grow -/

/-- The first line begins at zero, each other one later than the line before it. -/
structure Ascends (table : LineTable) : Prop where
  first : table.starts.head? = some 0
  ordered : table.starts.Pairwise (· < ·)

/-- A line that is started keeps the order: it begins behind the last line, or it is not entered. -/
theorem Ascends.startLine {table : LineTable} (h : table.Ascends) (offset : Nat) :
    (table.startLine offset).Ascends := by
  obtain ⟨first, ordered⟩ := h
  unfold LineTable.startLine
  split
  · next behind =>
    refine ⟨?_, List.pairwise_append.mpr ⟨ordered, List.pairwise_singleton _ _, ?_⟩⟩
    · simp [List.head?_append, first]
    · intro x hx y hy
      rw [List.mem_singleton.mp hy]
      obtain ⟨before, last, hstarts⟩ := (List.eq_nil_or_concat table.starts).resolve_left (List.ne_nil_of_mem hx)
      rw [hstarts, List.concat_eq_append] at behind hx ordered
      have hlast : last < offset := by simpa using behind
      rcases List.mem_append.mp hx with hx | hx
      · exact ((List.pairwise_append.mp ordered).2.2 x hx last (List.mem_singleton_self _)).trans hlast
      · rwa [List.mem_singleton.mp hx]
  · exact ⟨first, ordered⟩

theorem Ascends.grow {table : LineTable} (h : table.Ascends) (offset : Nat) (run : List Char) :
    (table.grow offset run).Ascends := by
  induction run generalizing table offset with
  | nil => exact h
  | cons c run ih =>
    rw [LineTable.grow]
    split
    · exact ih (h.startLine _) _
    · exact ih h _

theorem ofText_ascends (text : String) : (ofText text).Ascends := by
  have nothing : (ofChars []).Ascends := ⟨rfl, List.pairwise_singleton _ _⟩
  rw [ofText, ← grow_ofChars]
  exact nothing.grow 0 _

/-! ### The place that is found -/

section Found
variable {table : LineTable} (h : table.Ascends) (offset : Nat)
include h

/-- A line begins at or before the offset: the first one does. -/
theorem Ascends.reached_pos : 0 < Search.reached table.starts offset := by
  obtain ⟨rest, hstarts⟩ := List.head?_eq_some_iff.mp h.first
  rw [hstarts, Search.reached, List.takeWhile_cons_of_pos (by simp)]
  exact Nat.succ_pos _

/-- The line that is found begins at or before the offset. -/
theorem Ascends.start_le : (table.starts.takeWhile (· ≤ offset)).getLastD 0 ≤ offset := by
  have pos := h.reached_pos offset
  obtain ⟨inside, last⟩ := List.getElem?_eq_some_iff.mp (Search.getElem?_reached pos)
  rw [← last, Search.getElem_le_iff h.ordered]
  exact Nat.sub_lt pos Nat.one_pos

/-- The search leads to the place of the offset. -/
theorem Ascends.locate?_eq : table.locate? offset = some (table.locate offset) := by
  have pos := h.reached_pos offset
  have line : (if offset ∈ table.starts then Search.Hit.found (Search.reached table.starts offset - 1)
      else .missing (Search.reached table.starts offset)).line = some (Search.reached table.starts offset - 1) := by
    split
    · rfl
    · exact Nat.ppred_eq_pred pos
  rw [LineTable.locate?, Search.find_eq h.ordered]
  simp only [Option.bind_eq_bind, Option.bind_some, Option.pure_def, line, Search.getElem?_reached pos,
    Nat.psub_eq_sub (h.start_le offset), Nat.sub_add_cancel pos]
  rfl

end Found

end LineTable

/-! ### The place that the characters count out -/

/-- The place of an offset by the characters before it. Each newline ends a line. The column is the distance from the
    offset just after the last newline, which is not beyond the offset itself, or else from the start of the text. -/
structure Place.Counted (before : List Char) (offset : Nat) (p : Place) : Prop where
  offset_eq : p.offset = offset
  line_eq : p.line = 1 + before.count '\n'
  column_first : '\n' ∉ before → p.column = offset
  column_later : ∀ head tail, before = head ++ '\n' :: tail → '\n' ∉ tail →
    head.length + 1 ≤ offset ∧ p.column = offset - (head.length + 1)

/-- The characters before an offset have only one place for it. -/
theorem Place.Counted.unique {before : List Char} {offset : Nat} {p q : Place} (hp : p.Counted before offset)
    (hq : q.Counted before offset) : p = q := by
  have column : p.column = q.column := by
    by_cases later : '\n' ∈ before
    · -- The last newline is the first one of the characters read backwards.
      obtain ⟨tail, head, parts, last⟩ := List.eq_append_cons_of_mem (List.mem_reverse.mpr later)
      have turned : before = head.reverse ++ '\n' :: tail.reverse := by
        simpa using congrArg List.reverse parts
      have last' : '\n' ∉ tail.reverse := fun h => last (List.mem_reverse.mp h)
      rw [(hp.column_later _ _ turned last').2, (hq.column_later _ _ turned last').2]
    · rw [hp.column_first later, hq.column_first later]
  rw [Place.mk.injEq]
  exact ⟨hp.offset_eq.trans hq.offset_eq.symm, hp.line_eq.trans hq.line_eq.symm, column⟩

namespace LineTable

theorem length_newlineEnds (offset : Nat) (run : List Char) : (newlineEnds offset run).length = run.count '\n' := by
  induction run generalizing offset with
  | nil => rfl
  | cons c run ih =>
    rw [newlineEnds, List.count_cons]
    by_cases hc : c = '\n'
    · simp [hc, ih]
    · simp [hc, ih]

theorem newlineEnds_eq_nil (offset : Nat) {run : List Char} (h : '\n' ∉ run) : newlineEnds offset run = [] := by
  rw [← List.length_eq_zero_iff, length_newlineEnds]
  exact List.count_eq_zero_of_not_mem h

/-- The last line begins just after the last newline. -/
theorem newlineEnds_of_last (offset : Nat) (head : List Char) {tail : List Char} (h : '\n' ∉ tail) :
    newlineEnds offset (head ++ '\n' :: tail) = newlineEnds offset head ++ [offset + head.length + 1] := by
  rw [newlineEnds_append, newlineEnds, if_pos rfl, newlineEnds_eq_nil _ h]

theorem locate_counted (text : List Char) (offset : Nat) :
    ((ofChars text).locate offset).Counted (text.take offset) offset := by
  rw [locate_ofChars]
  constructor
  · rfl
  · show _ + 1 = _
    rw [length_newlineEnds, Nat.add_comm]
  · intro one_line
    show offset - _ = _
    rw [newlineEnds_eq_nil 0 one_line]
    rfl
  · intro head tail parts last
    have length := congrArg List.length parts
    have bound := List.length_take_le offset text
    simp only [List.length_append, List.length_cons] at length
    refine ⟨by omega, ?_⟩
    show offset - _ = _
    rw [parts, newlineEnds_of_last 0 head last, ← List.cons_append, List.getLastD_concat, Nat.zero_add]

theorem counted_iff (text : List Char) (offset : Nat) (p : Place) :
    p.Counted (text.take offset) offset ↔ (ofChars text).locate offset = p :=
  ⟨fun h => (locate_counted text offset).unique h, fun h => h ▸ locate_counted text offset⟩

end LineTable

/-! ### Places and joins -/

/-- Every offset of every text has the place that its characters count out, and the search for it comes to that place;
    joining the spans of one line table neither depends on order nor grouping and gives the smallest span of the table
    that encloses both. -/
theorem Span.located_and_joined :
    (∀ (text : String) (offset : Nat),
      (LineTable.ofText text).locate? offset = some ((LineTable.ofText text).locate offset) ∧
        ∀ p : Place, p.Counted (text.toList.take offset) offset ↔ (LineTable.ofText text).locate offset = p) ∧
    ∀ (table : LineTable) {s t : Span}, s.LocatedBy table → t.LocatedBy table →
      s.join s = s ∧ s.join t = t.join s ∧ (∀ u : Span, (s.join t).join u = s.join (t.join u)) ∧
        Smallest table s t (s.join t) := by
  refine ⟨fun text offset => ⟨?_, ?_⟩, fun table s t hs ht => ⟨?_, ?_, ?_, ?_⟩⟩
  · exact (LineTable.ofText_ascends text).locate?_eq offset
  · exact LineTable.counted_iff text.toList offset
  · exact join_self s
  · exact hs.join_comm ht
  · exact join_assoc s t
  · exact hs.smallest_join ht

theorem Span.located_and_joined_lines :
    let table := LineTable.ofText "x := a +\n  b"
    (table.span 5 6).LocatedBy table ∧ (table.span 11 12).LocatedBy table ∧
      table.locate? 12 = some ⟨12, 2, 3⟩ ∧
      (table.span 11 12).join (table.span 5 6) = ⟨⟨5, 1, 5⟩, ⟨12, 2, 3⟩⟩ ∧
      Smallest table (table.span 5 6) (table.span 11 12) ⟨⟨5, 1, 5⟩, ⟨12, 2, 3⟩⟩ ∧
      (⟨⟨5, 1, 5⟩, ⟨12, 2, 3⟩⟩ : Span).join (table.span 0 1) =
        (table.span 5 6).join ((table.span 11 12).join (table.span 0 1)) := by
  intro table
  have left : (table.span 5 6).LocatedBy table := .of_span (by decide)
  have right : (table.span 11 12).LocatedBy table := .of_span (by decide)
  have place : table.locate 12 = ⟨12, 2, 3⟩ := by decide
  have joined : (table.span 5 6).join (table.span 11 12) = ⟨⟨5, 1, 5⟩, ⟨12, 2, 3⟩⟩ := by decide
  obtain ⟨places, joins⟩ := Span.located_and_joined
  obtain ⟨-, comm, assoc, smallest⟩ := joins table left right
  refine ⟨left, right, ?_, comm ▸ joined, joined ▸ smallest, joined ▸ assoc _⟩
  exact place ▸ (places _ 12).1

end RecordStats
