import Mathlib
import RecordStats.Path
import RecordStats.Proofs.Grammar.IntegerLiteral

/-! Paths and their texts. A text is the path of its parts between slashes: a part that reads as a number of 64 bits is
    an index, an empty one means nothing, and any other is a name. So a path is read back from its text if each of its
    names is a part that means this name, and only then. What a text is read as is always such a path. -/

namespace RecordStats

namespace Decimal

/-- The characters are a whole number's: a sign if any, and at least one digit. There may be leading zeros. -/
inductive Spells : List Char → Int → Prop
  | unsigned {digits : List Char} (nonempty : digits ≠ []) (all : ∀ c ∈ digits, c.isDigit = true) :
      Spells digits (Nat.ofDigitChars 10 digits 0)
  | plus {digits : List Char} (nonempty : digits ≠ []) (all : ∀ c ∈ digits, c.isDigit = true) :
      Spells ('+' :: digits) (Nat.ofDigitChars 10 digits 0)
  | minus {digits : List Char} (nonempty : digits ≠ []) (all : ∀ c ∈ digits, c.isDigit = true) :
      Spells ('-' :: digits) (-(Nat.ofDigitChars 10 digits 0 : Int))

theorem nat?_eq_some_iff {digits : List Char} {n : Nat} :
    nat? digits = some n ↔ digits ≠ [] ∧ (∀ c ∈ digits, c.isDigit = true) ∧ Nat.ofDigitChars 10 digits 0 = n := by
  unfold nat?
  split
  · next h =>
    rw [Bool.or_eq_true, List.isEmpty_iff, Bool.not_eq_true', List.all_eq_false] at h
    constructor
    · intro hn
      cases hn
    · rintro ⟨nonempty, all, -⟩
      rcases h with h | ⟨c, hc, hdigit⟩
      · exact absurd h nonempty
      · exact absurd (all c hc) hdigit
  · next h =>
    rw [Bool.or_eq_true, not_or, List.isEmpty_iff, Bool.not_eq_true', Bool.not_eq_false, List.all_eq_true] at h
    rw [Option.some.injEq]
    exact ⟨fun hn => ⟨h.1, h.2, hn⟩, fun hn => hn.2.2⟩

theorem word?_eq_some_iff {n : Int} {w : Int64} : word? n = some w ↔ n = w.toInt := by
  constructor
  · unfold word?
    split
    · next h =>
      intro hw
      cases hw
      rw [Int64.toInt_ofInt_of_le (by omega) (by omega)]
    · intro hw
      cases hw
  · rintro rfl
    exact Lexeme.word?_toInt w

theorem nat?_bind_word?_iff {digits : List Char} {f : Nat → Int} {w : Int64} :
    ((nat? digits).bind fun n => word? (f n)) = some w ↔
      digits ≠ [] ∧ (∀ c ∈ digits, c.isDigit = true) ∧ f (Nat.ofDigitChars 10 digits 0) = w.toInt := by
  rw [Option.bind_eq_some_iff]
  constructor
  · rintro ⟨n, hn, hw⟩
    obtain ⟨nonempty, all, rfl⟩ := nat?_eq_some_iff.mp hn
    exact ⟨nonempty, all, word?_eq_some_iff.mp hw⟩
  · rintro ⟨nonempty, all, hw⟩
    exact ⟨_, nat?_eq_some_iff.mpr ⟨nonempty, all, rfl⟩, word?_eq_some_iff.mpr hw⟩

/-- A text is read as the number of 64 bits that it spells, and as none if it spells none. -/
theorem readWord?_eq_some_iff {text : List Char} {w : Int64} : readWord? text = some w ↔ Spells text w.toInt := by
  constructor
  · intro h
    unfold readWord? at h
    split at h
    · obtain ⟨nonempty, all, hw⟩ := nat?_bind_word?_iff.mp h
      exact hw ▸ .minus nonempty all
    · obtain ⟨nonempty, all, hw⟩ := nat?_bind_word?_iff.mp h
      exact hw ▸ .plus nonempty all
    · obtain ⟨nonempty, all, hw⟩ := nat?_bind_word?_iff.mp h
      exact hw ▸ .unsigned nonempty all
  · generalize hn : w.toInt = n
    intro h
    cases h with
    | minus nonempty all => exact nat?_bind_word?_iff.mpr ⟨nonempty, all, hn.symm⟩
    | plus nonempty all => exact nat?_bind_word?_iff.mpr ⟨nonempty, all, hn.symm⟩
    | unsigned nonempty all =>
      -- a digit is neither of the signs
      have notSign : ∀ c rest, text = c :: rest → c ≠ '-' ∧ c ≠ '+' := by
        rintro c rest rfl
        have hc := all c List.mem_cons_self
        constructor <;> rintro rfl <;> revert hc <;> decide
      unfold readWord?
      split
      · exact absurd rfl (notSign _ _ rfl).1
      · exact absurd rfl (notSign _ _ rfl).2
      · exact nat?_bind_word?_iff.mpr ⟨nonempty, all, hn.symm⟩

/-- The decimal text of a number spells it. -/
theorem spells_toString (n : Int) : Spells (toString n).toList n := by
  have digits (m : Nat) : ∀ c ∈ Nat.toDigits 10 m, c.isDigit = true := fun c hc =>
    Nat.isDigit_of_mem_toDigits (by decide) (by decide) hc
  have value (m : Nat) : Nat.ofDigitChars 10 (Nat.toDigits 10 m) 0 = m :=
    Nat.ofDigitChars_toDigits (by decide) (by decide)
  rcases Int.lt_or_le n 0 with below | whole
  · rw [toList_toString_of_neg below]
    have spelled := Spells.minus Nat.toDigits_ne_nil (digits (-n).toNat)
    rwa [value, Int.toNat_of_nonneg (by omega), neg_neg] at spelled
  · rw [toList_toString_of_nonneg whole]
    have spelled := Spells.unsigned Nat.toDigits_ne_nil (digits n.toNat)
    rwa [value, Int.toNat_of_nonneg whole] at spelled

/-- What spells a number is of digits, after a sign if any. -/
theorem Spells.not_mem {text : List Char} {n : Int} (h : Spells text n) {c : Char}
    (other : c ≠ '+' ∧ c ≠ '-' ∧ c.isDigit = false) : c ∉ text := by
  obtain ⟨notPlus, notMinus, notDigit⟩ := other
  have outside {digits : List Char} (all : ∀ c ∈ digits, c.isDigit = true) : c ∉ digits := by
    intro hc
    rw [all c hc] at notDigit
    cases notDigit
  cases h with
  | unsigned _ all => exact outside all
  | plus _ all => exact List.not_mem_cons_of_ne_of_not_mem notPlus (outside all)
  | minus _ all => exact List.not_mem_cons_of_ne_of_not_mem notMinus (outside all)

theorem Spells.ne_nil {text : List Char} {n : Int} (h : Spells text n) : text ≠ [] := by
  cases h with
  | unsigned nonempty => exact nonempty
  | plus | minus => exact List.cons_ne_nil _ _

end Decimal

/-! ### Parts of a text -/

namespace Text

theorem splitAt_eq_splitOn (separator : Char) (text : List Char) :
    splitAt separator text = text.splitOn separator := by
  induction text with
  | nil => rfl
  | cons c rest ih =>
    rw [splitAt, ih, List.splitOn_cons_eq_if_modifyHead]
    by_cases hc : c = separator
    · rw [if_pos hc, if_pos (beq_iff_eq.mpr hc)]
    · rw [if_neg hc, if_neg (by rwa [beq_iff_eq])]
      cases hparts : rest.splitOn separator with
      | nil => exact absurd hparts (List.splitOn_ne_nil _ _)
      | cons part parts => rfl

theorem not_mem_of_mem_splitAt {separator : Char} {text part : List Char} (h : part ∈ splitAt separator text) :
    separator ∉ part := by
  induction text generalizing part with
  | nil =>
    rw [List.mem_singleton.mp h]
    exact List.not_mem_nil
  | cons c rest ih =>
    rw [splitAt] at h
    split at h
    · rcases List.mem_cons.mp h with rfl | h
      · exact List.not_mem_nil
      · exact ih h
    · next hc =>
      split at h
      · rw [List.mem_singleton.mp h, List.mem_singleton]
        exact Ne.symm hc
      · next first others hparts =>
        rw [hparts] at ih
        rcases List.mem_cons.mp h with rfl | h
        · exact List.not_mem_cons_of_ne_of_not_mem (Ne.symm hc) (ih List.mem_cons_self)
        · exact ih (List.mem_cons_of_mem _ h)

end Text

/-! ### Paths -/

/-- The segment is an index, or a name that is one part of a text and no number. -/
def Segment.Readable : Segment → Prop
  | field name => name ≠ "" ∧ '/' ∉ name.toList ∧ ¬ ∃ w : Int64, Decimal.Spells name.toList w.toInt
  | index _ => True

namespace Segment

variable {s : Segment}

/-- The text of a readable segment is one part, and it means the segment. -/
theorem Readable.part (h : s.Readable) : s.text.toList ≠ [] ∧ '/' ∉ s.text.toList ∧ ofChars s.text.toList = s := by
  cases s with
  | field name =>
    obtain ⟨nonempty, noSlash, noNumber⟩ := h
    refine ⟨fun hnil => nonempty (String.toList_eq_nil_iff.mp hnil), noSlash, ?_⟩
    have notRead : Decimal.readWord? name.toList = none := by
      rw [Option.eq_none_iff_forall_not_mem]
      exact fun w hw => noNumber ⟨w, Decimal.readWord?_eq_some_iff.mp hw⟩
    rw [ofChars, text, notRead, String.ofList_toList]
  | index n =>
    have spelled := Decimal.spells_toString n.toInt
    refine ⟨spelled.ne_nil, spelled.not_mem (by decide), ?_⟩
    rw [ofChars, text, Decimal.readWord?_eq_some_iff.mpr spelled]

/-- What a part of a text means is readable. -/
theorem readable_ofChars {part : List Char} (nonempty : part ≠ []) (noSlash : '/' ∉ part) :
    (ofChars part).Readable := by
  unfold ofChars
  split
  · trivial
  · next notRead =>
    refine ⟨fun hname => nonempty ?_, by rwa [String.toList_ofList], ?_⟩
    · rw [← String.toList_ofList (l := part), hname]
      rfl
    · rintro ⟨w, hw⟩
      rw [String.toList_ofList] at hw
      rw [Decimal.readWord?_eq_some_iff.mpr hw] at notRead
      cases notRead

end Segment

namespace Path

theorem readable_of_mem_ofText {text : String} {s : Segment} (h : s ∈ ofText text) : s.Readable := by
  obtain ⟨part, hpart, rfl⟩ := List.mem_map.mp h
  obtain ⟨hsplit, hnonempty⟩ := List.mem_filter.mp hpart
  rw [Bool.not_eq_true', List.isEmpty_eq_false_iff] at hnonempty
  exact Segment.readable_ofChars hnonempty (Text.not_mem_of_mem_splitAt hsplit)

/-- A path of readable segments is read back from its text. -/
theorem ofText_text {path : Path} (h : ∀ s ∈ path, s.Readable) : ofText path.text = path := by
  rcases eq_or_ne path [] with rfl | hne
  · rfl
  have parts : Text.splitAt '/' path.text.toList = path.map fun s => s.text.toList := by
    rw [Text.splitAt_eq_splitOn, Path.text, String.toList_intercalate, List.map_map]
    refine List.splitOn_intercalate _ (List.forall_mem_map.mpr fun s hs => (h s hs).part.2.1) ?_
    rwa [Ne, List.map_eq_nil_iff]
  have kept : (path.map fun s => s.text.toList).filter (fun part => !part.isEmpty) =
      path.map fun s => s.text.toList := by
    rw [List.filter_eq_self, List.forall_mem_map]
    intro s hs
    rw [Bool.not_eq_true', List.isEmpty_eq_false_iff]
    exact (h s hs).part.1
  rw [ofText, parts, kept, List.map_map]
  exact (List.map_congr_left fun s hs => (h s hs).part.2.2).trans (List.map_id path)

/-- A path is read back from its text if no name is empty, holds a slash or reads as a number of 64 bits, and only
    then. Whatever a text is read as, the path's own text is read as the same. -/
theorem ofText_text_iff (path : Path) (text : String) :
    (ofText path.text = path ↔ ∀ name, .field name ∈ path →
      name ≠ "" ∧ '/' ∉ name.toList ∧ ¬ ∃ w : Int64, Decimal.Spells name.toList w.toInt) ∧
    ofText (ofText text).text = ofText text := by
  refine ⟨⟨fun same name hname => ?_, fun names => ofText_text fun s hs => ?_⟩,
    ofText_text fun s => readable_of_mem_ofText⟩
  · rw [← same] at hname
    exact readable_of_mem_ofText hname
  · cases s with
    | field name => exact names name hs
    | index n => trivial

/-- An empty name vanishes and a slash makes two names of one, so there are as many segments as before. -/
example : ofText (text [.field "", .field "a/+07"]) = [.field "a", .index 7] := by decide

end Path

end RecordStats
