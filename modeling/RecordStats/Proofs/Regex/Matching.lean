import Mathlib.Data.List.Infix
import Mathlib.Data.Char
import Mathlib.Data.List.Basic
import RecordStats.Regex.Basic
import RecordStats.Regex.CharSet

/-!
What a regular expression matches. `Fits` says which texts begin with a part that the terms of an expression match,
and the search finds such a part exactly where there is one. A set of single characters without hyphens and brackets of
its own is read character by character, but for the doubled marks that are operators.
-/

namespace RecordStats.Regex

/-- A text begins with a part that the terms match, at the start of it all or somewhere later. -/
inductive Fits : Bool → Regex → List Char → Prop where
  | nil {atStart : Bool} {text : List Char} : Fits atStart [] text
  | start {r : Regex} {text : List Char} (rest : Fits true r text) : Fits true (.start :: r) text
  | stop {atStart : Bool} {r : Regex} (rest : Fits atStart r []) : Fits atStart (.stop :: r) []
  | one {atStart : Bool} {a : Atom} {r : Regex} {c : Char} {text : List Char} (takes : a.takes c = true)
      (rest : Fits false r text) : Fits atStart (.one a :: r) (c :: text)
  | enough {atStart : Bool} {a : Atom} {r : Regex} {text : List Char} (rest : Fits atStart r text) :
      Fits atStart (.many a :: r) text
  | more {atStart : Bool} {a : Atom} {r : Regex} {c : Char} {text : List Char} (takes : a.takes c = true)
      (rest : Fits false (.many a :: r) text) : Fits atStart (.many a :: r) (c :: text)

/-- Some part of a text matches. -/
def MatchesIn (r : Regex) (atStart : Bool) (text : List Char) : Prop :=
  ∃ skipped rest, text = skipped ++ rest ∧ Fits (atStart && skipped.isEmpty) r rest

variable {r : Regex} {atStart : Bool} {text : List Char}

/-! ### One term at a time -/

theorem fits_stop_iff : Fits atStart (.stop :: r) text ↔ text = [] ∧ Fits atStart r [] := by
  constructor
  · intro h
    cases h with
    | stop rest => exact ⟨rfl, rest⟩
  · rintro ⟨rfl, rest⟩
    exact .stop rest

theorem fits_one_iff {a : Atom} :
    Fits atStart (.one a :: r) text ↔ ∃ c rest, text = c :: rest ∧ a.takes c = true ∧ Fits false r rest := by
  constructor
  · intro h
    cases h with
    | one takes rest => exact ⟨_, _, rfl, takes, rest⟩
  · rintro ⟨c, rest, rfl, takes, fits⟩
    exact .one takes fits

/-- A star takes a run of characters, and the other terms go on behind it. -/
theorem fits_many_iff {a : Atom} :
    Fits atStart (.many a :: r) text ↔
      ∃ taken rest, text = taken ++ rest ∧ (∀ c ∈ taken, a.takes c = true) ∧
        Fits (atStart && taken.isEmpty) r rest := by
  constructor
  · intro h
    generalize hall : Term.many a :: r = all at h
    induction h with
    | enough fits =>
      cases hall
      exact ⟨[], _, rfl, List.forall_mem_nil _, by simpa using fits⟩
    | @more atStart a r c text takes _ ih =>
      cases hall
      obtain ⟨taken, rest, rfl, all, fits⟩ := ih rfl
      exact ⟨c :: taken, rest, rfl, List.forall_mem_cons.mpr ⟨takes, all⟩, by simpa using fits⟩
    | _ => cases hall
  · rintro ⟨taken, rest, rfl, all, fits⟩
    induction taken generalizing atStart with
    | nil => exact .enough (by simpa using fits)
    | cons c taken ih =>
      obtain ⟨takes, all⟩ := List.forall_mem_cons.mp all
      exact .more takes (ih all (by simpa using fits))

/-! ### The search -/

theorem isDone_true_iff : isDone atStart true r = true ↔ Fits atStart r [] := by
  constructor
  · intro h
    fun_induction isDone atStart true r with
    | case1 => exact .nil
    | case2 rest ih =>
      simp only [Bool.and_eq_true] at h
      obtain ⟨rfl, h⟩ := h
      exact .start (ih h)
    | case3 rest ih => exact .stop (ih (by simpa using h))
    | case4 => cases h
    | case5 a rest ih => exact .enough (ih h)
  · intro h
    generalize htext : ([] : List Char) = text at h
    induction h with
    | nil => rfl
    | start _ ih => simp [isDone, ih htext]
    | stop _ ih => simp [isDone, ih rfl]
    | one => cases htext
    | enough _ ih => simp [isDone, ih htext]
    | more => cases htext

/-- A match of a text with a first character takes none of it, or takes that character. -/
theorem fits_cons_iff {c : Char} :
    Fits atStart r (c :: text) ↔
      isDone atStart false r = true ∨ ∃ rest ∈ residuals atStart c r, Fits false rest text := by
  constructor
  · intro h
    generalize hall : c :: text = all at h
    induction h with
    | nil => exact .inl rfl
    | start _ ih => simpa [isDone, residuals] using ih hall
    | stop => cases hall
    | one takes rest =>
      cases hall
      exact .inr ⟨_, by simp [residuals, takes], rest⟩
    | enough rest ih =>
      rcases ih hall with done | ⟨left, hleft, fits⟩
      · exact .inl done
      · exact .inr ⟨left, by simp [residuals, hleft], fits⟩
    | more takes rest =>
      cases hall
      exact .inr ⟨_, by simp [residuals, takes], rest⟩
  · intro h
    induction r with
    | nil => exact .nil
    | cons t r ih =>
      cases t with
      | start =>
        cases atStart with
        | false => simp [isDone, residuals] at h
        | true => exact .start (ih (by simpa [isDone, residuals] using h))
      | stop => simp [isDone, residuals] at h
      | one a =>
        simp only [isDone, residuals, Bool.false_eq_true, false_or] at h
        split at h
        · next takes =>
          obtain ⟨rest, hrest, fits⟩ := h
          rw [List.mem_singleton.mp hrest] at fits
          exact .one takes fits
        · simp at h
      | many a =>
        simp only [isDone, residuals, List.mem_append] at h
        rcases h with done | ⟨rest, taken | left, fits⟩
        · exact .enough (ih (.inl done))
        · split at taken
          · next takes =>
            rw [List.mem_singleton.mp taken] at fits
            exact .more takes fits
          · simp at taken
        · exact .enough (ih (.inr ⟨rest, left, fits⟩))

theorem matchesIn_nil : MatchesIn r atStart [] ↔ Fits atStart r [] := by
  simp [MatchesIn]

theorem matchesIn_cons {c : Char} :
    MatchesIn r atStart (c :: text) ↔ Fits atStart r (c :: text) ∨ MatchesIn r false text := by
  constructor
  · rintro ⟨skipped, rest, h, fits⟩
    cases skipped with
    | nil => exact .inl (by simpa [h] using fits)
    | cons d skipped =>
      obtain ⟨rfl, rfl⟩ := List.cons.inj h
      exact .inr ⟨skipped, rest, rfl, by simpa using fits⟩
  · rintro (fits | ⟨skipped, rest, rfl, fits⟩)
    · exact ⟨[], c :: text, rfl, by simpa using fits⟩
    · exact ⟨c :: skipped, rest, rfl, by simpa using fits⟩

/-- The search finds a match of one of the alternatives, or a match that begins later. -/
theorem search_iff {alternatives : List Regex} (has : r ∈ alternatives) :
    search r atStart alternatives text = true ↔
      MatchesIn r atStart text ∨ ∃ s ∈ alternatives, Fits atStart s text := by
  induction text generalizing atStart alternatives with
  | nil =>
    simp only [search, List.any_eq_true, isDone_true_iff, matchesIn_nil]
    exact ⟨.inr, fun h => h.elim (fun fits => ⟨r, has, fits⟩) id⟩
  | cons c text ih =>
    have next : r ∈ (r :: alternatives.flatMap (residuals atStart c)).eraseDups := by simp
    rw [search, Bool.or_eq_true, List.any_eq_true, ih next, matchesIn_cons]
    simp only [List.mem_eraseDups, List.mem_cons, List.mem_flatMap, fits_cons_iff]
    constructor
    · rintro (⟨s, hs, done⟩ | later | ⟨s, rfl | ⟨s', hs', hs⟩, fits⟩)
      · exact .inr ⟨s, hs, .inl done⟩
      · exact .inl (.inr later)
      · exact .inl (.inr ⟨[], text, rfl, fits⟩)
      · exact .inr ⟨s', hs', .inr ⟨s, hs, fits⟩⟩
    · rintro ((here | later) | ⟨s, hs, done | ⟨s', hs', fits⟩⟩)
      · rcases here with done | ⟨s, hs, fits⟩
        · exact .inl ⟨r, has, done⟩
        · exact .inr (.inr ⟨s, .inr ⟨r, has, hs⟩, fits⟩)
      · exact .inr (.inl later)
      · exact .inl ⟨s, hs, done⟩
      · exact .inr (.inr ⟨s', .inr ⟨s, hs, hs'⟩, fits⟩)

/-- An expression matches a text if it matches some part of it. -/
theorem isMatch_iff (r : Regex) (text : String) : isMatch r text = true ↔ MatchesIn r true text.toList := by
  rw [isMatch, search_iff (List.mem_singleton_self r)]
  constructor
  · rintro (inside | ⟨s, hs, fits⟩)
    · exact inside
    · rw [List.mem_singleton.mp hs] at fits
      exact ⟨[], text.toList, rfl, fits⟩
  · exact .inl

/-- An expression that begins with the start of the text matches nowhere else. -/
theorem isMatch_start_iff (r : Regex) (text : String) :
    isMatch (.start :: r) text = true ↔ Fits true r text.toList := by
  rw [isMatch_iff]
  constructor
  · rintro ⟨skipped, rest, h, fits⟩
    cases skipped with
    | nil =>
      cases fits with
      | start fits => exact h ▸ fits
    | cons => cases fits
  · exact fun fits => ⟨[], text.toList, rfl, .start fits⟩

/-! ### Sets of single characters -/

@[simp] theorem contains_add (before item : CharSet) (c : Char) :
    (before.add item).contains c = (before.contains c || item.contains c) := by
  cases before <;> simp [CharSet.add, CharSet.contains]

@[simp] theorem contains_single (c d : Char) : (CharSet.single d).contains c = true ↔ c = d := by
  simp only [CharSet.single, CharSet.contains, Bool.and_eq_true, decide_eq_true_eq]
  exact ⟨fun h => le_antisymm h.2 h.1, fun h => ⟨h.ge, h.le⟩⟩

theorem contains_addAll {before : CharSet} {s : List Char} {c : Char} :
    (before.addAll s).contains c = true ↔ before.contains c = true ∨ c ∈ s := by
  induction s generalizing before with
  | nil => simp [CharSet.addAll]
  | cons d s ih =>
    have := @ih (before.add (.single d))
    simp only [CharSet.addAll, List.foldl_cons] at this ⊢
    rw [this, contains_add, Bool.or_eq_true, contains_single, List.mem_cons, or_assoc]

/-- A union of single characters is one level deep, and a single character none. -/
theorem depth_addAll_le {before : CharSet} (s : List Char) (h : before.depth ≤ if before.isUnion then 1 else 0) :
    (before.addAll s).depth ≤ 1 := by
  induction s generalizing before with
  | nil => exact h.trans (by split <;> simp)
  | cons d s ih =>
    refine ih ?_
    cases before <;> simp_all [CharSet.add, CharSet.single, CharSet.depth, CharSet.isUnion]

/-! ### Reading characters -/

/-- A character without a hyphen behind it is an item of its own. -/
theorem setItem?_of_setChar? {text rest : List Char} {c : Char} (read : setChar? text = some (c, rest))
    (hyphen : rest.head? ≠ some '-') : setItem? text = some (.single c, rest) := by
  rw [setItem?, read]
  cases rest with
  | nil => rfl
  | cons d rest =>
    simp only [Option.bind_eq_bind, Option.bind_some]
    split
    · next h => cases h; simp at hyphen
    · rfl

theorem setChar?_cons {c : Char} (hc : c ≠ '\\') (rest : List Char) : setChar? (c :: rest) = some (c, rest) := by
  unfold setChar?
  split <;> simp_all

/-- Where neither a bracket nor an operator stands, an item is read. -/
theorem readSet?_item {inner : OpenSet} {outer : List OpenSet} {c : Char} {text rest : List Char} {item : CharSet}
    (bracket : c ≠ '[' ∧ c ≠ ']') (operator : c ∈ ['&', '-', '~'] → text.head? ≠ some c)
    (h : setItem? (c :: text) = some (item, rest)) :
    readSet? inner outer (c :: text) = readSet? (inner.add item) outer rest := by
  have single : ∀ d ∈ ['&', '-', '~'], ∀ rest, c = d → text = d :: rest → False := by
    rintro d hd rest rfl rfl
    exact operator hd rfl
  rw [readSet?]
  · split
    · next h' => rw [h] at h'; cases h'
    · next h' => rw [h] at h'; cases h'; rfl
  · exact bracket.2
  · exact fun _ h => absurd h bracket.1
  · exact bracket.1
  · exact single '&' (by decide)
  · exact single '-' (by decide)
  · exact single '~' (by decide)

/-- A set is read up to its closing bracket, past those of all the sets that it stands in. -/
theorem count_of_readSet? {inner : OpenSet} {outer : List OpenSet} {text rest : List Char} {s : CharSet}
    (h : readSet? inner outer text = some (s, rest)) : outer.length < text.count ']' := by
  fun_induction readSet? inner outer text with
  | case1 => cases h
  | case2 inner rest => simp
  | case3 inner rest s outer ih => simpa using ih h
  | case4 => cases h
  | case5 inner outer rest _ ih =>
    have := (suffix_start rest).sublist.count_le ']'
    have := ih h
    simp only [List.length_cons] at this
    simp only [List.count_cons_of_ne (show '[' ≠ ']' by decide)]
    omega
  | case6 inner outer rest ih => simpa using ih h
  | case7 inner outer rest ih => simpa using ih h
  | case8 inner outer rest ih => simpa using ih h
  | case9 => cases h
  | case10 inner outer c more _ _ _ _ _ _ item after hitem ih =>
    have := ((suffix_of_setItem? hitem).trans (List.suffix_cons c more)).sublist.count_le ']'
    exact Nat.lt_of_lt_of_le (ih h) this

/-- A set within a set has a closing bracket of its own. -/
theorem count_of_readSet?_nested {inner : OpenSet} {outer : List OpenSet} {text rest : List Char} {s : CharSet}
    (h : readSet? inner outer ('[' :: text) = some (s, rest)) : outer.length + 1 < text.count ']' := by
  by_cases named : ∃ tail, text = ':' :: tail
  · obtain ⟨tail, rfl⟩ := named
    rw [readSet?] at h
    cases h
  · rw [readSet?] at h
    · exact Nat.lt_of_lt_of_le (count_of_readSet? h) ((suffix_start text).sublist.count_le ']')
    · exact fun tail htail => named ⟨tail, htail⟩

end RecordStats.Regex
