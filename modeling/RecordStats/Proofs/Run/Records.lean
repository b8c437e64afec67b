import RecordStats.Proofs.Outcome
import RecordStats.Proofs.Run.Symbols

/-! Records one after another. Evaluating them in a batch and evaluating each of them give the same results as far
    as the batch comes, and the columns of a batch gather the data among them. -/

namespace RecordStats
namespace Run

variable {run last : Run} {call : Caller} {tag : Option String}

/-- The run that the first so many of some records leave. -/
def after (run : Run) (call : Caller) (tag : Option String) (record : Nat → List (String × Value)) : Nat → Run
  | 0 => run
  | k + 1 => ((run.after call tag record k).single call tag (record k)).2

/-- The result of a record, evaluated after the ones before it. -/
def resultAt (run : Run) (call : Caller) (tag : Option String) (record : Nat → List (String × Value)) (k : Nat) :
    Outcome Symbols :=
  ((run.after call tag record k).single call tag (record k)).1

theorem each_cons (record : List (String × Value)) (rest : List (List (String × Value))) :
    run.each call tag (record :: rest) =
      ((run.single call tag record).1 :: ((run.single call tag record).2.each call tag rest).1,
        ((run.single call tag record).2.each call tag rest).2) := rfl

theorem each_append (earlier later : List (List (String × Value))) :
    run.each call tag (earlier ++ later) =
      ((run.each call tag earlier).1 ++ ((run.each call tag earlier).2.each call tag later).1,
        ((run.each call tag earlier).2.each call tag later).2) := by
  induction earlier generalizing run with
  | nil => rfl
  | cons record rest ih =>
    rw [List.cons_append, each_cons, each_cons, ih]
    rfl

theorem each_range (record : Nat → List (String × Value)) (n : Nat) :
    run.each call tag ((List.range n).map record) =
      ((List.range n).map (run.resultAt call tag record), run.after call tag record n) := by
  induction n with
  | zero => rfl
  | succ n ih =>
    rw [List.range_succ, List.map_append, List.map_append, each_append, ih]
    rfl

/-! ### Batches -/

variable {columns out : Dict (List Value)} {records : List (List (String × Value))}

/-- A batch that succeeds has added the symbols of every record in turn. -/
theorem batch_eq_ok (h : run.batch call tag columns records = (.ok out, last)) :
    ∃ items : List Symbols, run.each call tag records = (items.map .ok, last) ∧
      out = items.foldl appendSymbols columns := by
  induction records generalizing run columns with
  | nil =>
    cases h
    exact ⟨[], rfl, rfl⟩
  | cons record rest ih =>
    rw [batch] at h
    rw [each_cons]
    split at h
    · next symbols later hsingle =>
      obtain ⟨items, heach, rfl⟩ := ih h
      exact ⟨symbols :: items, by rw [hsingle, heach]; rfl, rfl⟩
    · cases h

/-- A batch that fails has evaluated every record up to the first that fails. -/
theorem batch_eq_error {stop : Stop} (h : run.batch call tag columns records = (.error stop, last)) :
    ∃ k < records.length, ∃ items : List Symbols, (run.each call tag (records.take k)).1 = items.map .ok ∧
      run.each call tag (records.take (k + 1)) = (items.map .ok ++ [.error stop], last) := by
  induction records generalizing run columns with
  | nil => cases h
  | cons record rest ih =>
    rw [batch] at h
    split at h
    · next symbols later hsingle =>
      obtain ⟨k, hk, items, hearlier, heach⟩ := ih h
      refine ⟨k + 1, Nat.succ_lt_succ hk, symbols :: items, ?_, ?_⟩
      · rw [List.take_succ_cons, each_cons, hsingle, hearlier]
        rfl
      · rw [List.take_succ_cons, each_cons, hsingle, heach]
        rfl
    · next failure later hsingle =>
      cases h
      refine ⟨0, Nat.zero_lt_succ _, [], rfl, ?_⟩
      rw [List.take_succ_cons, each_cons, hsingle]
      rfl

/-! ### Columns of a batch -/

/-- What a record's symbols add to the column of a name: the value, when it is data. -/
def datum? (name : String) (symbols : Symbols) : Option Value :=
  (Dict.get? symbols name).filter fun v => !v.isFunction

theorem datum?_eq_some {name : String} {symbols : Symbols} {v : Value} :
    datum? name symbols = some v ↔ Dict.get? symbols name = some v ∧ v.isFunction = false := by
  rw [datum?, Option.filter_eq_some_iff, Bool.not_eq_true']

/-- A column gets one more value when the symbols hold data of its name, and no other column changes. -/
theorem get?_appendSymbols {symbols : Symbols} (sorted : Dict.Sorted symbols) (columns : Dict (List Value))
    (name : String) :
    Dict.get? (appendSymbols columns symbols) name =
      match datum? name symbols with
      | some v => some ((Dict.get? columns name).getD [] ++ [v])
      | none => Dict.get? columns name := by
  induction symbols generalizing columns with
  | nil => rfl
  | cons s rest ih =>
    obtain ⟨n, v⟩ := s
    obtain ⟨first, others⟩ := List.pairwise_cons.mp sorted
    rw [appendSymbols, List.foldl_cons, ← appendSymbols, ih others]
    by_cases hn : n = name
    · subst hn
      have absent : Dict.get? rest n = none := by
        cases hrest : Dict.get? rest n with
        | none => rfl
        | some w => exact absurd (first _ (Dict.mem_of_get? hrest)) (String.lt_irrefl n)
      cases hv : v.isFunction <;> simp [datum?, Dict.get?_cons, absent, Option.filter_some, hv, Dict.get?_insert]
    · cases hv : v.isFunction <;> simp [datum?, Dict.get?_cons, hn, Dict.get?_insert]

/-- The columns hold the data among the symbols of some records: a column is there when its name was data in some
    record, and has the values of that name in the order of the records. -/
structure Gathers (columns : Dict (List Value)) (items : List Symbols) : Prop where
  values : ∀ name, (Dict.get? columns name).getD [] = items.filterMap (datum? name)
  nonempty : ∀ name, Dict.get? columns name ≠ some []

theorem Gathers.nil : Gathers [] [] := ⟨fun _ => rfl, fun _ h => nomatch h⟩

theorem Gathers.append {items : List Symbols} {symbols : Symbols} (h : Gathers columns items)
    (sorted : Dict.Sorted symbols) : Gathers (appendSymbols columns symbols) (items ++ [symbols]) := by
  refine ⟨fun name => ?_, fun name => ?_⟩
  · rw [get?_appendSymbols sorted, List.filterMap_append, ← h.values name]
    cases hd : datum? name symbols <;> simp [hd]
  · rw [get?_appendSymbols sorted]
    cases datum? name symbols with
    | none => exact h.nonempty name
    | some v => simp

theorem Gathers.foldl {items more : List Symbols} (h : Gathers columns items)
    (sorted : ∀ symbols ∈ more, Dict.Sorted symbols) : Gathers (more.foldl appendSymbols columns) (items ++ more) := by
  induction more generalizing columns items with
  | nil => rwa [List.append_nil]
  | cons symbols rest ih =>
    obtain ⟨first, others⟩ := List.forall_mem_cons.mp sorted
    have := ih (h.append first) others
    rwa [List.append_assoc] at this

theorem Gathers.get?_eq_some {items : List Symbols} (h : Gathers columns items) {name : String}
    {values : List Value} :
    Dict.get? columns name = some values ↔ values ≠ [] ∧ items.filterMap (datum? name) = values := by
  rw [← h.values name]
  cases hc : Dict.get? columns name with
  | none => simp [eq_comm]
  | some vs =>
    have hne : vs ≠ [] := fun hnil => h.nonempty name (hnil ▸ hc)
    constructor
    · rintro ⟨⟩
      exact ⟨hne, rfl⟩
    · rintro ⟨-, rfl⟩
      rfl

/-- The symbols of each record are in the order of their names. -/
theorem each_sorted {items : List Symbols} (h : (run.each call tag records).1 = items.map .ok) :
    ∀ symbols ∈ items, Dict.Sorted symbols := by
  induction records generalizing run items with
  | nil =>
    rw [List.map_eq_nil_iff.mp h.symm]
    exact List.forall_mem_nil _
  | cons record rest ih =>
    rw [each_cons] at h
    obtain ⟨symbols, others, rfl, hsymbols, hothers⟩ := List.map_eq_cons_iff.mp h.symm
    exact List.forall_mem_cons.mpr ⟨single_sorted hsymbols.symm, ih hothers.symm⟩

theorem batch_gathers (h : run.batch call tag [] records = (.ok out, last)) :
    ∃ items : List Symbols, run.each call tag records = (items.map .ok, last) ∧ Gathers out items := by
  obtain ⟨items, heach, rfl⟩ := batch_eq_ok h
  exact ⟨items, heach, Gathers.nil.foldl (each_sorted (congrArg Prod.fst heach))⟩

end Run
end RecordStats
