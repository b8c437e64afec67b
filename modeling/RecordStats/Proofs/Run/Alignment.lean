import RecordStats.Proofs.Run.Agreement

/-! Columns of a batch and its records. All records have the same names for symbols, so a column of a batch has one
    entry a record unless its name is a function in some record: then it has the other records' values, moved up. -/

namespace RecordStats

/-- The column of a name in a batch. -/
def Output.column? (name : String) : Output → Option (List Value)
  | .batch columns => Dict.get? columns name
  | .single _ => none

theorem Output.column?_eq_some {output : Output} {name : String} {values : List Value} :
    output.column? name = some values ↔ ∃ columns, output = .batch columns ∧ Dict.get? columns name = some values := by
  cases output with
  | batch columns => simp [column?]
  | single symbols => simp [column?]

namespace Run

variable {run : Run} {call : Caller} {tag : Option String} {columns : List (String × Value)} {n : Nat}

theorem after_program (run : Run) (call : Caller) (tag : Option String) (record : Nat → List (String × Value))
    (k : Nat) : (run.after call tag record k).program = run.program := by
  induction k with
  | zero => rfl
  | succ k ih => exact ih

/-- A batch that has been evaluated holds the data of every record. -/
theorem results_of_evaluate {out : Dict (List Value)} (aligned : Aligned columns n)
    (h : (run.evaluate call tag columns).1 = .ok (.batch out)) :
    ∃ items : List Symbols, items.length = n ∧ Gathers out items ∧
      ∀ i symbols, items[i]? = some symbols ↔
        i < n ∧ run.resultAt call tag (recordAt columns) i = .ok symbols := by
  obtain ⟨items, _, houtput, gathers, hiterate⟩ := (recordByRecord_of_aligned aligned).succeeds _ h
  cases houtput
  rw [iterate_of_aligned aligned, Nat.min_self] at hiterate
  have results : (List.range n).map (run.resultAt call tag (recordAt columns)) = items.map .ok :=
    congrArg Prod.fst hiterate
  have length : items.length = n := by simpa using (congrArg List.length results).symm
  refine ⟨items, length, gathers, fun i symbols => ?_⟩
  have entry : ((List.range n).map (run.resultAt call tag (recordAt columns)))[i]? = (items.map .ok)[i]? :=
    congrArg (·[i]?) results
  by_cases hi : i < n
  · have hitem : i < items.length := length ▸ hi
    rw [List.getElem?_map, List.getElem?_map, List.getElem?_range hi, List.getElem?_eq_getElem hitem] at entry
    rw [List.getElem?_eq_getElem hitem, Option.some.inj entry]
    simp [hi]
  · simp [hi, List.getElem?_eq_none (length ▸ Nat.le_of_not_lt hi)]

/-- All records of aligned columns have the same names for symbols. -/
theorem names_of_resultAt {i j : Nat} {symbols symbols' : Symbols} (aligned : Aligned columns n) (hi : i < n)
    (hj : j < n) (h : run.resultAt call tag (recordAt columns) i = .ok symbols)
    (h' : run.resultAt call tag (recordAt columns) j = .ok symbols') (name : String) :
    (∃ v, Dict.get? symbols name = some v) ↔ ∃ v, Dict.get? symbols' name = some v := by
  refine names_of_single ?_ ?_ h h' name
  · rw [after_program, after_program]
  · rw [recordAt_names aligned hi, recordAt_names aligned hj]

/-- What is data in one record is data in every record where it is no function. -/
theorem datum?_of_resultAt {i j : Nat} {symbols symbols' : Symbols} {name : String} {v : Value}
    (aligned : Aligned columns n) (hi : i < n) (hj : j < n)
    (h : run.resultAt call tag (recordAt columns) i = .ok symbols)
    (h' : run.resultAt call tag (recordAt columns) j = .ok symbols') (hdatum : datum? name symbols = some v)
    (data : ∀ w, Dict.get? symbols' name = some w → w.isFunction = false) : ∃ w, datum? name symbols' = some w := by
  obtain ⟨w, hw⟩ := (names_of_resultAt aligned hi hj h h' name).mp ⟨v, (datum?_eq_some.mp hdatum).1⟩
  exact ⟨w, datum?_eq_some.mpr ⟨hw, data w hw⟩⟩

theorem getElem?_filterMap {α β : Type} {f : α → Option β} {l : List α} (h : ∀ a ∈ l, (f a).isSome) (i : Nat) :
    (l.filterMap f)[i]? = l[i]?.bind f := by
  induction l generalizing i with
  | nil => rfl
  | cons a rest ih =>
    obtain ⟨first, others⟩ := List.forall_mem_cons.mp h
    obtain ⟨b, hb⟩ := Option.isSome_iff_exists.mp first
    rw [List.filterMap_cons_some hb]
    cases i with
    | zero => exact hb.symm
    | succ i => exact ih others i

/-- A column of a batch has one entry a record, each the value that the name had there, just when the name was a
    function in no record. -/
theorem batch_column_iff {out : Dict (List Value)} {name : String} {values : List Value}
    (aligned : Aligned columns n) (h : (run.evaluate call tag columns).1 = .ok (.batch out))
    (hcolumn : Dict.get? out name = some values) :
    (values.length = n ∧ ∀ i < n, ∃ symbols, run.resultAt call tag (recordAt columns) i = .ok symbols ∧
        Dict.get? symbols name = values[i]?) ↔
      ∀ i < n, ∀ symbols v, run.resultAt call tag (recordAt columns) i = .ok symbols →
        Dict.get? symbols name = some v → v.isFunction = false := by
  obtain ⟨items, hlength, gathers, result⟩ := results_of_evaluate aligned h
  obtain ⟨nonempty, rfl⟩ := gathers.get?_eq_some.mp hcolumn
  constructor
  · rintro ⟨hvalues, -⟩ i hi symbols v hsymbols hv
    have all := List.filterMap_length_eq_length.mp (hvalues.trans hlength.symm)
    have mem : symbols ∈ items := List.mem_of_getElem? ((result i symbols).mpr ⟨hi, hsymbols⟩)
    obtain ⟨w, hw⟩ := Option.isSome_iff_exists.mp (all symbols mem)
    obtain ⟨hget, hdata⟩ := datum?_eq_some.mp hw
    rwa [Option.some.inj (hv.symm.trans hget)]
  · intro data
    obtain ⟨first, hfirst⟩ := List.exists_mem_of_ne_nil _ nonempty
    obtain ⟨known, hknown, hdatum⟩ := List.mem_filterMap.mp hfirst
    obtain ⟨j, hj⟩ := List.mem_iff_getElem?.mp hknown
    obtain ⟨hjn, hresult⟩ := (result j known).mp hj
    have all : ∀ symbols ∈ items, (datum? name symbols).isSome := by
      intro symbols mem
      obtain ⟨i, hi⟩ := List.mem_iff_getElem?.mp mem
      obtain ⟨hin, hsymbols⟩ := (result i symbols).mp hi
      exact Option.isSome_iff_exists.mpr <|
        datum?_of_resultAt aligned hjn hin hresult hsymbols hdatum fun v => data i hin symbols v hsymbols
    refine ⟨(List.filterMap_length_eq_length.mpr all).trans hlength, fun i hi => ?_⟩
    have hitem : items[i]? = some items[i] := List.getElem?_eq_getElem (hlength ▸ hi)
    obtain ⟨v, hv⟩ := Option.isSome_iff_exists.mp (all _ (List.mem_of_getElem? hitem))
    refine ⟨_, ((result i _).mp hitem).2, ?_⟩
    rw [getElem?_filterMap all, hitem, (datum?_eq_some.mp hv).1]
    exact hv.symm

theorem batch_column_iff_negated :
    ∃ run out values, ofText "y := -x" RecordStats.standing = .ok run ∧
      (run.evaluate (Host.caller Host.none 1) none [("x", .list [.integer 1, .integer 2])]).1 = .ok (.batch out) ∧
      Dict.get? out "y" = some values ∧
      ((values.length = 2 ∧ ∀ i < 2, ∃ symbols,
          run.resultAt (Host.caller Host.none 1) none
            (recordAt [("x", .list [.integer 1, .integer 2])]) i = .ok symbols ∧
          Dict.get? symbols "y" = values[i]?) ↔
        ∀ i < 2, ∀ symbols v,
          run.resultAt (Host.caller Host.none 1) none
            (recordAt [("x", .list [.integer 1, .integer 2])]) i = .ok symbols →
          Dict.get? symbols "y" = some v → v.isFunction = false) := by
  have gives : (ofText "y := -x" RecordStats.standing).toOption.any (fun run =>
      (run.evaluate (Host.caller Host.none 1) none [("x", .list [.integer 1, .integer 2])]).1.toOption.any
        fun output => output.column? "y" |>.isSome) = true := by
    decide +kernel
  obtain ⟨run, h, hrun⟩ := exists_of_any gives
  obtain ⟨output, houtput, hcolumn⟩ := exists_of_any hrun
  obtain ⟨values, hvalues⟩ := Option.isSome_iff_exists.mp hcolumn
  obtain ⟨out, rfl, hget⟩ := Output.column?_eq_some.mp hvalues
  exact ⟨run, out, values, h, houtput, hget, batch_column_iff (.list "x" [.integer 1, .integer 2]) houtput hget⟩

/-- A method of a list is a function and a field of the same name is data: of two records with one name the column
    has the second alone. -/
theorem batch_column_short :
    ∃ run out values, ofText "y := x.map" RecordStats.standing = .ok run ∧
      Aligned [("x", .list [.list [.integer 1, .integer 2], .record [("map", .integer 5)]])] 2 ∧
      (run.evaluate (Host.caller Host.none 1) none
        [("x", .list [.list [.integer 1, .integer 2], .record [("map", .integer 5)]])]).1 = .ok (.batch out) ∧
      Dict.get? out "y" = some values ∧ values.length = 1 := by
  have gives : (ofText "y := x.map" RecordStats.standing).toOption.any (fun run =>
      (run.evaluate (Host.caller Host.none 1) none
        [("x", .list [.list [.integer 1, .integer 2], .record [("map", .integer 5)]])]).1.toOption.any
          fun output => (output.column? "y").any fun values => values.length == 1) = true := by
    decide +kernel
  obtain ⟨run, h, hrun⟩ := exists_of_any gives
  obtain ⟨output, houtput, hcolumn⟩ := exists_of_any hrun
  obtain ⟨values, hvalues, hlength⟩ := (Option.any_eq_true _ _).mp hcolumn
  obtain ⟨out, rfl, hget⟩ := Output.column?_eq_some.mp hvalues
  exact ⟨run, out, values, h, .list "x" [_, _], houtput, hget, eq_of_beq hlength⟩

end Run
end RecordStats
