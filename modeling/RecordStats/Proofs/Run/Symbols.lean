import RecordStats.Evaluation.Call
import RecordStats.Proofs.Evaluation.Made
import RecordStats.Proofs.Record.Scoping
import RecordStats.Run

/-! The symbols of a record. They are the names that data or an assignment were the last to bind, among the data of
    the record and the definitions of the program's own block; and while the record is evaluated every statement
    sees the bindings in force where it stands, and no others. -/

namespace RecordStats

theorem Value.isFunction_of_isClosure {v : Value} (h : v.isClosure = true) : v.isFunction = true := by
  unfold isClosure at h
  split at h
  · rfl
  · cases h

namespace Run

variable {run : Run} {call : Caller} {tag : Option String} {record : List (String × Value)} {symbols : Symbols}

/-- A record that succeeds has bound the definitions of the program's block, and its symbols are the frame that
    they come to. -/
theorem single_eq_ok (h : (run.single call tag record).1 = .ok symbols) :
    ∃ bound after, Binds call (Scope.root run.standing record) (definitionsOf tag run.program.block) bound after ∧
      after.own.Holds (Bound.ofPairs record ++ bound) ∧ after.dropFunctions.own.bindings = symbols := by
  obtain ⟨after, hafter, hsymbols⟩ := Outcome.map_eq_ok h
  have executed : executeBlock call tag (Scope.root run.standing record) run.program.block run.tree =
      (.ok after, _) := Prod.ext hafter rfl
  obtain ⟨bound, hbound⟩ := executeBlock_binds run.program.block executed
  exact ⟨bound, after, hbound, hbound.holds (Scope.holds_root run.standing record), hsymbols⟩

theorem single_sorted (h : (run.single call tag record).1 = .ok symbols) : Dict.Sorted symbols := by
  obtain ⟨bound, after, -, holds, rfl⟩ := single_eq_ok h
  exact List.Pairwise.filter _ holds.sorted

/-- Which names are symbols is told by the program and the names in the record. -/
theorem names_of_single {other : Run} {record' : List (String × Value)} {symbols' : Symbols}
    (hprogram : other.program = run.program) (hnames : record'.map Prod.fst = record.map Prod.fst)
    (h : (run.single call tag record).1 = .ok symbols) (h' : (other.single call tag record').1 = .ok symbols')
    (name : String) : (∃ v, Dict.get? symbols name = some v) ↔ ∃ v, Dict.get? symbols' name = some v := by
  obtain ⟨bound, after, binds, holds, rfl⟩ := single_eq_ok h
  obtain ⟨bound', after', binds', holds', rfl⟩ := single_eq_ok h'
  rw [hprogram] at binds'
  simp only [Scope.get?_dropFunctions holds, Scope.get?_dropFunctions holds']
  refine Bound.last?_value_iff ?_ name
  rw [List.map_append, List.map_append, binds.kinds binds', Bound.kinds_ofPairs, Bound.kinds_ofPairs, hnames]

/-- The symbols of a record are the names that data or an assignment were the last to bind, with those values. What
    counts are the data and then the definitions of the program's block and of the sources in it that take the
    record, each evaluated after the ones before it. At any depth, each statement that is executed is met in the
    scope that it stands in: a name means there what the last binding in force tells, or what stands for all
    records. -/
theorem symbols_of_single (h : (run.single call tag record).1 = .ok symbols) :
    ∃ bound after, Binds call (Scope.root run.standing record) (definitionsOf tag run.program.block) bound after ∧
      (∀ name v, Dict.get? symbols name = some v ↔
        Bound.last? name (Bound.ofPairs record ++ bound) = some (.value name v)) ∧
      ∀ inner t, Executed call tag (Scope.root run.standing record) run.tree run.program.block inner t →
        ∃ visible, Stands call tag (Scope.root run.standing record) run.program.block visible inner t ∧
          ∀ name, inner.get? name =
            (Bound.meaning? name (Bound.ofPairs record ++ visible)).or (Dict.get? run.standing name) := by
  obtain ⟨bound, after, binds, holds, rfl⟩ := single_eq_ok h
  refine ⟨bound, after, binds, Scope.get?_dropFunctions holds, fun inner t executed => ?_⟩
  obtain ⟨visible, stands⟩ := executed.stands
  refine ⟨visible, stands, fun name => ?_⟩
  rw [stands.get?, Scope.get?_root, Bound.meaning?_append, Option.or_assoc]

theorem symbols_of_single_nested :
    ∃ run symbols,
      ofText "f(a) := a; y := f(x); region 'r' \x7b y := 0; sum 's' y \x7d; for x in xs \x7b z := x \x7d; source 'A*' \x7b w := y \x7d"
        RecordStats.standing = .ok run ∧
      (run.single (Host.caller Host.none 2) (some "AB") [("x", .integer 1), ("xs", .list [.integer 5])]).1 = .ok symbols ∧
      ∃ bound after, Binds (Host.caller Host.none 2)
          (Scope.root run.standing [("x", .integer 1), ("xs", .list [.integer 5])])
          (definitionsOf (some "AB") run.program.block) bound after ∧
        ∀ name v, Dict.get? symbols name = some v ↔
          Bound.last? name (Bound.ofPairs [("x", .integer 1), ("xs", .list [.integer 5])] ++ bound) =
            some (.value name v) := by
  have succeeds : (ofText
      "f(a) := a; y := f(x); region 'r' \x7b y := 0; sum 's' y \x7d; for x in xs \x7b z := x \x7d; source 'A*' \x7b w := y \x7d"
      RecordStats.standing).toOption.any (fun run => (run.single (Host.caller Host.none 2) (some "AB")
        [("x", .integer 1), ("xs", .list [.integer 5])]).1.toOption.any fun _ => true) = true := by
    decide +kernel
  obtain ⟨run, h, hrun⟩ := exists_of_any succeeds
  obtain ⟨symbols, hsymbols, -⟩ := exists_of_any hrun
  obtain ⟨bound, after, binds, last, -⟩ := symbols_of_single hsymbols
  exact ⟨run, symbols, h, hsymbols, bound, after, binds, last⟩

/-! ### Functions among the symbols -/

/-- When a record holds no functions, the functions among its symbols are those that an assignment was the last to
    bind, wherever they come from. So the program's own functions are left out just when no name is last bound to
    one of them by an assignment. -/
theorem function_of_symbols_iff (hr : ∀ d ∈ record, d.2.isFunction = false)
    (h : (run.single call tag record).1 = .ok symbols) :
    ∃ bound after, Binds call (Scope.root run.standing record) (definitionsOf tag run.program.block) bound after ∧
      (∀ name v, v.isFunction = true →
        (Dict.get? symbols name = some v ↔ Bound.last? name bound = some (.value name v))) ∧
      ((∀ name v, Dict.get? symbols name = some v → v.isClosure = false) ↔
        ∀ name v, Bound.last? name bound = some (.value name v) → v.isClosure = false) := by
  obtain ⟨bound, after, binds, holds, rfl⟩ := single_eq_ok h
  have functions : ∀ name v, v.isFunction = true →
      (Dict.get? after.dropFunctions.own.bindings name = some v ↔
        Bound.last? name bound = some (.value name v)) := by
    intro name v hv
    have notData : Bound.last? name (Bound.ofPairs record) ≠ some (.value name v) := by
      intro hlast
      obtain ⟨d, hd, heq⟩ := List.mem_map.mp (Bound.mem_of_last? hlast)
      obtain ⟨-, rfl⟩ := Bound.value.inj heq
      rw [hr d hd] at hv
      cases hv
    rw [Scope.get?_dropFunctions holds, Bound.last?_append]
    cases Bound.last? name bound with
    | none => simp [notData]
    | some b => simp
  refine ⟨bound, after, binds, functions, forall_congr' fun name => forall_congr' fun v => ?_⟩
  cases hv : v.isClosure with
  | false => exact iff_of_true (fun _ => rfl) fun _ => rfl
  | true => rw [functions name v (Value.isFunction_of_isClosure hv)]

theorem function_of_symbols_iff_alias :
    ∃ run symbols, ofText "f(a) := a; g := f" RecordStats.standing = .ok run ∧
      (run.single (Host.caller Host.none 1) none [("x", .integer 7)]).1 = .ok symbols ∧
      ∃ bound after, Binds (Host.caller Host.none 1) (Scope.root run.standing [("x", .integer 7)])
          (definitionsOf none run.program.block) bound after ∧
        ∀ name v, v.isFunction = true →
          (Dict.get? symbols name = some v ↔ Bound.last? name bound = some (.value name v)) := by
  have succeeds : (ofText "f(a) := a; g := f" RecordStats.standing).toOption.any (fun run =>
      (run.single (Host.caller Host.none 1) none [("x", .integer 7)]).1.toOption.any fun _ => true) = true := by
    decide +kernel
  obtain ⟨run, h, hrun⟩ := exists_of_any succeeds
  obtain ⟨symbols, hsymbols, -⟩ := exists_of_any hrun
  obtain ⟨bound, after, binds, functions, -⟩ :=
    function_of_symbols_iff (List.forall_mem_singleton.mpr rfl) hsymbols
  exact ⟨run, symbols, h, hsymbols, bound, after, binds, functions⟩

/-- A second name for a function of the program is a symbol, although the record holds no functions. -/
theorem closure_among_symbols :
    ∃ run symbols, ofText "f(a) := a; g := f" RecordStats.standing = .ok run ∧
      (run.single (Host.caller Host.none 1) none [("x", .integer 7)]).1 = .ok symbols ∧
      ∃ v, Dict.get? symbols "g" = some v ∧ v.isClosure = true := by
  have leaks : (ofText "f(a) := a; g := f" RecordStats.standing).toOption.any (fun run =>
      (run.single (Host.caller Host.none 1) none [("x", .integer 7)]).1.toOption.any fun symbols =>
        (Dict.get? symbols "g").any Value.isClosure) = true := by
    decide +kernel
  obtain ⟨run, h, hrun⟩ := exists_of_any leaks
  obtain ⟨symbols, hsymbols, hclosure⟩ := exists_of_any hrun
  obtain ⟨v, hv, hmade⟩ := (Option.any_eq_true _ _).mp hclosure
  exact ⟨run, symbols, h, hsymbols, v, hv, hmade⟩

end Run
end RecordStats
