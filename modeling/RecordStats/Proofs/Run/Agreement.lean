import RecordStats.Proofs.Run.Columns
import RecordStats.Proofs.Run.Records

/-! Evaluating columns and iterating over them agree. An iteration gives the result of each record when it is asked
    for; an evaluation goes as far as the first failure, and gathers what the records before it have come to. -/

namespace RecordStats

/-! ### Asking for results -/

namespace Iteration

variable {call : Caller}

theorem next_empty {it : Iteration} (h : it.plan = .empty) :
    it.next call = (if it.asked = 0 then some (.ok []) else none, { it with asked := it.asked + 1 }) := by
  rw [next, h]

theorem next_records {it : Iteration} (h : it.plan ≠ .empty) :
    it.next call =
      match it.plan.records[it.asked]? with
      | some record => (some (it.run.single call it.tag record).1,
          { it with run := (it.run.single call it.tag record).2, asked := it.asked + 1 })
      | none => (none, { it with asked := it.asked + 1 }) := by
  rw [next]
  split
  · next hplan => exact absurd hplan h
  · rfl

theorem take_succ (it : Iteration) (most : Nat) :
    it.take call (most + 1) =
      ((it.next call).1.toList ++ ((it.next call).2.take call most).1, ((it.next call).2.take call most).2) := rfl

/-- Asking without data gives an empty result at first, and nothing more. -/
theorem take_empty (it : Iteration) (h : it.plan = .empty) (most : Nat) :
    it.take call most =
      (if it.asked = 0 then [(.ok [] : Outcome Symbols)].take most else [],
        { it with asked := it.asked + most }) := by
  induction most generalizing it with
  | zero =>
    rw [List.take_zero, ite_self]
    rfl
  | succ most ih =>
    have rest := ih { it with asked := it.asked + 1 } h
    rw [if_neg (Nat.succ_ne_zero _)] at rest
    rw [take_succ, next_empty h, rest, Nat.add_right_comm, ← Nat.add_assoc]
    by_cases hasked : it.asked = 0 <;> simp [hasked]

/-- Asking is the same as evaluating the records whose turn it is. -/
theorem take_records (it : Iteration) (h : it.plan ≠ .empty) (most : Nat) :
    it.take call most =
      ((it.run.each call it.tag ((it.plan.records.drop it.asked).take most)).1,
        { it with
          run := (it.run.each call it.tag ((it.plan.records.drop it.asked).take most)).2
          asked := it.asked + most }) := by
  induction most generalizing it with
  | zero => rfl
  | succ most ih =>
    rw [take_succ, next_records h]
    cases hrecord : it.plan.records[it.asked]? with
    | none =>
      have past : it.plan.records.length ≤ it.asked := List.getElem?_eq_none_iff.mp hrecord
      have exhausted : it.plan.records.drop it.asked = [] := List.drop_eq_nil_of_le past
      have still : it.plan.records.drop (it.asked + 1) = [] := List.drop_eq_nil_of_le (Nat.le_succ_of_le past)
      have rest := ih { it with asked := it.asked + 1 } h
      simp only [still, List.take_nil] at rest
      rw [rest, exhausted, List.take_nil, Nat.add_right_comm, ← Nat.add_assoc]
      rfl
    | some record =>
      have first : it.plan.records.drop it.asked = record :: it.plan.records.drop (it.asked + 1) := by
        rw [List.drop_eq_getElem?_toList_append, hrecord]
        rfl
      have rest := ih { it with run := (it.run.single call it.tag record).2, asked := it.asked + 1 } h
      rw [rest, first, List.take_succ_cons, Run.each_cons, Nat.add_right_comm, ← Nat.add_assoc]
      rfl

end Iteration

namespace Run

variable {run : Run} {call : Caller} {tag : Option String} {columns : List (String × Value)} {n : Nat}

/-- Iterating is asking an iteration so many times. -/
theorem iterate_eq_take (run : Run) (call : Caller) (tag : Option String) (columns : List (String × Value))
    (most : Nat) :
    run.iterate call tag columns most =
      (((Iteration.ofColumns run tag columns).take call most).1,
        ((Iteration.ofColumns run tag columns).take call most).2.run) := by
  rw [iterate]
  split
  · next hplan =>
    rw [Iteration.take_empty _ hplan]
    rfl
  · next plan hplan =>
    rw [Iteration.take_records _ hplan]
    rfl

theorem iterate_of_aligned (h : Aligned columns n) (most : Nat) :
    run.iterate call tag columns most =
      ((List.range (min most n)).map (run.resultAt call tag (recordAt columns)),
        run.after call tag (recordAt columns) (min most n)) := by
  rw [iterate, Plan.ofColumns_of_aligned h]
  show run.each call tag (((List.range n).map (recordAt columns)).take most) = _
  rw [← List.map_take, List.take_range, each_range]

theorem evaluate_of_aligned (h : Aligned columns n) :
    run.evaluate call tag columns =
      ((run.batch call tag [] ((List.range n).map (recordAt columns))).1.map .batch,
        (run.batch call tag [] ((List.range n).map (recordAt columns))).2) := by
  rw [evaluate, Plan.ofColumns_of_aligned h]

/-- How evaluating and iterating agree over columns of `n` records. -/
structure RecordByRecord (run : Run) (call : Caller) (tag : Option String) (columns : List (String × Value))
    (n : Nat) : Prop where
  /-- Iterating gives the results of one record after another, and goes on after a failure. -/
  iterates : ∀ most, run.iterate call tag columns most =
    ((List.range (min most n)).map (run.resultAt call tag (recordAt columns)),
      run.after call tag (recordAt columns) (min most n))
  /-- An evaluation succeeds when every record does, and gathers their symbols. -/
  succeeds : ∀ output, (run.evaluate call tag columns).1 = .ok output →
    ∃ items out, output = .batch out ∧ Gathers out items ∧
      run.iterate call tag columns n = (items.map .ok, (run.evaluate call tag columns).2)
  /-- An evaluation fails with the first record that fails, and leaves what has been filled until then. -/
  fails : ∀ stop, (run.evaluate call tag columns).1 = .error stop →
    ∃ k < n, ∃ items : List Symbols, (run.iterate call tag columns k).1 = items.map .ok ∧
      run.iterate call tag columns (k + 1) = (items.map .ok ++ [.error stop], (run.evaluate call tag columns).2)

theorem recordByRecord_of_aligned (h : Aligned columns n) : run.RecordByRecord call tag columns n where
  iterates := iterate_of_aligned h
  succeeds := fun output hok => by
    rw [evaluate_of_aligned h] at hok
    obtain ⟨out, hbatch, rfl⟩ := Outcome.map_eq_ok hok
    obtain ⟨items, heach, gathers⟩ := batch_gathers (Prod.ext hbatch rfl)
    refine ⟨items, out, rfl, gathers, ?_⟩
    rw [iterate_of_aligned h, Nat.min_self, ← each_range, heach, evaluate_of_aligned h]
  fails := fun stop herror => by
    rw [evaluate_of_aligned h] at herror
    obtain ⟨k, hk, items, hearlier, heach⟩ := batch_eq_error (Prod.ext (Outcome.map_eq_error herror) rfl)
    rw [List.length_map, List.length_range] at hk
    rw [← List.map_take, List.take_range, Nat.min_eq_left (Nat.le_of_lt hk)] at hearlier
    rw [← List.map_take, List.take_range, Nat.min_eq_left hk] at heach
    refine ⟨k, hk, items, ?_, ?_⟩
    · rw [iterate_of_aligned h, Nat.min_eq_left (Nat.le_of_lt hk), ← each_range, hearlier]
    · rw [iterate_of_aligned h, Nat.min_eq_left hk, ← each_range, heach, evaluate_of_aligned h]

/-- Evaluating columns and iterating over them agree, and iterating is asking for one result after another. Data
    that are sequences of one length are taken record by record; other data are one record as they are; and without
    data nothing is evaluated. -/
theorem evaluate_agrees_iterate (run : Run) (call : Caller) (tag : Option String)
    (columns : List (String × Value)) :
    (∀ most, run.iterate call tag columns most =
      (((Iteration.ofColumns run tag columns).take call most).1,
        ((Iteration.ofColumns run tag columns).take call most).2.run)) ∧
    (∀ n, Aligned columns n → run.RecordByRecord call tag columns n) ∧
    ((∃ c ∈ columns, c.2.isFunction = false) → (∀ n, ¬ Aligned columns n) →
      run.evaluate call tag columns =
        ((run.single call tag columns).1.map .single, (run.single call tag columns).2) ∧
      ∀ most, run.iterate call tag columns (most + 1) =
        ([(run.single call tag columns).1], (run.single call tag columns).2)) ∧
    ((∀ c ∈ columns, c.2.isFunction = true) →
      run.evaluate call tag columns = (.ok (.batch []), run) ∧
      ∀ most, run.iterate call tag columns most = ([(.ok [] : Outcome Symbols)].take most, run)) := by
  refine ⟨run.iterate_eq_take call tag columns, fun n => recordByRecord_of_aligned, ?_, ?_⟩
  · intro hdata unaligned
    have plan := Plan.ofColumns_of_not_aligned hdata unaligned
    refine ⟨by rw [evaluate, plan], fun most => ?_⟩
    rw [iterate, plan]
    show run.each call tag ([columns].take (most + 1)) = _
    rw [List.take_succ_cons, List.take_nil]
    rfl
  · intro functions
    have plan := Plan.ofColumns_of_functions functions
    exact ⟨by rw [evaluate, plan], fun most => by rw [iterate, plan]⟩

/-- One of three records fails: what has been filled until then stays. -/
theorem evaluate_agrees_iterate_failing :
    ∃ run k, ofText "count 'n'; y := -x" RecordStats.standing = .ok run ∧ k < 3 ∧
      ∃ items : List Symbols, ∃ stop,
        run.iterate (Host.caller Host.none 1) none [("x", .list [.integer 1, .null, .integer 3])] (k + 1) =
          (items.map .ok ++ [.error stop],
            (run.evaluate (Host.caller Host.none 1) none [("x", .list [.integer 1, .null, .integer 3])]).2) := by
  have fails : (ofText "count 'n'; y := -x" RecordStats.standing).toOption.any (fun run =>
      !(run.evaluate (Host.caller Host.none 1) none
        [("x", .list [.integer 1, .null, .integer 3])]).1.isOk) = true := by
    decide +kernel
  obtain ⟨run, h, hrun⟩ := exists_of_any fails
  obtain ⟨-, records, -, -⟩ := evaluate_agrees_iterate run (Host.caller Host.none 1) none
    [("x", .list [.integer 1, .null, .integer 3])]
  have agree := records 3 (.list "x" [.integer 1, .null, .integer 3])
  cases hresult : (run.evaluate (Host.caller Host.none 1) none
      [("x", .list [.integer 1, .null, .integer 3])]).1 with
  | ok output =>
    rw [hresult] at hrun
    cases hrun
  | error stop =>
    obtain ⟨k, hk, items, -, heach⟩ := agree.fails stop hresult
    exact ⟨run, k, h, hk, items, stop, heach⟩

end Run
end RecordStats
