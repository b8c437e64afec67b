import RecordStats.Evaluation.Call
import RecordStats.Proofs.Record.Growth
import RecordStats.Proofs.Run.Reachable

/-! Totals over whole runs. As long as no collector has a weight below zero, a total gets lower only when the run is
    cleared, and of every fraction the part that passed stays within the whole. -/

namespace RecordStats
namespace Run

/-! ### Operations and their weights -/

/-- While the record is evaluated no collector has a weight below zero. -/
def WeighedRecord (a : Run) (call : Caller) (tag : Option String) (record : List (String × Value)) : Prop :=
  Weighed call tag (Scope.root a.standing record) a.tree a.program.block

/-- No collector has a weight below zero in the records up to the first one that fails. -/
def WeighedBatch (call : Caller) (tag : Option String) : Run → List (List (String × Value)) → Prop
  | _, [] => True
  | a, record :: rest => a.WeighedRecord call tag record ∧
      ∀ symbols left, a.single call tag record = (.ok symbols, left) → WeighedBatch call tag left rest

/-- No collector has a weight below zero in any of the records, whether they fail or not. -/
def WeighedEach (call : Caller) (tag : Option String) : Run → List (List (String × Value)) → Prop
  | _, [] => True
  | a, record :: rest =>
    a.WeighedRecord call tag record ∧ WeighedEach call tag (a.single call tag record).2 rest

/-- What a run is used for, apart from being cleared. -/
inductive Operation where
  | single (record : List (String × Value))
  | evaluate (columns : List (String × Value))
  | iterate (columns : List (String × Value)) (most : Nat)

namespace Operation

/-- The run after an operation, however that has ended. -/
def apply (call : Caller) (tag : Option String) (a : Run) : Operation → Run
  | single record => (a.single call tag record).2
  | evaluate columns => (a.evaluate call tag columns).2
  | iterate columns most => (a.iterate call tag columns most).2

/-- During the operation no collector has a weight below zero. -/
def Weighed (call : Caller) (tag : Option String) (a : Run) : Operation → Prop
  | single record => a.WeighedRecord call tag record
  | evaluate columns => WeighedBatch call tag a (Plan.ofColumns columns).records
  | iterate columns most => WeighedEach call tag a ((Plan.ofColumns columns).records.take most)

end Operation

/-- The states that a run comes to while no collector has a weight below zero. -/
inductive ReachesWeighed (run : Run) : Run → Prop where
  | refl : ReachesWeighed run run
  | operation {a : Run} (before : ReachesWeighed run a) {call : Caller} {tag : Option String} {op : Operation}
      (weighed : op.Weighed call tag a) : ReachesWeighed run (op.apply call tag a)
  | clear {a : Run} (before : ReachesWeighed run a) : ReachesWeighed run a.clear

variable {a run : Run} {call : Caller} {tag : Option String}

theorem ReachesWeighed.reaches (h : run.ReachesWeighed a) : run.Reaches a := by
  induction h with
  | refl => exact .refl
  | @operation a before call tag op weighed ih =>
    cases op with
    | single record => exact ih.single call tag record
    | evaluate columns => exact ih.evaluate call tag columns
    | iterate columns most => exact ih.iterate call tag columns most
  | clear before ih => exact ih.clear

/-! ### Growth -/

theorem single_grows {record : List (String × Value)} (h : a.WeighedRecord call tag record) :
    Grows a.tree.held (a.single call tag record).2.tree.held :=
  executeBlock_grows a.program.block h

theorem batch_grows {records : List (List (String × Value))} {columns : Dict (List Value)}
    (h : WeighedBatch call tag a records) : Grows a.tree.held (a.batch call tag columns records).2.tree.held := by
  induction records generalizing a columns with
  | nil => exact .refl _
  | cons record rest ih =>
    obtain ⟨weighed, others⟩ := h
    have first := single_grows weighed
    rw [batch]
    cases hs : a.single call tag record with
    | mk o left =>
      rw [hs] at first
      cases o with
      | error stop => exact first
      | ok symbols => exact first.trans (ih (others symbols left hs))

theorem each_grows {records : List (List (String × Value))} (h : WeighedEach call tag a records) :
    Grows a.tree.held (a.each call tag records).2.tree.held := by
  induction records generalizing a with
  | nil => exact .refl _
  | cons record rest ih =>
    rw [each]
    exact (single_grows h.1).trans (ih h.2)

/-- An operation lowers no total, however it ends. -/
theorem Operation.apply_grows {op : Operation} (h : op.Weighed call tag a) :
    Grows a.tree.held (op.apply call tag a).tree.held := by
  cases op with
  | single record => exact single_grows h
  | evaluate columns =>
    rw [Weighed] at h
    rw [apply, Run.evaluate]
    split
    · exact .refl _
    · next record hplan =>
      rw [hplan] at h
      exact single_grows h.1
    · next records hplan =>
      rw [hplan] at h
      exact batch_grows h
  | iterate columns most =>
    rw [apply, Run.iterate]
    split
    · exact .refl _
    · exact each_grows h

variable {text : String} {standing : Dict Value}

/-- A new run has no totals below zero. -/
theorem proper_of_ofText (h : ofText text standing = .ok run) : ∀ s ∈ run.tree.held, s.2.Proper := by
  intro s hs
  rw [Namespace.held, ← emptied_of_ofText h, Node.nodesOfChildren_emptied, Node.storages_emptied] at hs
  obtain ⟨t, -, rfl⟩ := List.mem_map.mp hs
  exact t.2.proper_zero

theorem ReachesWeighed.proper (h : ofText text standing = .ok run) (ha : run.ReachesWeighed a) :
    ∀ s ∈ a.tree.held, s.2.Proper := by
  induction ha with
  | refl => exact proper_of_ofText h
  | operation before weighed ih => exact ((Operation.apply_grows weighed).of_proper ih).1
  | clear before ih =>
    rw [(before.reaches.alike h).clear_eq h]
    exact proper_of_ofText h

/-- In a run whose collectors have no weights below zero the tree keeps its storages, and no operation but clearing
    makes a total of weights lower. The part of a fraction that passed is not negative, and no more than the whole. -/
theorem growsTo_of_reachesWeighed (h : ofText text standing = .ok run) (ha : run.ReachesWeighed a) :
    (∀ call tag op, Operation.Weighed call tag a op →
      List.Forall₂ (fun s t => s.1 = t.1 ∧ s.2.GrowsTo t.2) a.tree.held (op.apply call tag a).tree.held) ∧
    ∀ path e f, (path, Storage.fraction e f) ∈ a.tree.held → 0 ≤ f.numerw ∧ f.numerw ≤ f.denomw := by
  have proper := ha.proper h
  refine ⟨fun call tag op weighed => ((Operation.apply_grows weighed).of_proper proper).2, fun path e f held => ?_⟩
  obtain ⟨nonneg, part⟩ := proper _ held
  exact ⟨nonneg, part⟩

theorem growsTo_of_reachesWeighed_fraction :
    ∃ run, ofText "fraction 'f' x > 1" RecordStats.standing = .ok run ∧
      Operation.Weighed (Host.caller Host.none 1) none run (.single [("x", .float 2)]) ∧
      List.Forall₂ (fun s t => s.1 = t.1 ∧ s.2.GrowsTo t.2) run.tree.held
        (run.single (Host.caller Host.none 1) none [("x", .float 2)]).2.tree.held ∧
      ∀ path e f,
        (path, Storage.fraction e f) ∈ (run.single (Host.caller Host.none 1) none [("x", .float 2)]).2.tree.held →
          0 ≤ f.numerw ∧ f.numerw ≤ f.denomw := by
  have accepted : (ofText "fraction 'f' x > 1" RecordStats.standing).toOption.any
      (fun run => run.program.block.all Statement.isUnweighted) = true := by decide +kernel
  obtain ⟨run, h, unweighted⟩ := exists_of_any accepted
  have weighed : run.WeighedRecord (Host.caller Host.none 1) none [("x", .float 2)] := .of_unweighted unweighted
  have after : run.ReachesWeighed (Operation.apply (Host.caller Host.none 1) none run (.single [("x", .float 2)])) :=
    .operation .refl weighed
  exact ⟨run, h, weighed, (growsTo_of_reachesWeighed h .refl).1 _ none (.single [("x", .float 2)]) weighed,
    (growsTo_of_reachesWeighed h after).2⟩

end Run
end RecordStats
