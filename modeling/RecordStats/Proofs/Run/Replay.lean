import RecordStats.Proofs.Record.Interruption
import RecordStats.Proofs.Record.Reach
import RecordStats.Proofs.Run.Shape

/-! One record in two states. What a record gives and what it fills depends on the program and the record alone,
    so any two states of a run take it alike; and in each the tree changes by those fills and by nothing else. Each
    storage gets the fills under its own name, in their order. -/

namespace RecordStats
namespace Run

variable {text : String} {standing : Dict Value} {run a b : Run}

/-- A record does to a run what its trace tells. -/
theorem Alike.performs (h : Alike a b) (call : Caller) (tag : Option String) (record : List (String × Value)) :
    a.trace call tag record = b.trace call tag record := by
  obtain ⟨hprogram, hstanding, htree⟩ := h
  have blind : ∀ tree, runBlock call tag [] (Node.emptiedChildren tree) (Scope.root a.standing record) a.program.block =
      runBlock call tag [] tree (Scope.root a.standing record) a.program.block := fun tree =>
    (executeBlock_performs (Scope.root a.standing record) a.program.block tree).blind []
  have left := blind a.tree
  rw [htree, blind] at left
  rw [trace, trace, ← hstanding, ← hprogram, left]

theorem single_outcome (a : Run) (call : Caller) (tag : Option String) (record : List (String × Value)) :
    (a.single call tag record).1 =
      (a.trace call tag record).outcome.map fun scope => scope.dropFunctions.own.bindings :=
  congrArg (Except.map _) ((executeBlock_performs (Scope.root a.standing record) a.program.block a.tree).outcome [])

theorem single_tree (hp : Node.Placed [] (.namespace [] a.tree)) (call : Caller) (tag : Option String)
    (record : List (String × Value)) :
    (a.single call tag record).2 = { a with tree := a.tree.fillAll (a.trace call tag record).fills } := by
  have fills : (executeBlock call tag (Scope.root a.standing record) a.program.block a.tree).2 =
      a.tree.fillAll (a.trace call tag record).fills :=
    (executeBlock_performs (Scope.root a.standing record) a.program.block a.tree).fills ⟨[], hp.2.2⟩
  exact congrArg (fun tree => { a with tree := tree }) fills

/-- A record gives the same in any two states of a run: the same symbols or the same failure, by the same fills
    in the same order. In each state the tree afterwards is the tree before with exactly those fills; and if the
    record fails, they are the fills that were made before the statement or the turn that fails. -/
theorem single_of_reaches (hs : Text.Storable text) (h : ofText text standing = .ok run) (ha : run.Reaches a)
    (hb : run.Reaches b) (call : Caller) (tag : Option String) (record : List (String × Value)) :
    ∃ fills,
      (a.single call tag record).1 = (b.single call tag record).1 ∧
      (a.trace call tag record).fills = fills ∧ (b.trace call tag record).fills = fills ∧
      (a.single call tag record).2 = { a with tree := a.tree.fillAll fills } ∧
      (b.single call tag record).2 = { b with tree := b.tree.fillAll fills } ∧
      ∀ stop, (a.single call tag record).1 = .error stop →
        Interrupted call tag [] run.tree (Scope.root standing record) run.program.block fills stop := by
  have same := ((ha.alike h).trans (hb.alike h).symm).performs call tag record
  have new := (ha.alike h).performs call tag record
  refine ⟨(run.trace call tag record).fills, ?_, by rw [new], by rw [← same, new], ?_, ?_, fun stop hstop => ?_⟩
  · rw [single_outcome, single_outcome, same]
  · rw [single_tree ((ha.alike h).placed hs h), new]
  · rw [single_tree ((hb.alike h).placed hs h), ← same, new]
  · rw [single_outcome, new, trace, (ofText_eq_ok h).2.2] at hstop
    rw [trace, (ofText_eq_ok h).2.2]
    refine runBlock_interrupted _ ?_
    cases hrun : (runBlock call tag [] run.tree (Scope.root standing record) run.program.block).outcome with
    | error other =>
      rw [hrun] at hstop
      cases hstop
      rfl
    | ok scope =>
      rw [hrun] at hstop
      cases hstop

theorem single_of_reaches_failing :
    ∃ run, ofText "count 'n'; sum 's' x" RecordStats.standing = .ok run ∧
      (run.single (Host.caller Host.none 1) none []).1 =
        ((run.single (Host.caller Host.none 1) none []).2.single (Host.caller Host.none 1) none []).1 := by
  have accepted : (ofText "count 'n'; sum 's' x" RecordStats.standing).isOk = true := by
    decide +kernel
  obtain ⟨run, h⟩ := exists_of_isOk accepted
  obtain ⟨-, same, -⟩ := single_of_reaches (by decide) h .refl (.single .refl (Host.caller Host.none 1) none [])
    (Host.caller Host.none 1) none []
  exact ⟨run, h, same⟩

end Run

/-! ### Storages -/

/-- A storage is what its name leads to. -/
theorem Namespace.lookup_storage {tree : Namespace} (hp : Node.Placed [] (.namespace [] tree)) {path : Path}
    {content : Storage} (h : (path, content) ∈ Node.storages (Node.nodesOfChildren tree)) :
    tree.lookup path = .ok (.storage path content) :=
  lookup_name hp.2.1 hp.2.2 (Node.mem_storages.mp h)

namespace Run

variable {a : Run} {call : Caller} {tag : Option String} {record : List (String × Value)}

theorem mem_leafNames_of_trace (hp : Node.Placed [] (.namespace [] a.tree)) {f : Fill}
    (hf : f ∈ (a.trace call tag record).fills) : f.path ∈ a.tree.leafNames :=
  mem_leafNames_of_fills hp.2.2 hf

theorem storages_single (hp : Node.Placed [] (.namespace [] a.tree)) (call : Caller) (tag : Option String)
    (record : List (String × Value)) :
    Node.storages (Node.nodesOfChildren (a.single call tag record).2.tree) =
      (Node.storages (Node.nodesOfChildren a.tree)).map fun s =>
        (s.1, s.2.fillAll ((a.trace call tag record).fills.filter fun f => f.path = s.1)) := by
  rw [single_tree hp]
  exact Namespace.storages_fillAll hp fun f hf => mem_leafNames_of_trace hp hf

end Run
end RecordStats
