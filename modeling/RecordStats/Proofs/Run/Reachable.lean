import RecordStats.Evaluation.Call
import RecordStats.Proofs.Record.Simulation
import RecordStats.Proofs.Tree.Built
import RecordStats.Run

/-! Runs in use. A run goes on by records, one at a time or from columns of data, and by being cleared. It keeps
    its program and its standing bindings, and its tree keeps the structure that the program has declared.

    A run is cleared by copying its filled tree, while a new run walks over its program; both come to the same tree. So a
    cleared run is the new run of its text, and goes on as that one does. -/

namespace RecordStats
namespace Run

/-- The states that a run can come to, whatever records it is given and however they end. -/
inductive Reaches (run : Run) : Run → Prop where
  | refl : Reaches run run
  | single {a : Run} (before : Reaches run a) (call : Caller) (tag : Option String)
      (record : List (String × Value)) : Reaches run (a.single call tag record).2
  | evaluate {a : Run} (before : Reaches run a) (call : Caller) (tag : Option String)
      (columns : List (String × Value)) : Reaches run (a.evaluate call tag columns).2
  | iterate {a : Run} (before : Reaches run a) (call : Caller) (tag : Option String)
      (columns : List (String × Value)) (most : Nat) : Reaches run (a.iterate call tag columns most).2
  | clear {a : Run} (before : Reaches run a) : Reaches run a.clear

/-- Two runs of one program whose trees have the same structure. -/
structure Alike (a b : Run) : Prop where
  program : a.program = b.program
  standing : a.standing = b.standing
  tree : Node.emptiedChildren a.tree = Node.emptiedChildren b.tree

variable {a b c : Run} {call : Caller} {tag : Option String}

theorem Alike.refl (a : Run) : Alike a a := ⟨rfl, rfl, rfl⟩

theorem Alike.symm (h : Alike a b) : Alike b a := ⟨h.program.symm, h.standing.symm, h.tree.symm⟩

theorem Alike.trans (h : Alike a b) (h' : Alike b c) : Alike a c :=
  ⟨h.program.trans h'.program, h.standing.trans h'.standing, h.tree.trans h'.tree⟩

/-! ### Steps -/

theorem single_alike (a : Run) (record : List (String × Value)) : Alike (a.single call tag record).2 a where
  program := rfl
  standing := rfl
  tree := (executeBlock_performs (Scope.root a.standing record) a.program.block a.tree).shape

theorem batch_alike (a : Run) (columns : Dict (List Value)) (records : List (List (String × Value))) :
    Alike (a.batch call tag columns records).2 a := by
  induction records generalizing a columns with
  | nil => exact .refl a
  | cons record rest ih =>
    have first : Alike (a.single call tag record).2 a := single_alike a record
    rw [batch]
    rcases hs : a.single call tag record with ⟨_ | symbols, next⟩
    · rw [hs] at first
      exact first
    · rw [hs] at first
      exact (ih next _).trans first

theorem evaluate_alike (a : Run) (columns : List (String × Value)) : Alike (a.evaluate call tag columns).2 a := by
  rw [evaluate]
  split
  · exact .refl a
  · exact single_alike a _
  · exact batch_alike a _ _

theorem each_alike (a : Run) (records : List (List (String × Value))) : Alike (a.each call tag records).2 a := by
  induction records generalizing a with
  | nil => exact .refl a
  | cons record rest ih =>
    rw [each]
    exact (ih _).trans (single_alike a record)

theorem iterate_alike (a : Run) (columns : List (String × Value)) (most : Nat) :
    Alike (a.iterate call tag columns most).2 a := by
  rw [iterate]
  split
  · exact .refl a
  · exact each_alike a _

/-! ### Whole runs -/

variable {text : String} {standing : Dict Value} {run : Run}

theorem ofText_eq_ok (h : ofText text standing = .ok run) :
    Program.ofText text = .ok run.program ∧ run.program.tree = .ok run.tree ∧ run.standing = standing := by
  unfold ofText at h
  split at h
  · cases h
  · next program hprogram =>
    split at h
    · cases h
    · next tree htree =>
      cases h
      exact ⟨hprogram, htree, rfl⟩

theorem ofText_of_tree {p : Program} {tree : Namespace} (h : Program.ofText text = .ok p) (htree : p.tree = .ok tree) :
    ofText text standing = .ok ⟨p, standing, tree⟩ := by
  rw [ofText, h]
  simp only [htree]

theorem exists_of_isOk (h : (ofText text standing).isOk = true) : ∃ run, ofText text standing = .ok run := by
  cases hrun : ofText text standing with
  | error e =>
    rw [hrun] at h
    cases h
  | ok run => exact ⟨run, rfl⟩

/-- A new run has no entries. -/
theorem emptied_of_ofText (h : ofText text standing = .ok run) : Node.emptiedChildren run.tree = run.tree := by
  obtain ⟨-, htree, -⟩ := ofText_eq_ok h
  have copy := Node.emptied_childrenLike [] run.tree
  rwa [Program.childrenLike_tree htree] at copy

/-- Clearing a run like a new one gives the new one. -/
theorem Alike.clear_eq (h : ofText text standing = .ok run) (ha : Alike a run) : a.clear = run := by
  obtain ⟨-, htree, -⟩ := ofText_eq_ok h
  have copied : Node.childrenLike [] a.tree = run.tree := by
    rw [← Node.childrenLike_emptied, ha.tree, emptied_of_ofText h, Program.childrenLike_tree htree]
  obtain ⟨program, standing, tree⟩ := a
  obtain rfl := ha.program
  obtain rfl := ha.standing
  rw [clear, copied]

/-- However a run goes on, it stays like the new one. -/
theorem Reaches.alike (h : ofText text standing = .ok run) (ha : run.Reaches a) : Alike a run := by
  induction ha with
  | refl => exact .refl run
  | single before call tag record ih => exact (single_alike _ record).trans ih
  | evaluate before call tag columns ih => exact (evaluate_alike _ columns).trans ih
  | iterate before call tag columns most ih => exact (iterate_alike _ columns most).trans ih
  | clear before ih =>
    rw [ih.clear_eq h]
    exact .refl run

/-! ### Clearing -/

/-- Clearing a run in any state gives the run as it was new. Every node of any state, copied under its own name,
    is the node without its entries, and copying a copy changes nothing. -/
theorem clear_of_reaches {text : String} {standing : Dict Value} {run a : Run} (h : ofText text standing = .ok run)
    (ha : run.Reaches a) :
    a.clear = run ∧
      (∀ n ∈ Node.nodesOfChildren a.tree, n.zerosLike n.name = n.emptied) ∧
      ∀ (n : Node) (name : Path), (n.zerosLike name).zerosLike name = n.zerosLike name := by
  have alike := ha.alike h
  refine ⟨alike.clear_eq h, fun n hn => ?_, fun n name => Node.zerosLike_zerosLike name name n⟩
  have declared : n.emptied ∈ Node.nodesOfChildren run.tree := by
    rw [← emptied_of_ofText h, ← alike.tree, Node.nodesOfChildren_emptied]
    exact List.mem_map_of_mem hn
  have copied := Program.zerosLike_of_mem_tree (ofText_eq_ok h).2.1 declared
  rwa [Node.zerosLike_emptied, Node.name_emptied] at copied

theorem clear_of_reaches_binned :
    ∃ run, ofText "count 'n' by regular(2, 0, 1) <- x" RecordStats.standing = .ok run ∧
      (run.single (Host.caller Host.none 1) none [("x", .float 0)]).2.clear = run := by
  have accepted : (ofText "count 'n' by regular(2, 0, 1) <- x" RecordStats.standing).isOk = true := by
    decide +kernel
  obtain ⟨run, h⟩ := exists_of_isOk accepted
  exact ⟨run, h, (clear_of_reaches h (.single .refl _ none _)).1⟩

end Run
end RecordStats
