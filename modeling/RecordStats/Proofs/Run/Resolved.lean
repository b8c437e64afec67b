import RecordStats.Proofs.Record.Resolved
import RecordStats.Proofs.Run.Replay
import RecordStats.Proofs.Run.Records

/-! Source blocks as static conditions. For records with one tag a program does what it does when its source blocks are
    resolved for the tag; what it declares beyond that stays empty. -/

namespace RecordStats

namespace Run

variable {text : String} {standing : Dict Value} {run part a b : Run} {call : Caller} {tag : Option String}

/-- States of a run and of a run of the resolved program, after the same records. -/
structure Parallel (run part a b : Run) : Prop where
  left : Alike a run
  right : Alike b part
  /-- Storages of the smaller tree hold what they hold in the larger. -/
  filled : ∀ s ∈ Node.storages (Node.nodesOfChildren b.tree), s ∈ Node.storages (Node.nodesOfChildren a.tree)
  /-- The other storages are as they were. -/
  empty : ∀ s ∈ Node.storages (Node.nodesOfChildren run.tree), s.1 ∉ part.tree.leafNames →
    s ∈ Node.storages (Node.nodesOfChildren a.tree)

/-- A run of the resolved program beside one of the program. -/
structure Resolves (tag : Option String) (run part : Run) : Prop where
  placed : Node.Placed [] (.namespace [] run.tree)
  placed' : Node.Placed [] (.namespace [] part.tree)
  trace : ∀ call record, run.trace call tag record = part.trace call tag record

namespace Resolves

variable (h : Resolves tag run part)

include h

theorem reached (record : List (String × Value)) {f : Fill} (hf : f ∈ (run.trace call tag record).fills) :
    f.path ∈ part.tree.leafNames := by
  rw [h.trace] at hf
  exact mem_leafNames_of_trace h.placed' hf

/-- One record in both. -/
theorem single (call : Caller) (hab : Parallel run part a b) (record : List (String × Value)) :
    (b.single call tag record).1 = (a.single call tag record).1 ∧
      Parallel run part (a.single call tag record).2 (b.single call tag record).2 := by
  have mine : a.trace call tag record = run.trace call tag record := hab.left.performs call tag record
  have yours : b.trace call tag record = run.trace call tag record :=
    (hab.right.performs call tag record).trans (h.trace call record).symm
  have placed := (Namespace.placed_congr hab.left.tree).mpr h.placed
  have placed' := (Namespace.placed_congr hab.right.tree).mpr h.placed'
  refine ⟨?_, (single_alike a record).trans hab.left, (single_alike b record).trans hab.right, fun s hs => ?_,
    fun s hs hpath => ?_⟩
  · rw [single_outcome, single_outcome, mine, yours]
  · rw [storages_single placed', yours] at hs
    rw [storages_single placed, mine]
    obtain ⟨old, hold, rfl⟩ := List.mem_map.mp hs
    exact List.mem_map.mpr ⟨old, hab.filled old hold, rfl⟩
  · rw [storages_single placed, mine]
    have others : ((run.trace call tag record).fills.filter fun f => f.path = s.1) = [] :=
      Fill.filter_eq_nil fun f hf heq => hpath (heq ▸ h.reached record hf)
    refine List.mem_map.mpr ⟨s, hab.empty s hs hpath, ?_⟩
    rw [others]
    rfl

theorem each (call : Caller) (hab : Parallel run part a b) (records : List (List (String × Value))) :
    (b.each call tag records).1 = (a.each call tag records).1 ∧
      Parallel run part (a.each call tag records).2 (b.each call tag records).2 := by
  induction records generalizing a b with
  | nil => exact ⟨rfl, hab⟩
  | cons record rest ih =>
    obtain ⟨same, next⟩ := h.single call hab record
    obtain ⟨others, last⟩ := ih next
    rw [each_cons, each_cons, same, others]
    exact ⟨rfl, last⟩

end Resolves

/-- A source block is a condition on the tag alone. A program with its source blocks resolved for a tag declares a tree as
    well, and for any records with the tag it gives the same results. Each of its storages then holds what the storage
    at the same path of the whole program's tree holds; no record with the tag fills another storage. -/
theorem resolved_alike (hs : Text.Storable text) (h : ofText text standing = .ok run) (call : Caller)
    (tag : Option String) :
    ∃ tree, (run.program.resolved tag).tree = .ok tree ∧
      (∀ records : List (List (String × Value)),
        (each ⟨run.program.resolved tag, standing, tree⟩ call tag records).1 = (run.each call tag records).1 ∧
          ∀ path content,
            .storage path content ∈
              Node.nodesOfChildren (each ⟨run.program.resolved tag, standing, tree⟩ call tag records).2.tree →
            (run.each call tag records).2.tree.lookup path = .ok (.storage path content)) ∧
      ∀ path ∈ run.tree.leafNames, path ∉ tree.leafNames →
        (∀ record, ∀ f ∈ (run.trace call tag record).fills, f.path ≠ path) ∧
          ∀ records, (run.each call tag records).2.tree.lookup path = run.tree.lookup path := by
  obtain ⟨hprogram, htree, rfl⟩ := ofText_eq_ok h
  have wf := Program.wellFormed_of_ofText hprogram
  obtain ⟨tree, hpart, under⟩ := declareBlock_resolved wf Namespace.under_nil htree
  have placed : Node.Placed [] (.namespace [] run.tree) := (Alike.refl run).placed hs h
  have few : Axis.AllGood (fun bins => bins.count ≤ Bins.mostCount) (declaredAxesOf (run.program.resolved tag).block) :=
    fun a ha => Program.fewBins hs hprogram a (mem_declaredAxesOf_of_resolvedBlock ha)
  have placed' : Node.Placed [] (.namespace [] tree) := Program.placed_tree few hpart
  have wf' : (run.program.resolved tag).WellFormed _ := wellFormed_resolvedBlock wf
  have fits := Program.fits_tree wf' hpart
  let part : Run := ⟨run.program.resolved tag, run.standing, tree⟩
  have resolves : Resolves tag run part :=
    ⟨placed, placed', fun call record => runBlock_resolved under fits⟩
  have new : Parallel run part run part := by
    refine ⟨.refl run, .refl part, fun s hs => ?_, fun s hs _ => hs⟩
    exact Node.mem_storages.mpr (under.mem_nodes placed' (Node.mem_storages.mp hs))
  refine ⟨tree, hpart, fun records => ?_, fun path hpath hother => ⟨fun record f hf heq => ?_, fun records => ?_⟩⟩
  · obtain ⟨results, last⟩ := resolves.each call new records
    have there := (Namespace.placed_congr last.left.tree).mpr placed
    exact ⟨results, fun path content hn => Namespace.lookup_storage there (last.filled _ (Node.mem_storages.mpr hn))⟩
  · exact hother (heq ▸ resolves.reached record hf)
  · obtain ⟨-, last⟩ := resolves.each call new records
    have there := (Namespace.placed_congr last.left.tree).mpr placed
    obtain ⟨content, hn⟩ := Namespace.mem_leafNames.mp hpath
    have before := Node.mem_storages.mpr hn
    rw [Namespace.lookup_storage there (last.empty _ before hother), Namespace.lookup_storage placed before]

theorem resolved_alike_other_tag :
    ∃ run tree, ofText "source 'a' \x7b count 'n' \x7d; sum 's' x" RecordStats.standing = .ok run ∧
      (run.program.resolved (some "b")).tree = .ok tree ∧
      (each ⟨run.program.resolved (some "b"), RecordStats.standing, tree⟩ (Host.caller Host.none 1) (some "b")
          [[("x", .integer 3)], []]).1 =
        (run.each (Host.caller Host.none 1) (some "b") [[("x", .integer 3)], []]).1 := by
  have accepted : (ofText "source 'a' \x7b count 'n' \x7d; sum 's' x" RecordStats.standing).isOk = true := by
    decide +kernel
  obtain ⟨run, h⟩ := exists_of_isOk accepted
  obtain ⟨tree, htree, records, -⟩ := resolved_alike (by decide) h (Host.caller Host.none 1) (some "b")
  exact ⟨run, tree, h, htree, (records _).1⟩

end Run
end RecordStats
