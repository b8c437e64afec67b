import RecordStats.Proofs.Record.Swapped
import RecordStats.Proofs.Run.Expanded

/-! Programs with two statements that have changed places. A program in which two adjacent collectors, regions, varied
    blocks or loops have changed places declares the same tree, and does the same with every record that the first
    program lets pass. -/

namespace RecordStats

/-- Up to places, the second program is the first with two adjacent statements of one block changed. -/
def Program.Swaps (p q : Program) : Prop :=
  ∃ block, Statement.Swaps p.block block ∧ Statement.unplacedBlock block = Statement.unplacedBlock q.block

/-- An accepted program names what it declares well. -/
theorem Program.wellNamed {text : String} {p : Program} {tree : Namespace} (h : Program.ofText text = .ok p)
    (htree : p.tree = .ok tree) : WellNamed p.block :=
  ((exists_declareBlock [] (Program.wellFormed_of_ofText h)).mp ⟨tree, htree⟩).1

namespace Run

variable {text : String} {standing : Dict Value} {run a : Run} {call : Caller}

/-- A record that is let pass finds the same in both programs. -/
theorem single_swapped (hs : Text.Storable text) (h : ofText text standing = .ok run) (ha : Alike a run) {q : Program}
    (hq : Statement.Swaps run.program.block q.block) {tag : Option String} {record : List (String × Value)}
    {symbols : Symbols} (hok : (a.single call tag record).1 = .ok symbols) :
    single { a with program := q } call tag record =
      (.ok symbols, { (a.single call tag record).2 with program := q }) := by
  obtain ⟨hprogram, htree, -⟩ := ofText_eq_ok h
  have placed := ha.placed hs h
  rw [single_outcome] at hok
  obtain ⟨scope, hscope, rfl⟩ := Outcome.map_eq_ok hok
  have regroups : (a.trace call tag record).Regroups (trace { a with program := q } call tag record) := by
    rw [trace, ha.program]
    exact hq.regroups (Program.wellNamed hprogram htree) placed.2.2
  obtain ⟨outcome, fills⟩ := regroups scope hscope
  have tree : a.tree.fillAll (a.trace call tag record).fills =
      a.tree.fillAll (trace { a with program := q } call tag record).fills :=
    Namespace.fillAll_congr placed (fun f hf => mem_leafNames_of_fills placed.2.2 hf)
      (fun f hf => mem_leafNames_of_fills placed.2.2 hf) fills
  refine Prod.ext ?_ ?_
  · rw [single_outcome, outcome]
    rfl
  · rw [single_tree placed, single_tree (a := { a with program := q }) placed, tree]

/-- So do any records that are let pass. -/
theorem singles_swapped (hs : Text.Storable text) (h : ofText text standing = .ok run) (ha : Alike a run) {q : Program}
    (hq : Statement.Swaps run.program.block q.block) {records : List (Option String × List (String × Value))}
    (hok : ∀ o ∈ (a.singles call records).1, ∃ symbols, o = .ok symbols) :
    singles { a with program := q } call records =
      ((a.singles call records).1, { (a.singles call records).2 with program := q }) := by
  induction records generalizing a with
  | nil => rfl
  | cons r rest ih =>
    rw [singles_cons] at hok
    obtain ⟨⟨symbols, first⟩, others⟩ := List.forall_mem_cons.mp hok
    have later := ih ((single_alike a r.2).trans ha) others
    rw [singles_cons, singles_cons, single_swapped hs h ha hq first, later, first]

/-- Two adjacent statements may change places, each a collector, a region, a varied block or a loop. The program with
    the two changed declares a tree as well. On all records that the first program lets pass it gives the same symbols,
    and the trees stay the same up to places. -/
theorem swaps_alike (hs : Text.Storable text) (h : ofText text standing = .ok run) {q : Program}
    (hq : run.program.Swaps q) (hstanding : Value.SoundFields standing) {host : Host} (sound : host.Sound)
    (like : Likeness.displaced.HostLike host host) (depth : Nat) :
    ∃ tree, q.tree = .ok tree ∧
      (∀ text', Program.ofText text' = .ok q → ofText text' standing = .ok ⟨q, standing, tree⟩) ∧
      ∀ records : List (Option String × List (String × Value)), (∀ r ∈ records, Value.SoundFields r.2) →
        (∀ o ∈ (run.singles (host.caller depth) records).1, ∃ symbols, o = .ok symbols) →
          List.Forall₂ Outcome.Displaced (run.singles (host.caller depth) records).1
              (singles ⟨q, standing, tree⟩ (host.caller depth) records).1 ∧
            Node.unplacedChildren (run.singles (host.caller depth) records).2.tree =
              Node.unplacedChildren (singles ⟨q, standing, tree⟩ (host.caller depth) records).2.tree := by
  obtain ⟨hprogram, htree, rfl⟩ := ofText_eq_ok h
  obtain ⟨block, hswaps, hplaces⟩ := hq
  -- First the two statements change places as they are, and then the places change.
  let changed : Run := { run with program := ⟨block, run.program.span⟩ }
  have wf : changed.program.WellFormed _ := hswaps.wellFormed (Program.wellFormed_of_ofText hprogram)
  have htree' : changed.program.tree = .ok changed.tree := hswaps.declare Dict.sorted_nil htree
  have placed : Node.Placed [] (.namespace [] run.tree) := (Alike.refl run).placed hs h
  obtain ⟨tree, hq, counterparts, new⟩ := exists_counterpart wf htree' placed hplaces hstanding (sound.caller depth)
    (like.caller depth)
  refine ⟨tree, hq, fun text' htext' => ofText_of_tree htext' hq, fun records hr hok => ?_⟩
  obtain ⟨results, last⟩ := counterparts.singles new hr
  have same : changed.singles (host.caller depth) records = _ :=
    singles_swapped hs h (.refl run) (q := ⟨block, run.program.span⟩) hswaps hok
  have trees := Likeness.unplacedChildren_eq last.trees
  rw [same] at results trees
  exact ⟨results, trees⟩

/-- A block of a collector and a region. -/
def isCollectorAndRegion : List Statement → Bool
  | [.collect _ _, .region _ _ _ _ _] => true
  | _ => false

theorem swaps_alike_region :
    ∃ run q tree, ofText "count 'n'; region 'r' \x7b sum 's' x \x7d" RecordStats.standing = .ok run ∧
      run.program.Swaps q ∧ q.tree = .ok tree ∧
      (run.singles (Host.caller Host.none 1) [(none, [("x", .integer 3)])]).1.all (·.isOk) ∧
      Node.unplacedChildren (run.singles (Host.caller Host.none 1) [(none, [("x", .integer 3)])]).2.tree =
        Node.unplacedChildren (singles ⟨q, RecordStats.standing, tree⟩ (Host.caller Host.none 1)
          [(none, [("x", .integer 3)])]).2.tree := by
  have accepted : (ofText "count 'n'; region 'r' \x7b sum 's' x \x7d" RecordStats.standing).toOption.any (fun run =>
      isCollectorAndRegion run.program.block &&
        (run.singles (Host.caller Host.none 1) [(none, [("x", .integer 3)])]).1.all (·.isOk)) = true := by
    decide +kernel
  obtain ⟨run, h, checked⟩ := exists_of_any accepted
  obtain ⟨hblock, passed⟩ := Bool.and_eq_true_iff.mp checked
  unfold isCollectorAndRegion at hblock
  split at hblock
  · next c s n predicate axes block place heq =>
    have first : (Statement.collect c s).Detached := trivial
    have second : (Statement.region n predicate axes block place).Detached := trivial
    have swaps : run.program.Swaps ⟨[.region n predicate axes block place, .collect c s], run.program.span⟩ :=
      ⟨_, heq ▸ .here first second [], rfl⟩
    obtain ⟨tree, htree, -, records⟩ := swaps_alike (by decide) h swaps standing_sound Host.none_sound
      (fun _ _ _ _ _ => .raise _) 1
    refine ⟨run, _, tree, h, swaps, htree, passed, (records _ ?_ fun o ho => ?_).2⟩
    · exact List.forall_mem_singleton.mpr (List.forall_mem_singleton.mpr (.integer 3))
    · cases o with
      | ok symbols => exact ⟨symbols, rfl⟩
      | error stop => cases List.all_eq_true.mp passed _ ho
  · cases hblock

end Run
end RecordStats
