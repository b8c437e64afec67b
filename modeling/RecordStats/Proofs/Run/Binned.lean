import RecordStats.Proofs.Record.Binned
import RecordStats.Proofs.Run.Replay
import RecordStats.Proofs.Run.Expanded

/-! Binned regions and binned collectors. A program that is a region by some axes with one collector in it, and a program
    that is this collector by the same axes, fail on the same records. Where the first has a leaf `r/slots/n`, the
    second has `n/slots`, and after any records the two hold the same. -/

namespace RecordStats

/-! ### One record -/

namespace Trace.Transposes

variable {axes : List (Axis Expr)} {r n : String} {t u : Trace Scope}

theorem isOk (h : Trace.Transposes axes r n t u) : t.outcome.isOk = u.outcome.isOk := by
  cases h <;> rfl

/-- Both traces make the same of leaves that stand for each other. -/
theorem fillAll (h : Trace.Transposes axes r n t u) (slots : Path) (content : Storage) :
    content.fillAll (t.fills.filter fun f => f.path = .field r :: (slots ++ [.field n])) =
      content.fillAll (u.fills.filter fun f => f.path = .field n :: slots) := by
  cases h with
  | @filled routed _ w sample after after' =>
    by_cases hslots : routed = slots <;> simp [hslots, Storage.fillAll]
  | stopped => rfl

end Trace.Transposes

theorem Outcome.isOk_map {α β : Type} (f : α → β) (o : Outcome α) : (o.map f).isOk = o.isOk := by
  cases o <;> rfl

/-- Results that are the same up to places are failures of the same records. -/
theorem Outcome.Displaced.map_isOk {xs ys : List (Outcome Symbols)} (h : List.Forall₂ Outcome.Displaced xs ys) :
    xs.map (·.isOk) = ys.map (·.isOk) := by
  induction h with
  | nil => rfl
  | cons first _ ih =>
    rw [List.map_cons, List.map_cons, ih]
    cases first <;> rfl

/-- Storages of trees that are the same up to places. -/
theorem Node.storage_of_unplaced {ns others : Namespace} (h : unplacedChildren ns = unplacedChildren others)
    {path : Path} {content : Storage} (hn : .storage path content ∈ nodesOfChildren ns) :
    ∃ content', .storage path content' ∈ nodesOfChildren others ∧ content'.unplaced = content.unplaced := by
  have there := List.mem_map_of_mem (f := unplaced) hn
  rw [← nodesOfChildren_unplaced, h, nodesOfChildren_unplaced] at there
  obtain ⟨n, hmem, heq⟩ := List.mem_map.mp there
  cases n <;> simp only [unplaced, reduceCtorEq, Node.storage.injEq] at heq
  obtain ⟨rfl, heq⟩ := heq
  exact ⟨_, hmem, heq⟩

namespace Run

variable {text : String} {standing : Dict Value} {left right a b : Run} {call : Caller} {axes : List (Axis Expr)}
  {r n : String}

/-- States of two runs in which leaves that stand for each other hold the same. -/
structure Paired (axes : List (Axis Expr)) (r n : String) (left right a b : Run) : Prop where
  left : Alike a left
  right : Alike b right
  filled : ∀ slots ∈ Axis.choices axes, ∃ content,
    (.field r :: (slots ++ [.field n]), content) ∈ Node.storages (Node.nodesOfChildren a.tree) ∧
      (.field n :: slots, content) ∈ Node.storages (Node.nodesOfChildren b.tree)

/-- Two runs in which every record enters leaves that stand for each other. -/
structure Transposed (axes : List (Axis Expr)) (r n : String) (left right : Run) (call : Caller) : Prop where
  placed : Node.Placed [] (.namespace [] left.tree)
  placed' : Node.Placed [] (.namespace [] right.tree)
  trace : ∀ tag record, Trace.Transposes axes r n (left.trace call tag record) (right.trace call tag record)

namespace Transposed

variable (h : Transposed axes r n left right call)

include h

/-- One record in both. -/
theorem single (hab : Paired axes r n left right a b) (tag : Option String) (record : List (String × Value)) :
    (a.single call tag record).1.isOk = (b.single call tag record).1.isOk ∧
      Paired axes r n left right (a.single call tag record).2 (b.single call tag record).2 := by
  have traces := h.trace tag record
  rw [← hab.left.performs, ← hab.right.performs] at traces
  have placed := (Namespace.placed_congr hab.left.tree).mpr h.placed
  have placed' := (Namespace.placed_congr hab.right.tree).mpr h.placed'
  refine ⟨?_, (single_alike a record).trans hab.left, (single_alike b record).trans hab.right, fun slots hslots => ?_⟩
  · rw [single_outcome, single_outcome, Outcome.isOk_map, Outcome.isOk_map]
    exact traces.isOk
  · obtain ⟨content, mine, yours⟩ := hab.filled slots hslots
    rw [storages_single placed, storages_single placed']
    refine ⟨_, List.mem_map_of_mem mine, ?_⟩
    rw [traces.fillAll]
    exact List.mem_map_of_mem yours

/-- Any records in both. -/
theorem singles (hab : Paired axes r n left right a b) (records : List (Option String × List (String × Value))) :
    (a.singles call records).1.map (·.isOk) = (b.singles call records).1.map (·.isOk) ∧
      Paired axes r n left right (a.singles call records).2 (b.singles call records).2 := by
  induction records generalizing a b with
  | nil => exact ⟨rfl, hab⟩
  | cons record rest ih =>
    obtain ⟨first, next⟩ := h.single hab record.1 record.2
    obtain ⟨others, last⟩ := ih next
    rw [singles_cons, singles_cons, List.map_cons, List.map_cons, first, others]
    exact ⟨rfl, last⟩

end Transposed

/-- Before any record all leaves of both programs are empty. -/
theorem Paired.new (standing : Dict Value) {most : Nat} {p q : Program} {tree tree' : Namespace} {r : Name}
    {c : Collector Expr} {s s' : Span}
    (hp : p.block = [.region r none axes [.collect c s] s']) (hq : q.block = [.collect (c.binnedBy axes) s])
    (plain : c.axes = []) (wf : p.WellFormed most) (wf' : q.WellFormed most) (htree : p.tree = .ok tree)
    (htree' : q.tree = .ok tree') :
    Paired axes r.text c.name.text ⟨p, standing, tree⟩ ⟨q, standing, tree'⟩ ⟨p, standing, tree⟩
      ⟨q, standing, tree'⟩ := by
  refine ⟨.refl _, .refl _, fun slots hslots => ?_⟩
  have mine : (⟨.field r.text :: (slots ++ [.field c.name.text]), c.statistic, c.expression⟩ : Leaf) ∈
      leavesOf p.block := by
    rw [hp, leavesOf, Statement.leaves]
    refine List.mem_append_left _ (List.mem_flatMap.mpr ⟨slots, hslots, ?_⟩)
    simp [leavesOf, Statement.leaves, plain, Axis.choices, Leaf.below]
  have yours : (⟨.field c.name.text :: slots, c.statistic, c.expression⟩ : Leaf) ∈ leavesOf q.block := by
    rw [hq, leavesOf, Statement.leaves]
    exact List.mem_append_left _ (List.mem_map.mpr ⟨slots, hslots, rfl⟩)
  obtain ⟨content, hn, statistic, expression, empty⟩ := Program.storage_of_leaf wf htree mine
  obtain ⟨content', hn', statistic', expression', empty'⟩ := Program.storage_of_leaf wf' htree' yours
  obtain rfl : content = content' :=
    Storage.eq_of_zero empty empty' (statistic.trans statistic'.symm) (expression.trans expression'.symm)
  exact ⟨content, Node.mem_storages.mpr hn, Node.mem_storages.mpr hn'⟩

/-- A region by some axes with one collector in it sorts records as the collector by these axes does. Programs that are
    such a region and such a collector, up to places, are both accepted. Of any records both let the same pass and fail
    on the same, and in every choice of slots the leaf in the region and the leaf of the collector hold the same. -/
theorem binned_alike (hs : Text.Storable text) {p q : Program} (h : Program.ofText text = .ok p) {r : Name}
    {axes : List (Axis Expr)} {c : Collector Expr} {s s' : Span} (hp : p.block = [.region r none axes [.collect c s] s'])
    (plain : c.axes = []) (valid : ∀ a ∈ axes, a.Binned)
    (hq : Statement.unplacedBlock q.block = Statement.unplacedBlock [.collect (c.binnedBy axes) s])
    (hstanding : Value.SoundFields standing) {host : Host} (sound : host.Sound)
    (like : Likeness.displaced.HostLike host host) (depth : Nat) :
    ∃ left right, ofText text standing = .ok ⟨p, standing, left⟩ ∧ q.tree = .ok right ∧
      (∀ text', Program.ofText text' = .ok q → ofText text' standing = .ok ⟨q, standing, right⟩) ∧
      ∀ records : List (Option String × List (String × Value)), (∀ o ∈ records, Value.SoundFields o.2) →
        (singles ⟨p, standing, left⟩ (host.caller depth) records).1.map (·.isOk) =
            (singles ⟨q, standing, right⟩ (host.caller depth) records).1.map (·.isOk) ∧
          ∀ slots ∈ Axis.choices axes, ∃ content content',
            (singles ⟨p, standing, left⟩ (host.caller depth) records).2.tree.lookup
                (.field r.text :: (slots ++ [.field c.name.text])) =
              .ok (.storage (.field r.text :: (slots ++ [.field c.name.text])) content) ∧
            (singles ⟨q, standing, right⟩ (host.caller depth) records).2.tree.lookup (.field c.name.text :: slots) =
              .ok (.storage (.field c.name.text :: slots) content') ∧
            content.unplaced = content'.unplaced := by
  have wf := Program.wellFormed_of_ofText h
  have wfBlock := wf
  rw [Program.WellFormed, hp] at wfBlock
  obtain ⟨⟨-, wfAxes, wfc, -⟩, -⟩ := wfBlock
  -- The collector is first put at the places of the region's text, and then at its own.
  let middle : Program := ⟨[.collect (c.binnedBy axes) s], p.span⟩
  have wf' : middle.WellFormed _ := ⟨⟨wfc.measured, wfc.expression, wfAxes, wfc.weight⟩, trivial⟩
  have axes_eq : declaredAxesOf p.block = axes := by
    simp [hp, declaredAxesOf, Statement.declaredAxes, plain]
  have axes_eq' : declaredAxesOf middle.block = axes := List.append_nil _
  have named : WellNamed p.block := by
    simp [hp, WellNamed, declaredNamesOf, ownBlocksOf, Statement.declaredNames, Statement.ownBlocks]
  have named' : WellNamed middle.block := List.forall_mem_singleton.mpr (List.nodup_singleton _)
  obtain ⟨left, hleft⟩ := (exists_declareBlock [] wf).mpr ⟨named, axes_eq.symm ▸ valid⟩
  obtain ⟨tree, htree⟩ := (exists_declareBlock [] wf').mpr ⟨named', axes_eq'.symm ▸ valid⟩
  have few := Program.fewBins hs h
  have placed : Node.Placed [] (.namespace [] left) := Program.placed_tree few hleft
  have placed' : Node.Placed [] (.namespace [] tree) :=
    Program.placed_tree (p := middle) (axes_eq'.symm ▸ axes_eq ▸ few) htree
  obtain ⟨right, hright, counterparts, beside⟩ := exists_counterpart wf' htree placed' hq.symm hstanding
    (sound.caller depth) (like.caller depth)
  have transposed : Transposed axes r.text c.name.text ⟨p, standing, left⟩ ⟨middle, standing, tree⟩
      (host.caller depth) := by
    refine ⟨placed, placed', fun tag record => ?_⟩
    rw [trace, hp]
    exact runBlock_transposes wfAxes plain (hp ▸ hleft) htree
  have new := Paired.new standing hp rfl plain wf wf' hleft htree
  refine ⟨left, right, ofText_of_tree h hleft, hright, fun text' htext' => ofText_of_tree htext' hright,
    fun records hr => ?_⟩
  obtain ⟨ends, paired⟩ := transposed.singles new records
  obtain ⟨results, last⟩ := counterparts.singles beside hr
  refine ⟨ends.trans (Outcome.Displaced.map_isOk results), fun slots hslots => ?_⟩
  obtain ⟨content, mine, yours⟩ := paired.filled slots hslots
  obtain ⟨content', theirs, same⟩ :=
    Node.storage_of_unplaced (Likeness.unplacedChildren_eq last.trees) (Node.mem_storages.mp yours)
  have there := (Namespace.placed_congr paired.left.tree).mpr placed
  have there' := (Likeness.NodeLike.of_children [] last.trees).placed last.placed
  exact ⟨content, content', Namespace.lookup_storage there mine,
    Namespace.lookup_storage there' (Node.mem_storages.mpr theirs), same.symm⟩

/-- A block of a region without a predicate and a collector without axes in it. -/
def isRegionOfCollector : List Statement → Bool
  | [.region _ none _ [.collect c _] _] => c.axes.isEmpty
  | _ => false

theorem binned_alike_failing :
    ∃ p q left right, ofText "region 'r' by regular(2, 0, 1) <- x \x7b sum 's' y \x7d" RecordStats.standing =
        .ok ⟨p, RecordStats.standing, left⟩ ∧
      q.tree = .ok right ∧
      (singles ⟨p, RecordStats.standing, left⟩ (Host.caller Host.none 1)
          [(none, [("x", .float 0), ("y", .integer 3)]), (none, [])]).1.map (·.isOk) =
        (singles ⟨q, RecordStats.standing, right⟩ (Host.caller Host.none 1)
          [(none, [("x", .float 0), ("y", .integer 3)]), (none, [])]).1.map (·.isOk) := by
  have accepted : (ofText "region 'r' by regular(2, 0, 1) <- x \x7b sum 's' y \x7d"
      RecordStats.standing).toOption.any (fun run => isRegionOfCollector run.program.block) = true := by
    decide +kernel
  obtain ⟨⟨p, standing, tree⟩, h, hblock⟩ := exists_of_any accepted
  obtain ⟨hprogram, htree, rfl⟩ := ofText_eq_ok h
  obtain ⟨-, binned⟩ := (exists_declareBlock [] (Program.wellFormed_of_ofText hprogram)).mp ⟨_, htree⟩
  unfold isRegionOfCollector at hblock
  split at hblock
  · next r axes c s s' hp =>
    have hp : p.block = _ := hp
    rw [hp, declaredAxesOf, Statement.declaredAxes] at binned
    have valid : ∀ a ∈ axes, a.Binned := fun a ha => binned a (List.mem_append_left _ (List.mem_append_left _ ha))
    obtain ⟨left, right, hleft, hright, -, records⟩ := binned_alike (by decide) hprogram hp (List.isEmpty_iff.mp hblock)
      valid (q := ⟨[.collect (c.binnedBy axes) s], p.span⟩) rfl standing_sound Host.none_sound
      (fun _ _ _ _ _ => .raise _) 1
    refine ⟨p, _, left, right, hleft, hright, (records _ ?_).1⟩
    refine List.forall_mem_cons.mpr ⟨List.forall_mem_cons.mpr ⟨.float _, List.forall_mem_singleton.mpr (.integer 3)⟩, ?_⟩
    exact List.forall_mem_singleton.mpr (List.forall_mem_nil _)
  · cases hblock

end Run
end RecordStats
