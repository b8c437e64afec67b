import RecordStats.Proofs.Record.Entries
import RecordStats.Proofs.Record.Standing
import RecordStats.Proofs.Run.Shape

/-! One collector in any state of a run. Wherever it stands, and whatever the scope, it fills one leaf of the tree with
    one entry, or it fails and the tree is what it was. -/

namespace RecordStats

open Node (storages nodesOfChildren)

/-- How a collector that stands at a path, with storages that measure like `content`, ends in a tree. Either its weight,
    the slots of its axes and what it measures are found, and then one storage holds one entry more, the one under the
    collector's name and these slots, and all else is as it was. Or one of them fails, and all is as it was. -/
inductive Collector.Ends (call : Caller) (scope : Scope) (path : Path) (c : Collector Expr) (content : Storage)
    (tree : Namespace) : Outcome Scope × Namespace → Prop
  | filled {w : Float} {slots : Path} {sample : Sample} {held : Storage} {before after : List (Path × Storage)}
      {filled : Namespace} (weight : weightOf call scope c.weight = .ok w)
      (route : Axis.route call scope c.axes = .ok slots) (measured : content.sample call scope = .ok sample)
      (one : filled = tree.fillAll [⟨path ++ .field c.name.text :: slots, w, sample⟩])
      (holds : storages (nodesOfChildren tree) = before ++ (path ++ .field c.name.text :: slots, held) :: after)
      (like : held.zero = content)
      (then_holds : storages (nodesOfChildren filled) =
        before ++ (path ++ .field c.name.text :: slots, held.fill w sample) :: after)
      (structure_kept : Node.emptiedChildren filled = Node.emptiedChildren tree) :
      Ends call scope path c content tree (.ok scope, filled)
  | unweighted {stop : Stop} (weight : weightOf call scope c.weight = .error stop) :
      Ends call scope path c content tree (.error stop, tree)
  | unrouted {w : Float} {stop : Stop} (weight : weightOf call scope c.weight = .ok w)
      (route : Axis.route call scope c.axes = .error stop) : Ends call scope path c content tree (.error stop, tree)
  | unmeasured {w : Float} {slots : Path} {stop : Stop} (weight : weightOf call scope c.weight = .ok w)
      (route : Axis.route call scope c.axes = .ok slots) (measured : content.sample call scope = .error stop) :
      Ends call scope path c content tree (.error stop, tree)

open RecordStats.Part in
/-- What an action gives and leaves is told by its trace. -/
theorem Performs.eq_of_trace {σ α : Type} [Part σ] {act : Action σ α} {trace : Path → σ → Trace α} {s : σ} {t : Trace α}
    (h : Performs act trace s) (indexed : Indexed s) (told : trace [] s = t) :
    act s = (t.outcome, fillAll s t.fills) := by
  rw [← told]
  exact Prod.ext (h.outcome []) (h.fills indexed)

namespace Namespace

/-- The storages of a tree with one more entry in one of them. -/
theorem storages_fill {tree : Namespace} (hp : Node.Placed [] (.namespace [] tree)) {f : Fill} {held : Storage}
    {before after : List (Path × Storage)} (h : storages (nodesOfChildren tree) = before ++ (f.path, held) :: after) :
    storages (nodesOfChildren (tree.fillAll [f])) = before ++ (f.path, held.fill f.weight f.sample) :: after := by
  have distinct : ((storages (nodesOfChildren tree)).map Prod.fst).Nodup :=
    (Node.names_sublist _).nodup (Node.distinct_nodesOfChildren hp.2.1 hp.2.2)
  have there : f.path ∈ tree.leafNames := by
    rw [leafNames, h]
    exact List.mem_map_of_mem (List.mem_append_right _ List.mem_cons_self)
  have split : before ++ (f.path, held) :: after = before ++ ([(f.path, held)] ++ after) := rfl
  rw [h, split] at distinct
  have changed := storages_apply hp there
  rw [h, split, Node.map_changed_around distinct ⟨_, List.mem_singleton_self _, rfl⟩] at changed
  refine changed.trans ?_
  simp [Node.changed]

end Namespace

namespace Run

variable {text : String} {standing : Dict Value} {run a : Run} {c : Collector Expr} {s : Span} {way : List Descent}

/-- The trace of a collector where it stands in the tree of its program. -/
theorem trace_collects (h : ofText text standing = .ok run) (hc : Collects c s run.program.block way) :
    ∃ content, Storage.ofCollector c s = .ok content ∧ ∀ (call : Caller) (tag : Option String) (scope : Scope),
      Trace.into (fun ns : Namespace => ns.find way)
        (fun ns => Statement.run call tag (Descent.pathOf way) ns scope (.collect c s)) run.tree =
          Trace.ofOutcome (do
            let w ← weightOf call scope c.weight
            let slots ← Axis.route call scope c.axes
            let sample ← content.sample call scope
            return ⟨Descent.pathOf way ++ .field c.name.text :: slots, w, sample⟩) >>= fun f =>
              Trace.fill f >>= fun _ => pure scope := by
  obtain ⟨hprogram, htree, -⟩ := ofText_eq_ok h
  obtain ⟨wf, content, hcontent, own, name, wrapped, hwrapped, found⟩ :=
    hc.provides (Program.wellFormed_of_ofText hprogram) htree
  have there := found []
  rw [Program.childrenLike_tree htree, List.nil_append] at there
  obtain ⟨inner, reached, entered⟩ := Outcome.bind_eq_ok.mp there
  refine ⟨content, hcontent, fun call tag scope => ?_⟩
  rw [Trace.into, Trace.ofOutcome_bind_ok reached, Statement.run, Collector.fillOf_wrap wf.axes hwrapped entered]
  simp only [List.append_assoc, List.singleton_append]
  rfl

/-- In the tree of any state of a run there is the storage of a collector for every choice of slots. -/
theorem exists_storage (h : ofText text standing = .ok run) (ha : Alike a run)
    (hc : Collects c s run.program.block way) {content : Storage} (hcontent : Storage.ofCollector c s = .ok content)
    {slots : Path} (hslots : slots ∈ Axis.choices c.axes) :
    ∃ held before after, held.zero = content ∧
      storages (nodesOfChildren a.tree) = before ++ (Descent.pathOf way ++ .field c.name.text :: slots, held) :: after := by
  obtain ⟨hprogram, htree, -⟩ := ofText_eq_ok h
  have wf := Program.wellFormed_of_ofText hprogram
  obtain ⟨wfc, -⟩ := hc.provides wf htree
  obtain ⟨new, hnew, statistic, expression, empty⟩ := Program.storage_of_leaf wf htree (hc.leaf hslots)
  have measures := Storage.ofCollector_measures wfc hcontent
  obtain rfl : new = content := Storage.eq_of_zero empty (Storage.zero_ofCollector hcontent)
    (statistic.trans measures.1.symm) (expression.trans measures.2.symm)
  have listed := Node.mem_storages.mpr hnew
  rw [← emptied_of_ofText h, ← ha.tree, Node.nodesOfChildren_emptied, Node.storages_emptied] at listed
  obtain ⟨⟨path, held⟩, hheld, same⟩ := List.mem_map.mp listed
  cases same
  obtain ⟨before, after, split⟩ := List.append_of_mem hheld
  exact ⟨held, before, after, rfl, split⟩

/-- In every state of a run a collector of its program does, wherever it stands and in whatever scope, all of its fill
    or nothing. -/
theorem collect_of_reaches (hs : Text.Storable text) (h : ofText text standing = .ok run) (ha : run.Reaches a)
    (hc : Collects c s run.program.block way) (call : Caller) (tag : Option String) (scope : Scope) :
    ∃ content, Storage.ofCollector c s = .ok content ∧
      c.Ends call scope (Descent.pathOf way) content a.tree
        (Namespace.along (Statement.execute call tag scope (.collect c s)) way a.tree) := by
  have alike := ha.alike h
  obtain ⟨content, hcontent, new⟩ := trace_collects h hc
  refine ⟨content, hcontent, ?_⟩
  have placed := alike.placed hs h
  have alone : ∀ ns, Performs (Statement.execute call tag scope (.collect c s))
      (fun path ns => Statement.run call tag path ns scope (.collect c s)) ns := Statement.performs scope (.collect c s)
  have performs := Performs.along alone way a.tree
  have told := (performs.blind []).symm
  rw [show Part.emptied a.tree = run.tree from alike.tree.trans (emptied_of_ofText h)] at told
  rw [performs.eq_of_trace ⟨[], placed.2.2⟩ (told.trans (new call tag scope))]
  cases weight : weightOf call scope c.weight with
  | error stop => exact .unweighted weight
  | ok w =>
    cases route : Axis.route call scope c.axes with
    | error stop => exact .unrouted weight route
    | ok slots =>
      cases measured : content.sample call scope with
      | error stop => exact .unmeasured weight route measured
      | ok sample =>
        obtain ⟨held, before, after, like, holds⟩ := exists_storage h alike hc hcontent (Axis.route_mem route)
        exact .filled weight route measured rfl holds like (Namespace.storages_fill placed holds)
          (Namespace.emptied_fillAll a.tree _)

/-- A block of a region with a second bin and a collector in it. -/
def isBinnedCollector : List Statement → Bool
  | [.region _ _ [a] [.collect _ _] _] => (Axis.slots a).contains (.bin 1)
  | _ => false

/-- A collector within the second bin of a region, after one record and on another. -/
theorem collect_of_reaches_region :
    ∃ run c s n content, ofText "region 'r' by regular(2, 0, 1) <- x \x7b sum 's' y by regular(3, 0, 1) <- z \x7d"
        RecordStats.standing = .ok run ∧
      Collects c s run.program.block [⟨n, [.bin 1]⟩] ∧
      c.Ends (Host.caller Host.none 1) (Scope.root RecordStats.standing [("y", .integer 5), ("z", .float Double.nan)])
        (Descent.pathOf [⟨n, [.bin 1]⟩]) content
        (run.single (Host.caller Host.none 1) none [("x", .float 0), ("y", .integer 3), ("z", .float 0)]).2.tree
        (Namespace.along (Statement.execute (Host.caller Host.none 1) none
            (Scope.root RecordStats.standing [("y", .integer 5), ("z", .float Double.nan)]) (.collect c s))
          [⟨n, [.bin 1]⟩]
          (run.single (Host.caller Host.none 1) none [("x", .float 0), ("y", .integer 3), ("z", .float 0)]).2.tree) := by
  have accepted : (ofText "region 'r' by regular(2, 0, 1) <- x \x7b sum 's' y by regular(3, 0, 1) <- z \x7d"
      RecordStats.standing).toOption.any (fun run => isBinnedCollector run.program.block) = true := by
    decide +kernel
  obtain ⟨run, h, checked⟩ := exists_of_any accepted
  unfold isBinnedCollector at checked
  split at checked
  · next n predicate a c s place heq =>
    have inside : Collects c s [.collect c s] [] := .here (List.mem_singleton_self _)
    have stands : Collects c s run.program.block [⟨n, [.bin 1]⟩] :=
      .region (heq ▸ List.mem_singleton_self _) (.cons (List.contains_iff_mem.mp checked) .nil) inside
    obtain ⟨content, -, ends⟩ := collect_of_reaches (by decide) h (.single .refl (Host.caller Host.none 1) none
      [("x", .float 0), ("y", .integer 3), ("z", .float 0)]) stands (Host.caller Host.none 1) none
      (Scope.root RecordStats.standing [("y", .integer 5), ("z", .float Double.nan)])
    exact ⟨run, c, s, n, content, h, stands, ends⟩
  · cases checked

end Run
end RecordStats
