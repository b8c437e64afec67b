import RecordStats.Proofs.Outcome
import RecordStats.Proofs.Program.Pieces
import RecordStats.Tree.Declaration

/-! What a declaration blames. It fails only at the place of some part of the program, whether a name is taken, a
    binning is not a literal one, or a collector has nothing to measure. -/

namespace RecordStats

/-- What stops the outcome, if anything does, is a failure at such a place. -/
def Outcome.Blames {α : Type} (S : Span → Prop) (x : Outcome α) : Prop :=
  ∀ stop, x = .error stop → ∃ cause s, stop = .failure ⟨cause, some s⟩ ∧ S s

namespace Outcome.Blames

variable {α β : Type} {S : Span → Prop}

theorem ok (a : α) : Blames S (.ok a : Outcome α) := nofun

theorem failAt {cause : Cause} {s : Span} (hs : S s) : Blames S (Outcome.failAt cause s : Outcome α) := by
  rintro stop ⟨⟩
  exact ⟨cause, s, rfl, hs⟩

theorem bind {x : Outcome α} {f : α → Outcome β} (hx : Blames S x) (hf : ∀ a, Blames S (f a)) :
    Blames S (x >>= f) := by
  cases x with
  | ok a => exact hf a
  | error stop =>
    rintro _ ⟨⟩
    exact hx stop rfl

end Outcome.Blames

open Outcome

variable {P : Pieces}

/-! ### Bins -/

namespace Bins

theorem literalEdges_blames : ∀ {es : List Expr}, (∀ e ∈ es, e.MadeOf P) → Blames P.span (literalEdges es)
  | [], _ => .ok _
  | e :: rest, h => by
    obtain ⟨he, hrest⟩ := List.forall_mem_cons.mp h
    rw [literalEdges]
    split
    · exact (literalEdges_blames hrest).bind fun _ => .ok _
    · exact .failAt he.span

theorem mem_of_misplaced? {es : List (Expr × Float)} {e : Expr} (h : misplaced? es = some e) : e ∈ es.map Prod.fst := by
  induction es with
  | nil => cases h
  | cons first rest ih =>
    cases rest with
    | nil => cases h
    | cons second more =>
      rw [misplaced?] at h
      split at h
      · exact List.mem_cons_of_mem _ (ih h)
      · cases h
        exact List.mem_cons_of_mem _ List.mem_cons_self

theorem elim_blames {x : Option Float} {cause : Cause} {s : Span} (hs : P.span s) :
    Blames P.span (x.elim (Outcome.failAt cause s) .ok) := by
  cases x with
  | none => exact .failAt hs
  | some x => exact .ok x

theorem ofCall_blames {e : Expr} (h : e.MadeOf P) : Blames P.span (ofCall e) := by
  unfold ofCall
  split
  · next callee arguments s =>
    obtain ⟨-, harguments, hs⟩ := h
    have harguments := Expr.allMadeOf_iff.mp harguments
    split
    · split
      · next count low high harguments =>
        simp only [List.forall_mem_cons] at harguments
        obtain ⟨hcount, hlow, hhigh, -⟩ := harguments
        have rest : ∀ n, Blames P.span (do
            let a ← (literalNumber? low).elim (Outcome.failAt .lowNotNumber low.span) .ok
            let b ← (literalNumber? high).elim (Outcome.failAt .highNotNumber high.span) .ok
            if a < b then return regular n a b else Outcome.failAt .highNotAbove high.span) := by
          refine fun n => (elim_blames hlow.span).bind fun a => (elim_blames hhigh.span).bind fun b => ?_
          split
          · exact .ok _
          · exact .failAt hhigh.span
        split
        · split
          · exact Blames.bind (.ok _) rest
          · exact Blames.bind (.failAt hcount.span) rest
        · exact Blames.bind (.failAt hcount.span) rest
      · exact .failAt hs
    · refine (literalEdges_blames harguments).bind fun edges => ?_
      split
      · exact .failAt hs
      · split
        · next misplaced hmisplaced =>
          obtain ⟨pair, hpair, rfl⟩ := List.mem_map.mp (mem_of_misplaced? hmisplaced)
          exact .failAt (harguments _ (List.of_mem_zip hpair).1).span
        · exact .ok _
    · exact .failAt hs
  · exact .failAt h.span

end Bins

/-! ### Nodes -/

theorem Namespace.declare_blames {name : Name} (hname : P.span name.span) (ns : Namespace) (node : Node) :
    Blames P.span (ns.declare name node) := by
  rw [declare]
  split
  · exact .failAt hname
  · exact .ok _

theorem Node.wrap_blames (path : Path) (node : Node) : ∀ {axes : List (Axis Expr)}, (∀ a ∈ axes, a.MadeOf P) →
    Blames P.span (Node.wrap path node axes)
  | [], _ => .ok _
  | a :: rest, h => by
    obtain ⟨ha, hrest⟩ := List.forall_mem_cons.mp h
    exact (wrap_blames path node hrest).bind fun _ => (Bins.ofCall_blames ha.binning).bind fun _ => .ok _

theorem Storage.ofCollector_blames (c : Collector Expr) {s : Span} (hs : P.span s) :
    Blames P.span (Storage.ofCollector c s) := by
  unfold ofCollector
  split
  · exact .ok _
  · exact .ok _
  · exact .ok _
  · exact .ok _
  · exact .failAt hs

theorem Namespace.declareVariations_blames (path : Path) (block : Namespace) :
    ∀ {variations : List (Variation Expr)} (ns : Namespace), (∀ v ∈ variations, v.MadeOf P) →
      Blames P.span (ns.declareVariations path block variations)
  | [], _, _ => .ok _
  | v :: rest, ns, h => by
    obtain ⟨hv, hrest⟩ := List.forall_mem_cons.mp h
    exact (declare_blames hv.name ns _).bind fun ns => declareVariations_blames path block ns hrest

/-! ### Blocks -/

mutual

theorem Statement.declare_blames (path : Path) (ns : Namespace) : ∀ {d : Statement}, d.MadeOf P →
    Blames P.span (d.declare path ns)
  | .collect c _, ⟨hc, hs⟩ => by
    rw [Statement.declare]
    refine (Storage.ofCollector_blames c hs).bind fun _ => (Node.wrap_blames _ _ hc.axes).bind fun _ => ?_
    exact Namespace.declare_blames hc.name _ _
  | .region n _ _ block _, ⟨hn, _, haxes, hblock, _⟩ => by
    rw [Statement.declare]
    refine (declareBlock_blames _ _ hblock).bind fun _ => (Node.wrap_blames _ _ haxes).bind fun _ => ?_
    exact Namespace.declare_blames hn _ _
  | .vary _ block _, ⟨hvariations, hblock, _⟩ => by
    rw [Statement.declare]
    exact (declareBlock_blames _ _ hblock).bind fun _ => Namespace.declareVariations_blames _ _ _ hvariations
  | .loop _ block _, ⟨_, hblock, _⟩ => by
    rw [Statement.declare]
    exact declareBlock_blames _ _ hblock
  | .source _ _ block _, ⟨_, hblock, _⟩ => by
    rw [Statement.declare]
    exact declareBlock_blames _ _ hblock
  | .define _ _ _, _ => .ok _
  | .function _ _ _ _, _ => .ok _
  | .result _ _, _ => .ok _

/-- A block's declaration blames a part of the block. -/
theorem declareBlock_blames (path : Path) (ns : Namespace) : ∀ {block : List Statement},
    Statement.BlockMadeOf P block → Blames P.span (declareBlock path ns block)
  | [], _ => .ok _
  | d :: rest, ⟨hd, hrest⟩ => by
    rw [declareBlock]
    exact (Statement.declare_blames path ns hd).bind fun ns => declareBlock_blames path ns hrest

end

end RecordStats
