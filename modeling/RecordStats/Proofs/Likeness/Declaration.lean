import RecordStats.Proofs.Likeness.Block
import RecordStats.Proofs.Tree.Renamed

/-! What alike blocks declare. The trees are alike, or both declarations fail for the same cause. Of a varied block one
    copy is made for each label, while regions are declared one by one under their own names; both come to the same
    tree. -/

namespace RecordStats
namespace Likeness

open Segment (field)

variable {L : Likeness} {V : String → Prop}

/-! ### Bins -/

theorem literalNumber?_eq {e f : Expr} (h : L.ExprLike V e f) : Bins.literalNumber? e = Bins.literalNumber? f := by
  rw [Bins.literalNumber?, Bins.literalNumber?, h.literal?_eq]

theorem literalEdges_like {es fs : List Expr} (h : L.ExprsLike V es fs) :
    L.strict.EndsLike True Eq (Bins.literalEdges es) (Bins.literalEdges fs) := by
  induction es generalizing fs with
  | nil =>
    cases h
    exact .ok rfl
  | cons e es ih =>
    cases h with
    | cons first rest =>
      rw [Bins.literalEdges, Bins.literalEdges, literalNumber?_eq first]
      split
      · refine (ih rest).bind ?_
        rintro edges _ rfl
        exact .ok rfl
      · exact .failAt first.span

theorem misplaced?_like {es fs : List Expr} (edges : List Float) (h : L.ExprsLike V es fs) :
    Option.Rel (L.ExprLike V) (Bins.misplaced? (es.zip edges)) (Bins.misplaced? (fs.zip edges)) := by
  induction es generalizing fs edges with
  | nil =>
    cases h
    exact .none
  | cons e es ih =>
    cases h with
    | @cons _ f _ fs _ rest =>
      cases edges with
      | nil => exact .none
      | cons x edges =>
        cases rest with
        | nil => exact .none
        | @cons e' f' es fs second more =>
          cases edges with
          | nil => exact .none
          | cons y edges =>
            have later := ih (y :: edges) (.cons second more)
            simp only [List.zip_cons_cons, Bins.misplaced?] at later ⊢
            split
            · exact later
            · exact .some second

theorem ofOption_like {x : Option Float} {cause : Cause} {s t : Span} (place : L.span s t) :
    L.strict.EndsLike True Eq (x.elim (Outcome.failAt cause s) .ok) (x.elim (Outcome.failAt cause t) .ok) := by
  cases x with
  | none => exact .failAt place
  | some x => exact .ok rfl

theorem bounds_like {low low' high high' : Expr} (hlow : L.ExprLike V low low') (hhigh : L.ExprLike V high high')
    (n m : Nat) (h : n = m) :
    L.strict.EndsLike True Eq
      (do
        let a ← (Bins.literalNumber? low).elim (Outcome.failAt .lowNotNumber low.span) .ok
        let b ← (Bins.literalNumber? high).elim (Outcome.failAt .highNotNumber high.span) .ok
        if a < b then return Bins.regular n a b else Outcome.failAt .highNotAbove high.span)
      (do
        let a ← (Bins.literalNumber? low').elim (Outcome.failAt .lowNotNumber low'.span) .ok
        let b ← (Bins.literalNumber? high').elim (Outcome.failAt .highNotNumber high'.span) .ok
        if a < b then return Bins.regular m a b else Outcome.failAt .highNotAbove high'.span) := by
  subst h
  rw [literalNumber?_eq hlow, literalNumber?_eq hhigh]
  refine (ofOption_like hlow.span).bind ?_
  rintro a _ rfl
  refine (ofOption_like hhigh.span).bind ?_
  rintro b _ rfl
  split
  · exact .ok rfl
  · exact .failAt hhigh.span

theorem ofCall_like {e f : Expr} (h : L.ExprLike V e f) : L.strict.EndsLike True Eq (Bins.ofCall e) (Bins.ofCall f) := by
  cases h with
  | call callee arguments place =>
    simp only [Bins.ofCall, callee.name?_eq]
    split
    · cases arguments with
      | nil => exact .failAt place
      | cons count rest =>
        cases rest with
        | nil => exact .failAt place
        | cons low rest =>
          cases rest with
          | nil => exact .failAt place
          | cons high rest =>
            cases rest with
            | cons extra rest => exact .failAt place
            | nil =>
              simp only [count.literal?_eq]
              split
              · split
                · exact EndsLike.bind (.ok rfl) (bounds_like low high)
                · exact EndsLike.bind (.failAt count.span) (bounds_like low high)
              · exact EndsLike.bind (.failAt count.span) (bounds_like low high)
    · refine (literalEdges_like arguments).bind ?_
      rintro edges _ rfl
      have misplaced := misplaced?_like edges arguments
      generalize Bins.misplaced? _ = x at misplaced
      generalize Bins.misplaced? _ = y at misplaced
      split
      · exact .failAt place
      · cases misplaced with
        | none => exact .ok rfl
        | some e => exact .failAt e.span
    · exact .failAt place
  | literal _ place => exact .failAt place
  | name _ place => exact .failAt place
  | operator _ _ place => exact .failAt place
  | lambda _ _ place => exact .failAt place

/-! ### Nodes -/

theorem declare_like {ns ns' : Namespace} (h : L.NamespaceLike V ns ns') {m n : Name} (name : L.NameLike m n)
    {node node' : Node} (hnode : L.NodeLike V node node') :
    L.strict.EndsLike True (L.NamespaceLike V) (ns.declare m node) (ns'.declare n node') := by
  have taken : Dict.has ns m.text = Dict.has ns' m.text := by
    have found := h.get? m.text
    rw [Dict.has, Dict.has]
    generalize Dict.get? ns m.text = x at found
    generalize Dict.get? ns' m.text = y at found
    cases found <;> rfl
  rw [Namespace.declare, Namespace.declare, ← name.text, taken]
  split
  · exact .failAt name.place
  · exact .ok (h.insert _ hnode)

theorem wrap_like (path : Path) {node node' : Node} (hnode : L.NodeLike V node node') {as bs : List (Axis Expr)}
    (h : List.Forall₂ (L.AxisLike V) as bs) :
    L.strict.EndsLike True (L.NodeLike V) (Node.wrap path node as) (Node.wrap path node' bs) := by
  induction h with
  | nil => exact .ok hnode
  | cons first _ ih =>
    rw [Node.wrap, Node.wrap]
    refine ih.bind fun inner inner' hinner => (ofCall_like first.binning).bind ?_
    rintro bins _ rfl
    exact .ok (binned_like first.expression (fun name => hinner.zerosLike name) path)

theorem ofCollector_like {c d : Collector Expr} (h : L.CollectorLike V c d) {s t : Span} (place : L.span s t) :
    L.strict.EndsLike True (L.StorageLike V) (Storage.ofCollector c s) (Storage.ofCollector d t) := by
  obtain ⟨statistic, _, expression, _, _⟩ := h
  unfold Storage.ofCollector
  rw [← statistic]
  generalize c.expression = x at expression
  generalize d.expression = y at expression
  cases c.statistic with
  | count => exact .ok (.count .zero)
  | sum =>
    cases expression with
    | none => exact .failAt place
    | some e => exact .ok (.sum .zero e)
  | profile =>
    cases expression with
    | none => exact .failAt place
    | some e => exact .ok (.profile .zero e)
  | fraction =>
    cases expression with
    | none => exact .failAt place
    | some e => exact .ok (.fraction .zero e)

theorem declareVariations_like (path : Path) {block block' : Namespace} (hblock : L.NamespaceLike V block block')
    {vs ws : List (Variation Expr)} (h : List.Forall₂ (L.VariationLike V) vs ws) {ns ns' : Namespace}
    (hns : L.NamespaceLike V ns ns') :
    L.strict.EndsLike True (L.NamespaceLike V) (ns.declareVariations path block vs) (ns'.declareVariations path block' ws) := by
  induction h generalizing ns ns' with
  | nil => exact .ok hns
  | cons first _ ih =>
    rw [Namespace.declareVariations, Namespace.declareVariations, ← first.name.text]
    refine (declare_like hns first.name ?_).bind fun _ _ hnext => ih hnext
    exact .of_children _ (childrenLike_like _ hblock)

/-! ### Blocks -/

/-- Definitions declare nothing. -/
theorem declareBlock_starts {bs : List (Binding Expr)} {starts : List Statement}
    (h : List.Forall₂ (L.Defines V) bs starts) (path : Path) (ns : Namespace) (block : List Statement) :
    declareBlock path ns (starts ++ block) = declareBlock path ns block := by
  induction h with
  | nil => rfl
  | cons first _ ih =>
    cases first
    exact ih

/-- What is declared of one variation, and of the region that stands for it. -/
theorem declare_variation_like {block block' : List Statement}
    (hblock : ∀ path, L.strict.EndsLike True (L.NamespaceLike V) (declareBlock path [] block) (declareBlock path [] block'))
    (path : Path) {ns ns' : Namespace} (hns : L.NamespaceLike V ns ns') {v : Variation Expr} {n : Name}
    (name : L.NameLike v.name n) {starts : List Statement}
    (assignments : List.Forall₂ (L.Defines V) v.assignments starts) (t : Span) :
    L.strict.EndsLike True (L.NamespaceLike V)
      (declareBlock path [] block >>= fun inner => ns.declare v.name
        (.namespace (path ++ [field v.name.text]) (Node.childrenLike (path ++ [field v.name.text]) inner)))
      (Statement.declare path ns' (.region n none [] (starts ++ block') t)) := by
  have own := hblock (path ++ [field v.name.text])
  have renamed := declareBlock_childrenLike path (path ++ [field v.name.text]) block []
  rw [Node.childrenLike] at renamed
  rw [renamed] at own
  have declared := own.bind (f := fun inner => ns.declare v.name (.namespace (path ++ [field v.name.text]) inner))
    fun _ _ h => declare_like hns name (.of_children _ h)
  rw [Statement.declare, declareBlock_starts assignments, ← name.text]
  generalize declareBlock path [] block = x at declared ⊢
  cases x with
  | error stop => exact declared
  | ok inner => exact declared

/-- A block with one variation declares one copy. -/
theorem declareBlock_lastVariation (path : Path) (ns : Namespace) (v : Variation Expr) (block more : List Statement)
    (s : Span) :
    declareBlock path ns (.vary [v] block s :: more) =
      (declareBlock path [] block >>= fun inner => ns.declare v.name
          (.namespace (path ++ [field v.name.text]) (Node.childrenLike (path ++ [field v.name.text]) inner))) >>=
        fun ns => declareBlock path ns more := by
  rw [declareBlock, Statement.declare]
  cases declareBlock path [] block with
  | error stop => rfl
  | ok inner => exact congrArg (· >>= fun ns => declareBlock path ns more) (bind_pure (ns.declare v.name _))

/-- A block with several variations declares one copy, and then those of the others. -/
theorem declareBlock_nextVariation (path : Path) (ns : Namespace) (v : Variation Expr) (vs : List (Variation Expr))
    (block more : List Statement) (s : Span) :
    declareBlock path ns (.vary (v :: vs) block s :: more) =
      (declareBlock path [] block >>= fun inner => ns.declare v.name
          (.namespace (path ++ [field v.name.text]) (Node.childrenLike (path ++ [field v.name.text]) inner))) >>=
        fun ns => declareBlock path ns (.vary vs block s :: more) := by
  simp only [declareBlock, Statement.declare]
  cases declareBlock path [] block with
  | error stop => rfl
  | ok inner => exact bind_assoc (ns.declare v.name _) _ _

/-- Alike blocks declare alike trees. -/
theorem BlockLike.declare {block block' : List Statement} (h : L.BlockLike V block block') :
    ∀ (path : Path) {ns ns' : Namespace}, L.NamespaceLike V ns ns' →
      L.strict.EndsLike True (L.NamespaceLike V) (declareBlock path ns block) (declareBlock path ns' block') := by
  induction h with
  | nil =>
    intro path ns ns' hns
    exact .ok hns
  | define _ _ _ _ ih | function _ _ _ _ _ ih | result _ _ _ ih =>
    intro path ns ns' hns
    exact ih path hns
  | collect collector place rest ih =>
    intro path ns ns' hns
    rw [declareBlock, declareBlock, Statement.declare, Statement.declare, ← collector.name.text]
    refine EndsLike.bind ?_ fun _ _ h => ih path h
    refine (ofCollector_like collector place).bind fun content content' hcontent => ?_
    refine (wrap_like _ (.storage _ hcontent) collector.axes).bind fun node node' hnode => ?_
    exact declare_like hns collector.name hnode
  | loop bindings inner place rest ihinner ih =>
    intro path ns ns' hns
    rw [declareBlock, declareBlock, Statement.declare, Statement.declare]
    exact (ihinner path hns).bind fun _ _ h => ih path h
  | vary variations inner place rest ihinner ih =>
    intro path ns ns' hns
    rw [declareBlock, declareBlock, Statement.declare, Statement.declare]
    refine EndsLike.bind ?_ fun _ _ h => ih path h
    exact (ihinner path .nil).bind fun _ _ h => declareVariations_like path h variations hns
  | region name predicate axes inner place rest ihinner ih =>
    intro path ns ns' hns
    rw [declareBlock, declareBlock, Statement.declare, Statement.declare, ← name.text]
    refine EndsLike.bind ?_ fun _ _ h => ih path h
    refine (ihinner _ .nil).bind fun children children' hchildren => ?_
    refine (wrap_like _ (.of_children _ hchildren) axes).bind fun node node' hnode => ?_
    exact declare_like hns name hnode
  | source inclusive patterns inner place rest ihinner ih =>
    intro path ns ns' hns
    rw [declareBlock, declareBlock, Statement.declare, Statement.declare]
    exact (ihinner path hns).bind fun _ _ h => ih path h
  | lastRegion allowed few name assignments inner rest ihinner ih =>
    intro path ns ns' hns
    have region := declare_variation_like (fun path => ihinner path .nil) path hns name assignments
    rw [declareBlock_lastVariation, declareBlock]
    exact (region _).bind fun _ _ h => ih path h
  | nextRegion allowed few name assignments inner others ihinner ih =>
    intro path ns ns' hns
    have region := declare_variation_like (fun path => ihinner path .nil) path hns name assignments
    rw [declareBlock_nextVariation, declareBlock]
    exact (region _).bind fun _ _ h => ih path h

end Likeness
end RecordStats
