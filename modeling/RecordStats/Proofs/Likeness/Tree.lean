import RecordStats.Proofs.Likeness.Call
import RecordStats.Proofs.Tree.Placed
import RecordStats.Record.Statement

/-! Alike trees: the same names, bins and totals, with alike expressions in them. Copies and filled trees are alike
    again, and records that evaluate alike reach the same storage in them. -/

namespace RecordStats
namespace Likeness

variable (L : Likeness)

/-- The totals are the same, of alike expressions. -/
inductive StorageLike (V : String → Prop) : Storage → Storage → Prop where
  | count (totals : Count Float) : StorageLike V (.count totals) (.count totals)
  | sum {e f : Expr} (totals : Sum Float) (measured : L.ExprLike V e f) : StorageLike V (.sum e totals) (.sum f totals)
  | profile {e f : Expr} (totals : Profile Float) (measured : L.ExprLike V e f) :
      StorageLike V (.profile e totals) (.profile f totals)
  | fraction {e f : Expr} (totals : Fraction Float) (measured : L.ExprLike V e f) :
      StorageLike V (.fraction e totals) (.fraction f totals)

/-- The nodes have the same names and bins all the way down, alike expressions and alike storages. -/
inductive NodeLike (V : String → Prop) : Node → Node → Prop where
  | namespace (name : Path) {cs ds : List (String × Node)} (keys : cs.map Prod.fst = ds.map Prod.fst)
      (children : List.Forall₂ (NodeLike V) (cs.map Prod.snd) (ds.map Prod.snd)) :
      NodeLike V (.namespace name cs) (.namespace name ds)
  | binning (name : Path) (bins : Bins Float) {a a' : Expr} {vs ws : List Node} {u u' o o' v v' : Node}
      (axis : L.ExprLike V a a') (values : List.Forall₂ (NodeLike V) vs ws) (underflow : NodeLike V u u')
      (overflow : NodeLike V o o') (nanflow : NodeLike V v v') :
      NodeLike V (.binning name bins a vs u o v) (.binning name bins a' ws u' o' v')
  | storage (name : Path) {content content' : Storage} (content_like : L.StorageLike V content content') :
      NodeLike V (.storage name content) (.storage name content')

/-- The namespaces have alike children under the same names. -/
abbrev NamespaceLike (V : String → Prop) : Namespace → Namespace → Prop := PairsLike (L.NodeLike V)

variable {L} {V : String → Prop} {ns ns' : Namespace}

theorem NodeLike.of_children (name : Path) (h : L.NamespaceLike V ns ns') :
    L.NodeLike V (.namespace name ns) (.namespace name ns') :=
  .namespace name (PairsLike.iff_keys.mp h).1 (PairsLike.iff_keys.mp h).2

/-! ### Finding nodes -/

theorem entry_like (h : L.NamespaceLike V ns ns') {a b : Name} (hname : L.NameLike a b) :
    L.EndsLike True (L.NodeLike V) (ns.entry a) (ns'.entry b) := by
  have found := h.get? a.text
  rw [Namespace.entry, Namespace.entry, ← hname.text]
  generalize Dict.get? ns a.text = x at found
  generalize Dict.get? ns' a.text = y at found
  cases found with
  | none => exact .failAt hname.place
  | some found => exact .ok found

theorem NodeLike.children {node node' : Node} (h : L.NodeLike V node node') (cause : Cause) {s t : Span}
    (place : L.span s t) : L.EndsLike True (L.NamespaceLike V) (node.children cause s) (node'.children cause t) := by
  cases h with
  | «namespace» name keys children => exact .ok (PairsLike.iff_keys.mpr ⟨keys, children⟩)
  | binning => exact .failAt place
  | storage => exact .failAt place

variable {call call' : Caller} {scope scope' : Scope}

theorem slot_like (hcall : L.CallerLike call call') (hscope : L.SightLike V scope scope') (bins : Bins Float)
    {a a' : Expr} (axis : L.ExprLike V a a') :
    L.EndsLike True Eq (bins.slot call scope a) (bins.slot call' scope' a') := by
  refine (scope_evaluate_like hcall hscope axis).bind fun v w hv => ?_
  rw [hv.number?_eq, hv.text_eq]
  split
  · exact .ok rfl
  · exact .failAt axis.span

theorem StorageLike.sample (hcall : L.CallerLike call call') (hscope : L.SightLike V scope scope')
    {content content' : Storage} (h : L.StorageLike V content content') :
    L.EndsLike True Eq (content.sample call scope) (content'.sample call' scope') := by
  cases h with
  | count totals => exact .ok rfl
  | sum totals measured | profile totals measured =>
    refine (scope_evaluate_like hcall hscope measured).bind fun v w hv => ?_
    rw [hv.number?_eq, hv.text_eq]
    split
    · exact .ok rfl
    · exact .failAt measured.span
  | fraction totals measured =>
    refine (scope_evaluate_like hcall hscope measured).bind fun v w hv => ?_
    have text := hv.text_eq
    cases hv with
    | boolean b => exact .ok rfl
    | _ =>
      simp only [text]
      exact .failAt measured.span

theorem inSlot_like {vs ws : List Node} {u u' o o' v v' : Node} (values : List.Forall₂ (L.NodeLike V) vs ws)
    (underflow : L.NodeLike V u u') (overflow : L.NodeLike V o o') (nanflow : L.NodeLike V v v') (slot : Slot) :
    L.EndsLike True (L.NodeLike V) (Node.inSlot vs u o v slot) (Node.inSlot ws u' o' v' slot) := by
  cases slot with
  | bin i =>
    have found := getElem?_rel values i
    rw [Node.inSlot, Node.inSlot]
    generalize vs[i]? = x at found
    generalize ws[i]? = y at found
    cases found with
    | none => exact .failInternal rfl
    | some found => exact .ok found
  | underflow => exact .ok underflow
  | overflow => exact .ok overflow
  | nanflow => exact .ok nanflow

/-- Through some binnings a record reaches the same place in both trees. -/
theorem NodeLike.descend (hcall : L.CallerLike call call') (hscope : L.SightLike V scope scope') {s t : Span}
    (place : L.span s t) (axes : Nat) (path : Path) {node node' : Node} (h : L.NodeLike V node node') :
    L.EndsLike True (fun p q => p.1 = q.1 ∧ L.NodeLike V p.2 q.2) (node.descend call scope s path axes)
      (node'.descend call' scope' t path axes) := by
  induction axes generalizing path node node' with
  | zero =>
    rw [Node.descend, Node.descend]
    exact .ok ⟨rfl, h⟩
  | succ axes ih =>
    cases h with
    | binning name bins axis values underflow overflow nanflow =>
      rw [Node.descend, Node.descend]
      refine (slot_like hcall hscope bins axis).bind ?_
      rintro slot _ rfl
      exact (inSlot_like values underflow overflow nanflow slot).bind fun next next' hnext => ih _ hnext
    | _ => exact .failAt place

mutual

/-- A record reaches the same storage in both trees, and it measures the same. -/
theorem NodeLike.target (hcall : L.CallerLike call call') (hscope : L.SightLike V scope scope') :
    ∀ {node node' : Node} (path : Path), L.NodeLike V node node' →
      L.EndsLike True Eq (node.target call scope path) (node'.target call' scope' path)
  | .storage _ content, _, path, h => by
    cases h with
    | storage name content_like =>
      rw [Node.target, Node.target]
      refine (content_like.sample hcall hscope).bind ?_
      rintro sample _ rfl
      exact .ok rfl
  | .binning _ bins _ vs u o v, _, path, h => by
    cases h with
    | binning name _ axis values underflow overflow nanflow =>
      rw [Node.target, Node.target]
      refine (slot_like hcall hscope bins axis).bind ?_
      rintro slot _ rfl
      cases slot with
      | bin i => exact targetNth_like hcall hscope _ _ i values
      | underflow => exact NodeLike.target hcall hscope _ underflow
      | overflow => exact NodeLike.target hcall hscope _ overflow
      | nanflow => exact NodeLike.target hcall hscope _ nanflow
  | .namespace _ _, _, path, h => by
    cases h with
    | «namespace» name keys children =>
      rw [Node.target, Node.target]
      exact .failInternal rfl

theorem targetNth_like (hcall : L.CallerLike call call') (hscope : L.SightLike V scope scope') :
    ∀ {vs ws : List Node} (path : Path) (slot : Slot) (i : Nat), List.Forall₂ (L.NodeLike V) vs ws →
      L.EndsLike True Eq (Node.targetNth call scope path slot i vs) (Node.targetNth call' scope' path slot i ws)
  | [], _, path, slot, i, h => by
    cases h
    exact .failInternal rfl
  | node :: rest, _, path, slot, i, h => by
    cases h with
    | cons first more =>
      cases i with
      | zero =>
        rw [Node.targetNth, Node.targetNth]
        exact NodeLike.target hcall hscope path first
      | succ i =>
        rw [Node.targetNth, Node.targetNth]
        exact targetNth_like hcall hscope path slot i more

end

/-! ### Copies -/

theorem StorageLike.zero {content content' : Storage} (h : L.StorageLike V content content') :
    L.StorageLike V content.zero content'.zero := by
  cases h with
  | count totals => exact .count _
  | sum totals measured => exact .sum _ measured
  | profile totals measured => exact .profile _ measured
  | fraction totals measured => exact .fraction _ measured

theorem binned_like {bins : Bins Float} {a a' : Expr} {template template' : Node} (axis : L.ExprLike V a a')
    (copies : ∀ name, L.NodeLike V (template.zerosLike name) (template'.zerosLike name)) (name : Path) :
    L.NodeLike V (Node.binned name bins a template) (Node.binned name bins a' template') := by
  rw [Node.binned_eq, Node.binned_eq]
  refine .binning name bins axis ?_ (copies _) (copies _) (copies _)
  exact List.forall₂_map_left_iff.mpr (List.forall₂_map_right_iff.mpr (List.forall₂_same.mpr fun _ _ => copies _))

mutual

/-- Copies of alike nodes under one name. -/
theorem NodeLike.zerosLike : ∀ {node node' : Node} (name : Path), L.NodeLike V node node' →
    L.NodeLike V (node.zerosLike name) (node'.zerosLike name)
  | .namespace _ cs, _, name, h => by
    cases h with
    | «namespace» _ keys children =>
      rw [Node.zerosLike, Node.zerosLike]
      exact .of_children name (childrenLike_like name (PairsLike.iff_keys.mpr ⟨keys, children⟩))
  | .binning _ bins _ vs u o v, _, name, h => by
    cases h with
    | binning _ _ axis values underflow overflow nanflow =>
      rw [Node.zerosLike_binning, Node.zerosLike_binning]
      exact binned_like axis (fun name => NodeLike.zerosLike name nanflow) name
  | .storage _ content, _, name, h => by
    cases h with
    | storage _ content_like =>
      rw [Node.zerosLike, Node.zerosLike]
      exact .storage name content_like.zero

theorem childrenLike_like : ∀ {cs ds : List (String × Node)} (name : Path), L.NamespaceLike V cs ds →
    L.NamespaceLike V (Node.childrenLike name cs) (Node.childrenLike name ds)
  | [], _, name, h => by
    cases h
    exact .nil
  | (key, node) :: rest, (_, _) :: _, name, h => by
    cases h with
    | cons first more =>
      obtain ⟨rfl, first⟩ := first
      rw [Node.childrenLike, Node.childrenLike]
      exact .cons ⟨rfl, NodeLike.zerosLike _ first⟩ (childrenLike_like name more)

end

/-! ### Entries -/

theorem StorageLike.fill {content content' : Storage} (h : L.StorageLike V content content') (w : Float)
    (sample : Sample) : L.StorageLike V (content.fill w sample) (content'.fill w sample) := by
  cases h with
  | count totals => cases sample <;> exact .count _
  | sum totals measured => cases sample <;> exact .sum _ measured
  | profile totals measured => cases sample <;> exact .profile _ measured
  | fraction totals measured => cases sample <;> exact .fraction _ measured

variable (w : Float) (sample : Sample)

mutual

/-- An entry in the same storage of both trees. -/
theorem NodeLike.modifyAt : ∀ {node node' : Node} (path : Path), L.NodeLike V node node' →
    L.NodeLike V (node.modifyAt (fun s => s.fill w sample) path) (node'.modifyAt (fun s => s.fill w sample) path)
  | .storage name content, _, path, h => by
    cases h with
    | storage _ content_like =>
      cases path with
      | nil =>
        rw [Node.modifyAt, Node.modifyAt]
        exact .storage name (content_like.fill w sample)
      | cons step rest => cases step <;> exact .storage name content_like
  | .namespace name cs, _, path, h => by
    cases h with
    | «namespace» _ keys children =>
      have pairs : L.NamespaceLike V cs _ := PairsLike.iff_keys.mpr ⟨keys, children⟩
      cases path with
      | nil => exact .namespace name keys children
      | cons step rest =>
        cases step with
        | field key =>
          rw [Node.modifyAt, Node.modifyAt]
          exact .of_children name (modifyChild_like key rest pairs)
        | index n => exact .namespace name keys children
  | .binning name bins _ vs u o v, _, path, h => by
    cases h with
    | binning _ _ axis values underflow overflow nanflow =>
      cases path with
      | nil => exact .binning name bins axis values underflow overflow nanflow
      | cons step rest =>
        cases step with
        | field key =>
          unfold Node.modifyAt
          split
          · exact .binning name bins axis values (NodeLike.modifyAt rest underflow) overflow nanflow
          · exact .binning name bins axis values underflow (NodeLike.modifyAt rest overflow) nanflow
          · exact .binning name bins axis values underflow overflow (NodeLike.modifyAt rest nanflow)
          · exact .binning name bins axis values underflow overflow nanflow
        | index n =>
          rw [Node.modifyAt, Node.modifyAt, values.length_eq]
          split
          · exact .binning name bins axis values (NodeLike.modifyAt rest underflow) overflow nanflow
          · split
            · exact .binning name bins axis (modifyNth_like _ rest values) underflow overflow nanflow
            · exact .binning name bins axis values underflow (NodeLike.modifyAt rest overflow) nanflow

theorem modifyChild_like (key : String) (path : Path) : ∀ {cs ds : List (String × Node)}, L.NamespaceLike V cs ds →
    L.NamespaceLike V (Node.modifyChild (fun s => s.fill w sample) key path cs)
      (Node.modifyChild (fun s => s.fill w sample) key path ds)
  | [], _, h => by
    cases h
    exact .nil
  | (k, node) :: rest, (_, _) :: _, h => by
    cases h with
    | cons first more =>
      obtain ⟨rfl, first⟩ := first
      rw [Node.modifyChild, Node.modifyChild]
      split
      · exact .cons ⟨rfl, NodeLike.modifyAt path first⟩ more
      · exact .cons ⟨rfl, first⟩ (modifyChild_like key path more)

theorem modifyNth_like : ∀ {vs ws : List Node} (i : Nat) (path : Path), List.Forall₂ (L.NodeLike V) vs ws →
    List.Forall₂ (L.NodeLike V) (Node.modifyNth (fun s => s.fill w sample) i path vs)
      (Node.modifyNth (fun s => s.fill w sample) i path ws)
  | [], _, i, path, h => by
    cases h
    cases i <;> exact .nil
  | node :: rest, _ :: _, i, path, .cons first more => by
    cases i with
    | zero =>
      rw [Node.modifyNth, Node.modifyNth]
      exact .cons (NodeLike.modifyAt path first) more
    | succ i =>
      rw [Node.modifyNth, Node.modifyNth]
      exact .cons first (modifyNth_like i path more)

end

omit w sample

theorem fillAll_like (h : L.NamespaceLike V ns ns') (fills : List Fill) :
    L.NamespaceLike V (ns.fillAll fills) (ns'.fillAll fills) := by
  unfold Namespace.fillAll
  induction fills generalizing ns ns' with
  | nil => exact h
  | cons f rest ih =>
    refine ih ?_
    unfold Fill.apply
    split
    · exact modifyChild_like _ _ _ _ h
    · exact h

/-! ### Places -/

mutual

/-- What is like a placed node is placed. -/
theorem NodeLike.placed : ∀ {node node' : Node} {name : Path}, L.NodeLike V node node' → node.Placed name →
    node'.Placed name
  | .storage _ content, _, name, h, placed => by
    cases h with
    | storage => exact placed
  | .namespace _ cs, _, name, h, ⟨own, sorted, placed⟩ => by
    cases h with
    | «namespace» _ keys children =>
      have pairs : L.NamespaceLike V cs _ := PairsLike.iff_keys.mpr ⟨keys, children⟩
      refine ⟨own, ?_, placedChildren_like pairs placed⟩
      rwa [Dict.sorted_iff_names, Dict.names, ← keys, ← Dict.names, ← Dict.sorted_iff_names]
  | .binning _ bins _ vs u o v, _, name, h, ⟨own, length, few, hvalues, hu, ho, hv⟩ => by
    cases h with
    | binning _ _ axis values underflow overflow nanflow =>
      refine ⟨own, values.length_eq ▸ length, few, placedValues_like values hvalues, ?_, ?_, ?_⟩
      · exact NodeLike.placed underflow hu
      · exact NodeLike.placed overflow ho
      · exact NodeLike.placed nanflow hv

theorem placedChildren_like : ∀ {cs ds : List (String × Node)} {name : Path}, L.NamespaceLike V cs ds →
    Node.PlacedChildren name cs → Node.PlacedChildren name ds
  | [], _, name, h, placed => by
    cases h
    exact placed
  | (_, node) :: rest, (_, _) :: _, name, h, ⟨hfirst, hmore⟩ => by
    cases h with
    | cons first more =>
      obtain ⟨rfl, first⟩ := first
      exact ⟨NodeLike.placed first hfirst, placedChildren_like more hmore⟩

theorem placedValues_like : ∀ {vs ws : List Node} {name : Path} {i : Nat}, List.Forall₂ (L.NodeLike V) vs ws →
    Node.PlacedValues name i vs → Node.PlacedValues name i ws
  | [], _, name, i, h, placed => by
    cases h
    exact placed
  | node :: rest, _ :: _, name, i, .cons first more, ⟨hfirst, hmore⟩ =>
    ⟨NodeLike.placed first hfirst, placedValues_like more hmore⟩

end

end Likeness
end RecordStats
