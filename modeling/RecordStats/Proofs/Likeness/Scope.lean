import RecordStats.Proofs.Likeness.Value
import RecordStats.Proofs.Record.Bindings

/-! Alike scopes stay alike when alike values are bound in them, and functions made in them have taken alike values
    with them. -/

namespace RecordStats

/-! ### Frames in order -/

namespace Scope

variable {s : Scope}

theorem Ordered.own (h : s.Ordered) : s.own.bindings.Sorted := h _ List.mem_cons_self

theorem Ordered.define (h : s.Ordered) (name : String) (v : Value) : (s.define name v).Ordered :=
  List.forall_mem_cons.mpr ⟨Dict.sorted_insert h.own name v, fun f hf => h f (List.mem_cons_of_mem _ hf)⟩

theorem Ordered.defineFunction (h : s.Ordered) (name : String) (v : Value) : (s.defineFunction name v).Ordered :=
  List.forall_mem_cons.mpr ⟨Dict.sorted_insert h.own name v, fun f hf => h f (List.mem_cons_of_mem _ hf)⟩

theorem Ordered.child (h : s.Ordered) : s.child.Ordered :=
  List.forall_mem_cons.mpr ⟨Dict.sorted_nil, h⟩

theorem ordered_above (env : Env Value) (base : Origin) : (above env base).Ordered :=
  List.forall_mem_singleton.mpr Dict.sorted_nil

theorem ordered_root (standing : Dict Value) (data : List (String × Value)) : (root standing data).Ordered :=
  List.forall_mem_singleton.mpr (Dict.sorted_union Dict.sorted_nil data)

theorem get?_flatten {frames : List Frame} (h : ∀ f ∈ frames, f.bindings.Sorted) (under : Dict Value) (name : String) :
    (flatten frames under).get? name = (framesGet? frames name).or (under.get? name) := by
  induction frames with
  | nil => rfl
  | cons f rest ih =>
    obtain ⟨hf, hrest⟩ := List.forall_mem_cons.mp h
    have step : flatten (f :: rest) under = (flatten rest under).union f.bindings := rfl
    rw [step, Dict.get?_union hf, ih hrest, framesGet?]
    cases f.bindings.get? name <;> rfl

/-- What a function takes with it is what names mean where it is made. -/
theorem get?_freeze (h : s.Ordered) (name : String) : s.freeze.get? name = s.get? name := by
  rw [freeze_eq_flattened, Env.get?, get?, flattened, get?_flatten h, Env.get?]
  cases framesGet? (s.own :: s.outer) name <;> rfl

end Scope

namespace Likeness

variable {L : Likeness} {V : String → Prop} {s t : Scope}

/-! ### What is visible -/

namespace SightLike

/-- Functions made in alike scopes from alike texts. -/
theorem closure (h : L.SightLike V s t) (origin : Origin) (name : Option String) {ps qs : List Name}
    {body body' : List Statement} (parameters : List.Forall₂ L.NameLike ps qs) (inner : L.BodyLike V body body') :
    L.ValueLike (.function (.closure origin name ⟨ps, body⟩ s.freeze))
      (.function (.closure origin name ⟨qs, body'⟩ t.freeze)) := by
  refine .closure origin name V h.named parameters inner (fun x hx => ?_) fun same => ?_
  · rw [Scope.get?_freeze h.ordered.1, Scope.get?_freeze h.ordered.2]
    exact h.seen x hx
  · rw [h.same same]

/-- What a new frame is put on top of what is visible hides nothing. -/
theorem child_right (apart : ¬L.same) (h : L.SightLike V s t) : L.SightLike V s t.child :=
  { h with same := (apart · |>.elim), ordered := ⟨h.ordered.1, h.ordered.2.child⟩ }

end SightLike

/-! ### Bindings -/

namespace ScopeLike

theorem child (h : L.ScopeLike V s t) : L.ScopeLike V s.child t.child :=
  { h with
    same := fun same => congrArg Scope.child (h.same same)
    own := fun _ _ => .none
    functions := rfl
    ordered := ⟨h.ordered.1.child, h.ordered.2.child⟩ }

theorem place_eq (h : L.ScopeLike V s t) : s.place = t.place := by
  rw [Scope.place, Scope.place, h.base, h.made]

theorem insert_like {d e : Dict Value} {v w : Value} (name : String)
    (h : ∀ x, V x → Option.Rel L.ValueLike (d.get? x) (e.get? x)) (hv : L.ValueLike v w) :
    ∀ x, V x → Option.Rel L.ValueLike ((d.insert name v).get? x) ((e.insert name w).get? x) := by
  intro x hx
  rw [Dict.get?_insert, Dict.get?_insert]
  split
  · exact .some hv
  · exact h x hx

theorem define (h : L.ScopeLike V s t) (name : String) {v w : Value} (hv : L.ValueLike v w) :
    L.ScopeLike V (s.define name v) (t.define name w) where
  named := h.named
  same := fun same => by rw [h.same same, hv.eq same]
  seen := fun x hx => by
    rw [Scope.get?_define, Scope.get?_define]
    split
    · exact .some hv
    · exact h.seen x hx
  base := h.base
  made := congrArg (· + 1) h.made
  ordered := ⟨h.ordered.1.define name v, h.ordered.2.define name w⟩
  own := insert_like name h.own hv
  functions := congrArg (List.filter _) h.functions

theorem defineFunction (h : L.ScopeLike V s t) (name : String) {v w : Value} (hv : L.ValueLike v w) :
    L.ScopeLike V (s.defineFunction name v) (t.defineFunction name w) where
  named := h.named
  same := fun same => by rw [h.same same, hv.eq same]
  seen := fun x hx => by
    rw [Scope.get?_defineFunction, Scope.get?_defineFunction]
    split
    · exact .some hv
    · exact h.seen x hx
  base := h.base
  made := congrArg (· + 1) h.made
  ordered := ⟨h.ordered.1.defineFunction name v, h.ordered.2.defineFunction name w⟩
  own := insert_like name h.own hv
  functions := congrArg (fun fs => name :: List.filter (· ≠ name) fs) h.functions

theorem defineAll (h : L.ScopeLike V s t) {row row' : List (String × Value)} (hrow : L.FieldsLike row row') :
    L.ScopeLike V (s.defineAll row) (t.defineAll row') := by
  unfold Scope.defineAll
  induction hrow generalizing s t with
  | nil => exact h
  | @cons b c _ _ first _ ih =>
    obtain ⟨hname, hvalue⟩ := first
    rw [List.foldl_cons, List.foldl_cons, ← hname]
    exact ih (h.define b.1 hvalue)

/-- The scopes of two calls. -/
theorem above {env env' : Env Value} (named : ∀ x, L.named x → V x)
    (same : L.same → env = env') (h : ∀ x, V x → Option.Rel L.ValueLike (env.get? x) (env'.get? x)) (base : Origin) :
    L.ScopeLike V (Scope.above env base) (Scope.above env' base) where
  named := named
  same := fun h => by rw [same h]
  seen := h
  base := rfl
  made := rfl
  ordered := ⟨Scope.ordered_above env base, Scope.ordered_above env' base⟩
  own := fun _ _ => .none
  functions := rfl

end ScopeLike

end Likeness
end RecordStats
