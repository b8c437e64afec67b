import RecordStats.Proofs.Tree.Placed
import RecordStats.Record.Execution

/-! Actions in place and traces as data say the same. A trace is computed from the structure of the tree
    alone, and an action does to the tree just what the fills of its trace do, one after another. The fact is
    put together along the actions: for a step followed by another here, for steps down into the tree next. -/

namespace RecordStats

/-! ### Parts of the tree -/

/-- A fill as it is seen from a part further up, which the path leads down from. -/
def Fill.below (path : Path) (f : Fill) : Fill := { f with path := path ++ f.path }

/-- The tree has parts of two kinds, nodes and the children of a namespace. Both can be emptied and filled,
    and filling changes entries only. A part is indexed when each of its bins has an index of its own. -/
class Part (σ : Type) where
  emptied : σ → σ
  fill : σ → Fill → σ
  Indexed : σ → Prop
  emptied_fill : ∀ s f, emptied (fill s f) = emptied s
  indexed_iff : ∀ s, Indexed (emptied s) ↔ Indexed s

instance : Part Node where
  emptied := Node.emptied
  fill := fun node f => node.modifyAt (fun s => s.fill f.weight f.sample) f.path
  Indexed := fun node => ∃ name, Node.Placed name node
  emptied_fill := fun node f => Node.emptied_modifyAt (fun s => s.zero_fill f.weight f.sample) f.path node
  indexed_iff := fun node => exists_congr fun _ => Node.placed_emptied node

theorem Fill.emptied_apply (tree : Namespace) (f : Fill) :
    Node.emptiedChildren (f.apply tree) = Node.emptiedChildren tree := by
  unfold Fill.apply
  split
  · exact Node.emptied_modifyChild (fun s => s.zero_fill f.weight f.sample) _ _ tree
  · rfl

instance : Part Namespace where
  emptied := Node.emptiedChildren
  fill := Fill.apply
  Indexed := fun ns => ∃ name, Node.PlacedChildren name ns
  emptied_fill := Fill.emptied_apply
  indexed_iff := fun ns => exists_congr fun _ => Node.placed_emptiedChildren ns

namespace Part

variable {σ : Type} [Part σ]

/-- A part after some entries in order. -/
def fillAll (s : σ) (fills : List Fill) : σ := fills.foldl fill s

theorem fillAll_append (s : σ) (fills more : List Fill) :
    fillAll s (fills ++ more) = fillAll (fillAll s fills) more := List.foldl_append

theorem indexed_congr {s t : σ} (h : emptied s = emptied t) : Indexed s ↔ Indexed t := by
  rw [← indexed_iff s, h, indexed_iff]

end Part

/-! ### Traces one after another -/

namespace Trace

variable {α β : Type}

theorem bind_ok {t : Trace α} {a : α} (h : t.outcome = .ok a) (next : α → Trace β) :
    t >>= next = ⟨t.fills ++ (next a).fills, (next a).outcome⟩ := by
  show Trace.bind t next = _
  rw [Trace.bind, h]

theorem bind_error {t : Trace α} {stop : Stop} (h : t.outcome = .error stop) (next : α → Trace β) :
    t >>= next = ⟨t.fills, .error stop⟩ := by
  show Trace.bind t next = _
  rw [Trace.bind, h]

theorem ofOutcome_bind_ok {o : Outcome α} {a : α} (h : o = .ok a) (next : α → Trace β) :
    ofOutcome o >>= next = next a := by
  rw [bind_ok h]
  rfl

theorem ofOutcome_bind_error {o : Outcome α} {stop : Stop} (h : o = .error stop) (next : α → Trace β) :
    ofOutcome o >>= next = ofOutcome (.error stop) := by
  rw [bind_error h]
  rfl

theorem bind_assoc {γ : Type} (t : Trace α) (f : α → Trace β) (g : β → Trace γ) :
    t >>= f >>= g = t >>= fun a => f a >>= g := by
  cases ht : t.outcome with
  | error stop => rw [bind_error ht, bind_error ht, bind_error rfl]
  | ok a =>
    rw [bind_ok ht, bind_ok ht]
    cases hf : (f a).outcome with
    | error stop => rw [bind_error hf, bind_error rfl]
    | ok b => rw [bind_ok hf, bind_ok rfl, List.append_assoc]

theorem bind_pure (t : Trace α) : t >>= pure = t := by
  cases ht : t.outcome with
  | error stop =>
    rw [bind_error ht, ← ht]
  | ok a =>
    rw [bind_ok ht]
    show Trace.mk (t.fills ++ []) (.ok a) = t
    rw [List.append_nil, ← ht]

theorem fills_bind_pure (t : Trace α) (b : β) : (t >>= fun _ => pure b).fills = t.fills := by
  cases ht : t.outcome with
  | error stop => rw [bind_error ht]
  | ok a =>
    rw [bind_ok ht]
    exact List.append_nil _

/-- What is filled is filled by the first step, or by what comes after it. -/
theorem mem_fills_bind {t : Trace α} {next : α → Trace β} {f : Fill} (h : f ∈ (t >>= next).fills) :
    f ∈ t.fills ∨ ∃ a, t.outcome = .ok a ∧ f ∈ (next a).fills := by
  cases ht : t.outcome with
  | error stop =>
    rw [bind_error ht] at h
    exact .inl h
  | ok a =>
    rw [bind_ok ht] at h
    exact (List.mem_append.mp h).imp id fun h => ⟨a, rfl, h⟩

theorem mem_fills_ofOutcome_bind {o : Outcome α} {next : α → Trace β} {f : Fill}
    (h : f ∈ (ofOutcome o >>= next).fills) : ∃ a, o = .ok a ∧ f ∈ (next a).fills :=
  (mem_fills_bind h).resolve_left List.not_mem_nil

/-- Outcomes can be put together before or after they are taken as traces. -/
theorem ofOutcome_bind (o : Outcome α) (f : α → Outcome β) :
    ofOutcome (o >>= f) = ofOutcome o >>= fun a => ofOutcome (f a) := by
  cases o <;> rfl

end Trace

section

variable {call : Caller} {tag : Option String}

theorem runBlock_append (path : Path) (ns : Namespace) (scope : Scope) (earlier later : List Statement) :
    runBlock call tag path ns scope (earlier ++ later) =
      runBlock call tag path ns scope earlier >>= fun scope => runBlock call tag path ns scope later := by
  induction earlier generalizing scope with
  | nil => rfl
  | cons s rest ih => simp only [List.cons_append, runBlock, ih, Trace.bind_assoc]

/-- Variations are met one after another, each in the same scope and on the same namespace. -/
theorem runVariations_append {block : Path → Namespace → Scope → Trace Scope} (path : Path) (ns : Namespace)
    (scope : Scope) (earlier later : List (Variation Expr)) :
    runVariations call block path ns scope (earlier ++ later) =
      runVariations call block path ns scope earlier >>= fun _ => runVariations call block path ns scope later := by
  induction earlier with
  | nil => rfl
  | cons v rest ih => simp only [List.cons_append, runVariations, ih, Trace.bind_assoc]

end

/-! ### Actions with their traces -/

section

variable {σ α β : Type} [Part σ]

open RecordStats.Part

/-- On the part `s` an action does what its trace tells. The trace is the same without entries; further up
    only the paths are longer. -/
structure Performs (act : Action σ α) (trace : Path → σ → Trace α) (s : σ) : Prop where
  outcome : ∀ path, (act s).1 = (trace path s).outcome
  shape : emptied (act s).2 = emptied s
  blind : ∀ path, trace path (emptied s) = trace path s
  below : ∀ path, (trace path s).fills = (trace [] s).fills.map (Fill.below path)
  fills : Indexed s → (act s).2 = fillAll s (trace [] s).fills

namespace Performs

variable {act : Action σ α} {trace : Path → σ → Trace α} {next : α → Action σ β}
  {after : α → Path → σ → Trace β} {s : σ}

theorem congr_act {other : Action σ α} (h : Performs act trace s) (heq : other s = act s) :
    Performs other trace s where
  outcome := fun path => by rw [heq, h.outcome path]
  shape := by rw [heq, h.shape]
  blind := h.blind
  below := h.below
  fills := fun hs => by rw [heq, h.fills hs]

theorem congr_trace {other : Path → σ → Trace α} (h : Performs act trace s)
    (hs : ∀ path, other path s = trace path s)
    (he : ∀ path, other path (emptied s) = trace path (emptied s)) : Performs act other s where
  outcome := fun path => by rw [h.outcome path, hs]
  shape := h.shape
  blind := fun path => by rw [he, h.blind, hs]
  below := fun path => by rw [hs, h.below, hs]
  fills := fun hi => by rw [h.fills hi, hs]

/-- An outcome changes nothing. -/
theorem ofOutcome (o : Outcome α) : Performs (.ofOutcome o) (fun _ _ => .ofOutcome o) s where
  outcome := fun _ => rfl
  shape := rfl
  blind := fun _ => rfl
  below := fun _ => rfl
  fills := fun _ => rfl

/-- An action that fails at once changes nothing. -/
theorem stopped {stop : Stop} (hact : act s = (.error stop, s))
    (hs : ∀ path, trace path s = .ofOutcome (.error stop))
    (he : ∀ path, trace path (emptied s) = .ofOutcome (.error stop)) : Performs act trace s :=
  ((ofOutcome (.error stop)).congr_act hact).congr_trace hs he

theorem pure (a : α) : Performs (Pure.pure a) (fun _ _ => Pure.pure a) s := ofOutcome (.ok a)

/-- The second step meets the part that the first one has left, while its trace is of the part as it was. -/
theorem bind (h : Performs act trace s) (hn : ∀ a t, Performs (next a) (after a) t) :
    Performs (act >>= next) (fun path s => trace path s >>= fun a => after a path s) s := by
  have same : ∀ a path, after a path (act s).2 = after a path s := fun a path => by
    rw [← (hn a _).blind path, h.shape, (hn a s).blind path]
  have blind : ∀ path, (trace path (emptied s) >>= fun a => after a path (emptied s)) =
      (trace path s >>= fun a => after a path s) := fun path => by
    simp only [h.blind path, (hn _ s).blind path]
  cases hact : act s with
  | mk o t =>
    rw [hact] at same
    have shape := h.shape
    have out := h.outcome
    have fills := h.fills
    rw [hact] at shape out fills
    cases o with
    | error stop =>
      have run : (act >>= next) s = (.error stop, t) := by
        show Action.bind act next s = _
        rw [Action.bind, hact]
      have told : ∀ path, (trace path s >>= fun a => after a path s) = ⟨(trace path s).fills, .error stop⟩ :=
        fun path => Trace.bind_error (out path).symm _
      refine ⟨fun path => by rw [run, told], by rw [run]; exact shape, blind, fun path => ?_, fun hs => ?_⟩
      · rw [told, told]
        exact h.below path
      · rw [run, told]
        exact fills hs
    | ok a =>
      have run : (act >>= next) s = next a t := by
        show Action.bind act next s = _
        rw [Action.bind, hact]
      have told : ∀ path, (trace path s >>= fun a => after a path s) =
          ⟨(trace path s).fills ++ (after a path s).fills, (after a path s).outcome⟩ :=
        fun path => Trace.bind_ok (out path).symm _
      have step := hn a t
      refine ⟨fun path => ?_, ?_, blind, fun path => ?_, fun hs => ?_⟩
      · rw [run, told, step.outcome path, same]
      · rw [run, step.shape]
        exact shape
      · simp only [told, h.below path, (hn a s).below path, List.map_append]
      · rw [run, told, fillAll_append, ← fills hs, step.fills ((indexed_congr shape).mpr hs), same]

/-- A step without changes and then another. -/
theorem ofOutcome_bind {o : Outcome α} (hn : ∀ a, o = .ok a → Performs (next a) (after a) s) :
    Performs (Action.ofOutcome o >>= next) (fun path s => Trace.ofOutcome o >>= fun a => after a path s) s := by
  cases ho : o with
  | error stop =>
    refine ((ofOutcome (.error stop)).congr_act rfl).congr_trace (fun path => ?_) (fun path => ?_)
    · exact Trace.ofOutcome_bind_error rfl _
    · exact Trace.ofOutcome_bind_error rfl _
  | ok a =>
    refine ((hn a ho).congr_act rfl).congr_trace (fun path => ?_) (fun path => ?_)
    · exact Trace.ofOutcome_bind_ok rfl _
    · exact Trace.ofOutcome_bind_ok rfl _

end Performs

end

end RecordStats
