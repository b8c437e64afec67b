import RecordStats.Proofs.Likeness.Scope
import RecordStats.Value.Scopes

/-! Snapshots of scopes. A snapshot answers for every name as the scope did when it was taken, however the scope came
    about, and whatever is done with scopes afterwards it stays as it is. -/

namespace RecordStats

namespace Scope

variable {s : Scope}

theorem Ordered.dropFunctions (h : s.Ordered) : s.dropFunctions.Ordered :=
  List.forall_mem_cons.mpr ⟨h.own.filter _, fun f hf => h f (List.mem_cons_of_mem _ hf)⟩

/-- Scopes as they come about: on their own or above what a function took with it, and by what is done in them. -/
inductive Arises : Scope → Prop
  | root (standing : Dict Value) (data : List (String × Value)) : Arises (.root standing data)
  | above (env : Env Value) (base : Origin) : Arises (.above env base)
  | child {s : Scope} (h : Arises s) : Arises s.child
  | define {s : Scope} (h : Arises s) (name : String) (v : Value) : Arises (s.define name v)
  | defineFunction {s : Scope} (h : Arises s) (name : String) (v : Value) : Arises (s.defineFunction name v)
  | dropFunctions {s : Scope} (h : Arises s) : Arises s.dropFunctions

theorem Arises.ordered (h : s.Arises) : s.Ordered := by
  induction h with
  | root standing data => exact ordered_root standing data
  | above env base => exact ordered_above env base
  | child _ ih => exact ih.child
  | define _ name v ih => exact ih.define name v
  | defineFunction _ name v ih => exact ih.defineFunction name v
  | dropFunctions _ ih => exact ih.dropFunctions

end Scope

namespace Scopes

variable {w : Scopes} {op : Operation} {i j : Nat} {s : Scope}

/-! ### Every scope arises -/

theorem mem_change {f : Scope → Scope} (h : s ∈ (w.change i f).scopes) : s ∈ w.scopes ∨ ∃ t ∈ w.scopes, s = f t := by
  obtain ⟨k, hk⟩ := List.mem_iff_getElem?.mp h
  rw [change, List.getElem?_modify] at hk
  obtain ⟨t, ht, rfl⟩ := Option.map_eq_some_iff.mp hk
  split
  · exact .inr ⟨t, List.mem_of_getElem? ht, rfl⟩
  · exact .inl (List.mem_of_getElem? ht)

theorem mem_add {made : Option Scope} (h : s ∈ (w.add made).scopes) : s ∈ w.scopes ∨ made = some s :=
  (List.mem_append.mp h).imp_right Option.mem_toList.mp

theorem step_arises (h : ∀ s ∈ w.scopes, s.Arises) (op : Operation) : ∀ s ∈ (w.step op).scopes, s.Arises := by
  intro s hs
  have changed : ∀ {i : Nat} {f : Scope → Scope}, (∀ t, t.Arises → (f t).Arises) → s ∈ (w.change i f).scopes →
      s.Arises := by
    intro i f keeps hs
    obtain hs | ⟨t, ht, rfl⟩ := mem_change hs
    · exact h s hs
    · exact keeps t (h t ht)
  cases op with
  | root standing data =>
    obtain hs | rfl := (mem_add hs).imp_right Option.some.inj
    · exact h s hs
    · exact .root standing data
  | fromFrozen k base =>
    obtain hs | hs := mem_add hs
    · exact h s hs
    · obtain ⟨env, -, rfl⟩ := Option.map_eq_some_iff.mp hs
      exact .above env base
  | child i =>
    obtain hs | hs := mem_add hs
    · exact h s hs
    · obtain ⟨t, ht, rfl⟩ := Option.map_eq_some_iff.mp hs
      exact .child (h t (List.mem_of_getElem? ht))
  | define i name v => exact changed (fun t ht => ht.define name v) hs
  | defineFunction i name v => exact changed (fun t ht => ht.defineFunction name v) hs
  | dropFunctions i => exact changed (fun t ht => ht.dropFunctions) hs
  | freeze i => exact h s hs

theorem run_arises (h : ∀ s ∈ w.scopes, s.Arises) (ops : List Operation) : ∀ s ∈ (w.run ops).scopes, s.Arises := by
  induction ops generalizing w with
  | nil => exact h
  | cons op rest ih => exact ih (step_arises h op)

/-! ### Snapshots stay -/

theorem step_snapshots (w : Scopes) (op : Operation) : w.snapshots <+: (w.step op).snapshots := by
  cases op with
  | freeze i => exact List.prefix_append _ _
  | _ => exact List.prefix_refl _

theorem run_snapshots (w : Scopes) (ops : List Operation) : w.snapshots <+: (w.run ops).snapshots := by
  induction ops generalizing w with
  | nil => exact List.prefix_refl _
  | cons op rest ih => exact (step_snapshots w op).trans (ih (w.step op))

theorem run_append (w : Scopes) (ops more : List Operation) : w.run (ops ++ more) = (w.run ops).run more :=
  List.foldl_append

/-! ### What a scope that is made binds -/

/-- What an operation binds in the scope of a number. -/
def Operation.binds? (j : Nat) : Operation → Option Bound
  | .define i name v => if i = j then some (.value name v) else none
  | .defineFunction i name v => if i = j then some (.function name v) else none
  | _ => none

/-- What names mean in a scope that is only bound in: what it was last bound to, and otherwise what it meant before. -/
def Means (t : Scope) (bs : List Bound) (before : String → Option Value) : Prop :=
  ∀ name, t.get? name = (Bound.meaning? name bs).or (before name)

theorem Means.concat {t u : Scope} {bs : List Bound} {before : String → Option Value} (h : Means t bs before) (b : Bound)
    (hu : ∀ name, u.get? name = if b.name = name then some b.meaning else t.get? name) : Means u (bs ++ [b]) before := by
  intro name
  rw [hu, Bound.meaning?_concat, h name]
  split <;> rfl

theorem getElem?_add {made : Option Scope} (h : w.scopes[j]? = some s) : (w.add made).scopes[j]? = some s := by
  obtain ⟨hj, -⟩ := List.getElem?_eq_some_iff.mp h
  rw [add, List.getElem?_append_left hj, h]

theorem getElem?_change (f : Scope → Scope) (h : w.scopes[j]? = some s) :
    (w.change i f).scopes[j]? = some (if i = j then f s else s) := by
  rw [change, List.getElem?_modify, h]
  rfl

theorem step_means {bs : List Bound} {before : String → Option Value} (h : w.scopes[j]? = some s)
    (means : Means s bs before) (keeps : op ≠ .dropFunctions j) :
    ∃ t, (w.step op).scopes[j]? = some t ∧ Means t (bs ++ (op.binds? j).toList) before := by
  have same : Means s (bs ++ (none : Option Bound).toList) before := by rwa [Option.toList_none, List.append_nil]
  cases op with
  | root | fromFrozen | child => exact ⟨s, getElem?_add h, same⟩
  | freeze => exact ⟨s, h, same⟩
  | define i name v =>
    refine ⟨_, getElem?_change (fun s => s.define name v) h, ?_⟩
    by_cases here : i = j
    · rw [Operation.binds?, if_pos here, if_pos here]
      exact means.concat (.value name v) (s.get?_define name · v)
    · rw [Operation.binds?, if_neg here, if_neg here]
      exact same
  | defineFunction i name v =>
    refine ⟨_, getElem?_change (fun s => s.defineFunction name v) h, ?_⟩
    by_cases here : i = j
    · rw [Operation.binds?, if_pos here, if_pos here]
      exact means.concat (.function name v) (s.get?_defineFunction name · v)
    · rw [Operation.binds?, if_neg here, if_neg here]
      exact same
  | dropFunctions i =>
    have elsewhere : i ≠ j := fun here => keeps (congrArg Operation.dropFunctions here)
    refine ⟨s, ?_, same⟩
    rw [step, getElem?_change Scope.dropFunctions h, if_neg elsewhere]

theorem run_means {ops : List Operation} {bs : List Bound} {before : String → Option Value} (h : w.scopes[j]? = some s)
    (means : Means s bs before) (keeps : ∀ op ∈ ops, op ≠ .dropFunctions j) :
    ∃ t, (w.run ops).scopes[j]? = some t ∧ Means t (bs ++ ops.filterMap (·.binds? j)) before := by
  induction ops generalizing w s bs with
  | nil => exact ⟨s, h, by rwa [List.filterMap_nil, List.append_nil]⟩
  | cons op rest ih =>
    obtain ⟨hop, hrest⟩ := List.forall_mem_cons.mp keeps
    obtain ⟨t, ht, means⟩ := step_means h means hop
    obtain ⟨u, hu, means⟩ := ih ht means hrest
    refine ⟨u, hu, ?_⟩
    rw [List.append_assoc] at means
    cases hb : op.binds? j with
    | none =>
      rw [List.filterMap_cons_none hb]
      rwa [hb] at means
    | some b =>
      rw [List.filterMap_cons_some hb]
      rwa [hb] at means

/-! ### Snapshots -/

theorem means_above (env : Env Value) (base : Origin) : Means (.above env base) [] env.get? := fun _ => rfl

/-- After any operations on scopes, a snapshot of one of them is what flattening its chain gives and means for every
    name what the scope means at that moment. It stays so through any further operations, and in a scope that is then
    made above it a name means what that scope was last bound to, as long as no functions are dropped from it, and
    what it meant in the scope of the snapshot otherwise. -/
theorem freeze_permanent (ops : List Operation) {i : Nat} {s : Scope} (h : (empty.run ops).scopes[i]? = some s)
    (more : List Operation) :
    ∃ env, (empty.run (ops ++ .freeze i :: more)).snapshots[(empty.run ops).snapshots.length]? = some env ∧
      env = s.flattened ∧ (∀ name, env.get? name = s.get? name) ∧
      ∀ (base : Origin) (rest : List Operation) (j : Nat), j = (empty.run (ops ++ .freeze i :: more)).scopes.length →
        (∀ op ∈ rest, op ≠ .dropFunctions j) →
        ∃ t, (empty.run (ops ++ .freeze i :: more ++
            .fromFrozen (empty.run ops).snapshots.length base :: rest)).scopes[j]? = some t ∧
          ∀ name, t.get? name = (Bound.meaning? name (rest.filterMap (·.binds? j))).or (s.get? name) := by
  have ordered : s.Ordered := (run_arises (w := empty) nofun ops s (List.mem_of_getElem? h)).ordered
  have taken : ((empty.run ops).step (.freeze i)).snapshots = (empty.run ops).snapshots ++ [s.freeze] := by
    rw [step, h]
    rfl
  have kept : (empty.run (ops ++ .freeze i :: more)).snapshots[(empty.run ops).snapshots.length]? = some s.freeze := by
    obtain ⟨later, stays⟩ := run_snapshots ((empty.run ops).step (.freeze i)) more
    rw [run_append, run, List.foldl_cons, ← run, ← stays, taken, List.append_assoc, List.getElem?_append_right (Nat.le_refl _),
      Nat.sub_self]
    rfl
  have means : ∀ name, s.freeze.get? name = s.get? name := Scope.get?_freeze ordered
  refine ⟨s.freeze, kept, s.freeze_eq_flattened, means, ?_⟩
  rintro base rest j rfl keeps
  rw [run_append]
  generalize empty.run (ops ++ .freeze i :: more) = w at kept keeps ⊢
  have made : (w.step (.fromFrozen (empty.run ops).snapshots.length base)).scopes[w.scopes.length]? =
      some (.above s.freeze base) := by
    rw [step, kept]
    exact List.getElem?_concat_length
  obtain ⟨t, ht, told⟩ := run_means made (means_above s.freeze base) keeps
  refine ⟨t, ht, fun name => ?_⟩
  rw [told name, means name]
  rfl

/-- A snapshot of a scope that hides a name of its parent keeps what the scope meant, though both scopes bind the name
    again and the scope drops its functions. A scope made above it means the same, apart from what is bound in it. -/
theorem freeze_permanent_hidden :
    let ops := [.root [] [("x", .integer 1)], .child 0, .define 1 "x" (.integer 2), .defineFunction 1 "f" .null]
    let more := [.dropFunctions 1, .define 0 "x" (.integer 3), .define 1 "x" (.integer 4)]
    let rest := [.define 2 "y" (.integer 5), .define 1 "x" (.integer 6)]
    ∃ env t, (empty.run (ops ++ .freeze 1 :: more)).snapshots[0]? = some env ∧
      env.get? "x" = some (.integer 2) ∧ env.get? "f" = some .null ∧
      (empty.run (ops ++ .freeze 1 :: more ++ .fromFrozen 0 [] :: rest)).scopes[2]? = some t ∧
      t.get? "x" = some (.integer 2) ∧ t.get? "y" = some (.integer 5) := by
  intro ops more rest
  have scope : (empty.run ops).scopes[1]? = some ⟨⟨[("f", .null), ("x", .integer 2)], ["f"]⟩,
      [⟨[("x", .integer 1)], []⟩], .ofStanding [], [], 2⟩ := rfl
  obtain ⟨env, taken, -, same, above⟩ := freeze_permanent ops scope more
  have drops : ∀ op ∈ rest, op ≠ .dropFunctions 2 := by
    intro op hop
    obtain rfl | rfl : op = .define 2 "y" (.integer 5) ∨ op = .define 1 "x" (.integer 6) := by simpa [rest] using hop
    · nofun
    · nofun
  obtain ⟨t, made, means⟩ := above [] rest 2 rfl drops
  exact ⟨env, t, taken, same "x", same "f", made, means "x", means "y"⟩

end Scopes
end RecordStats
