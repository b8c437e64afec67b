import RecordStats.Proofs.Likeness.Declaration
import RecordStats.Proofs.Likeness.Record
import RecordStats.Proofs.Likeness.Reflexive
import RecordStats.Proofs.Run.Replay

/-! Alike records of alike runs. Both begin in alike scopes and on alike trees, so they make the same fills and end
    alike; where they succeed, their symbols are alike. -/

namespace RecordStats

theorem le_of_get? {α : Type} {n x : String} {a : α} {d : Dict α} (hd : Dict.Sorted ((n, a) :: d))
    (h : (Dict.get? ((n, a) :: d) x).isSome) : n ≤ x := by
  obtain ⟨b, hb⟩ := Option.isSome_iff_exists.mp h
  rcases List.mem_cons.mp (Dict.mem_of_get? hb) with heq | hmem
  · cases heq
    exact String.le_refl n
  · have later : n < x := (List.pairwise_cons.mp hd).1 _ hmem
    exact String.not_lt.mp fun earlier => String.lt_irrefl n (String.lt_trans later earlier)

theorem isSome_eq_of_rel {α β : Type} {R : α → β → Prop} {a : Option α} {b : Option β} (h : Option.Rel R a b) :
    a.isSome = b.isSome := by
  cases h <;> rfl

/-- In sorted dictionaries related values under every name are related pairs. -/
theorem PairsLike.of_sorted {α β : Type} {R : α → β → Prop} {d : Dict α} {e : Dict β} (hd : d.Sorted) (he : e.Sorted)
    (h : ∀ x, Option.Rel R (d.get? x) (e.get? x)) : PairsLike R d e := by
  induction d generalizing e with
  | nil =>
    cases e with
    | nil => exact .nil
    | cons q e =>
      have first := h q.1
      rw [Dict.get?_of_mem he (show (q.1, q.2) ∈ q :: e from List.mem_cons_self)] at first
      cases first
  | cons p d ih =>
    obtain ⟨n, a⟩ := p
    cases e with
    | nil =>
      have first := h n
      rw [Dict.get?_cons, if_pos rfl] at first
      cases first
    | cons q e =>
      obtain ⟨m, b⟩ := q
      -- Each first name is found in the other dictionary, so neither is lower than the other.
      obtain rfl : n = m := by
        have lower : m ≤ n := le_of_get? he (by rw [← isSome_eq_of_rel (h n), Dict.get?_cons, if_pos rfl]; rfl)
        have upper : n ≤ m := le_of_get? hd (by rw [isSome_eq_of_rel (h m), Dict.get?_cons, if_pos rfl]; rfl)
        exact String.le_antisymm upper lower
      have first := h n
      rw [Dict.get?_cons, Dict.get?_cons, if_pos rfl, if_pos rfl] at first
      cases first with
      | some first =>
        refine .cons ⟨rfl, first⟩ (ih (List.pairwise_cons.mp hd).2 (List.pairwise_cons.mp he).2 fun x => ?_)
        by_cases hx : n = x
        · subst hx
          rw [Dict.get?_of_lt hd, Dict.get?_of_lt he]
          exact .none
        · have later := h x
          rwa [Dict.get?_cons, Dict.get?_cons, if_neg hx, if_neg hx] at later

namespace Likeness

variable {L : Likeness} {V : String → Prop}

/-! ### Beginnings -/

/-- The scopes that two records begin in. -/
theorem ScopeLike.root {standing standing' : Dict Value} {data data' : List (String × Value)}
    (named : ∀ x, L.named x → V x) (same : L.same → standing = standing' ∧ data = data')
    (own : ∀ x, V x → Option.Rel L.ValueLike ((Dict.ofPairs data).get? x) ((Dict.ofPairs data').get? x))
    (below : ∀ x, V x → Option.Rel L.ValueLike (standing.get? x) (standing'.get? x)) :
    L.ScopeLike V (Scope.root standing data) (Scope.root standing' data') where
  named := named
  same := fun h => by rw [(same h).1, (same h).2]
  seen := fun x hx => by
    have first := own x hx
    simp only [Scope.get?, Scope.root, Scope.framesGet?]
    generalize (Dict.ofPairs data).get? x = a at first
    generalize (Dict.ofPairs data').get? x = b at first
    cases first with
    | some h => exact .some h
    | none => exact below x hx
  base := rfl
  made := rfl
  ordered := ⟨Scope.ordered_root standing data, Scope.ordered_root standing' data'⟩
  own := own
  functions := rfl

/-! ### Ends -/

/-- What is visible among the symbols of two records is alike. -/
def SymbolsLike (L : Likeness) (V : String → Prop) (symbols symbols' : Symbols) : Prop :=
  symbols.Sorted ∧ symbols'.Sorted ∧ ∀ x, V x → Option.Rel L.ValueLike (symbols.get? x) (symbols'.get? x)

theorem ScopeLike.symbols {s t : Scope} (h : L.ScopeLike V s t) :
    L.SymbolsLike V s.dropFunctions.own.bindings t.dropFunctions.own.bindings := by
  refine ⟨List.Pairwise.filter _ h.ordered.1.own, List.Pairwise.filter _ h.ordered.2.own, fun x hx => ?_⟩
  have kept : ∀ s : Scope, Dict.get? s.dropFunctions.own.bindings x =
      if s.own.functions.contains x then none else s.own.bindings.get? x := by
    intro s
    have filtered := Dict.get?_filter s.own.bindings (fun n => !s.own.functions.contains n) x
    rw [Scope.dropFunctions, filtered]
    cases s.own.functions.contains x <;> rfl
  rw [kept, kept, ← h.functions]
  split
  · exact .none
  · exact h.own x hx

theorem EndsLike.map {α β γ δ : Type} {placed : Prop} {R : α → β → Prop} {S : γ → δ → Prop} {x : Outcome α}
    {y : Outcome β} {f : α → γ} {g : β → δ} (h : L.EndsLike placed R x y) (hf : ∀ a b, R a b → S (f a) (g b)) :
    L.EndsLike placed S (x.map f) (y.map g) := by
  cases h with
  | ok h => exact .ok (hf _ _ h)
  | failure place known => exact .failure place known
  | tooDeep => exact .tooDeep
  | fault allowed faulty => exact .fault allowed (faulty.imp (·.map f) (·.map g))

/-! ### Records -/

variable {run run' : Run} {call call' : Caller}

/-- What a record does to alike runs. -/
theorem trace_like (hcall : L.CallerLike call call') (tag : Option String) {record record' : List (String × Value)}
    (blocks : L.BlockLike V run.program.block run'.program.block) (trees : L.NamespaceLike V run.tree run'.tree)
    (begin : L.ScopeLike V (Scope.root run.standing record) (Scope.root run'.standing record')) :
    L.TraceLike (L.ScopeLike V) (run.trace call tag record) (run'.trace call' tag record') :=
  blocks.run hcall [] trees begin

theorem single_like {record record' : List (String × Value)} {tag : Option String}
    (h : L.TraceLike (L.ScopeLike V) (run.trace call tag record) (run'.trace call' tag record')) :
    L.EndsLike True (L.SymbolsLike V) (run.single call tag record).1 (run'.single call' tag record').1 := by
  rw [Run.single_outcome, Run.single_outcome]
  exact h.outcome.map fun _ _ h => h.symbols

/-- Runs of alike programs are alike, if one of the programs declares a tree. -/
theorem tree_like {p q : Program} (h : L.BlockLike V p.block q.block) {tree : Namespace}
    (hp : p.tree = .ok tree) : ∃ tree', q.tree = .ok tree' ∧ L.NamespaceLike V tree tree' := by
  have nothing : L.NamespaceLike V [] [] := .nil
  have declared := h.declare [] nothing
  rw [Program.tree] at hp
  rw [hp] at declared
  rw [Program.tree]
  generalize declareBlock [] [] q.block = y at declared
  cases declared with
  | ok h => exact ⟨_, rfl, h⟩
  | fault allowed => exact allowed.elim

end Likeness
end RecordStats
