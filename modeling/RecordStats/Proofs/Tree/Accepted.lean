import RecordStats.Proofs.Program.Names
import RecordStats.Proofs.Program.WellFormed
import RecordStats.Proofs.Tree.Built

/-! Which programs declare a tree. A declaration adds to any namespace what it declares by itself, provided that no name
    is taken; so a block declares something exactly when in every namespace the names are different and every axis is
    a binning. -/

namespace RecordStats

/-! ### What a declaration adds -/

theorem Namespace.declare_iff {ns d : Namespace} {n : Name} {node : Node} :
    ns.declare n node = .ok d ↔ Dict.get? ns n.text = none ∧ d = Dict.insert ns n.text node := by
  unfold Namespace.declare
  split
  · next taken =>
    constructor
    · intro h
      exact absurd h Outcome.failAt_ne_ok
    · rintro ⟨free, -⟩
      rw [Dict.has, free] at taken
      cases taken
  · next free =>
    rw [Dict.has, Bool.not_eq_true, Option.isSome_eq_false_iff, Option.isNone_iff_eq_none] at free
    constructor
    · intro h
      exact ⟨free, (Except.ok.inj h).symm⟩
    · rintro ⟨-, rfl⟩
      rfl

/-- The declaration adds the same children, under just these names, to every namespace that has none of the names. -/
structure Adds (names : List String) (f : Namespace → Outcome Namespace) : Prop where
  sorted : ∀ {own}, f [] = .ok own → Dict.Sorted own
  names : ∀ {own}, f [] = .ok own → ∀ x, (Dict.get? own x).isSome ↔ x ∈ names
  adds : ∀ {ns d}, Dict.Sorted ns → (f ns = .ok d ↔ ∃ own, f [] = .ok own ∧ Dict.Apart ns own ∧ d = Dict.union ns own)

namespace Adds

variable {names others : List String} {f g : Namespace → Outcome Namespace}

/-- Two declarations are apart when their names are. -/
theorem apart_iff (hf : Adds names f) (hg : Adds others g) {own own' : Namespace} (h : f [] = .ok own)
    (h' : g [] = .ok own') : Dict.Apart own own' ↔ names.Disjoint others := by
  constructor
  · intro apart x hx hx'
    have mine := (hf.names h x).mpr hx
    have yours := (hg.names h' x).mpr hx'
    rcases apart x with hn | hn
    · rw [hn] at mine
      cases mine
    · rw [hn] at yours
      cases yours
  · intro disjoint x
    by_cases hx : x ∈ names
    · have free : ¬(Dict.get? own' x).isSome := fun hs => disjoint hx ((hg.names h' x).mp hs)
      exact .inr (Option.not_isSome_iff_eq_none.mp free)
    · have free : ¬(Dict.get? own x).isSome := fun hs => hx ((hf.names h x).mp hs)
      exact .inl (Option.not_isSome_iff_eq_none.mp free)

theorem nothing : Adds [] fun ns => .ok ns where
  sorted := by
    rintro _ ⟨⟩
    exact Dict.sorted_nil
  names := by
    rintro _ ⟨⟩ x
    simp
  adds := by
    intro ns d _
    constructor
    · rintro ⟨⟩
      exact ⟨[], rfl, fun _ => .inr rfl, rfl⟩
    · rintro ⟨_, ⟨⟩, -, rfl⟩
      rfl

theorem declare (n : Name) (node : Node) : Adds [n.text] fun ns => Namespace.declare ns n node where
  sorted := by
    intro own h
    obtain ⟨-, rfl⟩ := Namespace.declare_iff.mp h
    exact Dict.sorted_insert Dict.sorted_nil _ _
  names := by
    intro own h x
    obtain ⟨-, rfl⟩ := Namespace.declare_iff.mp h
    rw [Dict.get?_insert, List.mem_singleton]
    by_cases hx : n.text = x
    · simp [hx]
    · simpa [hx] using Ne.symm hx
  adds := by
    intro ns d _
    rw [Namespace.declare_iff]
    constructor
    · rintro ⟨free, rfl⟩
      refine ⟨Dict.insert [] n.text node, rfl, fun x => ?_, rfl⟩
      by_cases hx : n.text = x
      · exact .inl (hx ▸ free)
      · exact .inr (by rw [Dict.get?_insert, if_neg hx, Dict.get?_nil])
    · rintro ⟨own, h, apart, rfl⟩
      obtain ⟨-, rfl⟩ := Namespace.declare_iff.mp h
      refine ⟨(apart n.text).resolve_right ?_, rfl⟩
      rw [Dict.get?_insert, if_pos rfl]
      exact nofun

/-- After the first declaration the second adds to the namespace that the first one has left. -/
theorem bind_iff (hf : Adds names f) (hg : Adds others g) {ns d : Namespace} (hns : Dict.Sorted ns) :
    (f ns >>= g) = .ok d ↔ ∃ a b, f [] = .ok a ∧ g [] = .ok b ∧ Dict.Apart ns a ∧ Dict.Apart ns b ∧ Dict.Apart a b ∧
      d = Dict.union ns (Dict.union a b) := by
  rw [Outcome.bind_eq_ok]
  constructor
  · rintro ⟨m, hm, hd⟩
    obtain ⟨a, ha, apart, rfl⟩ := (hf.adds hns).mp hm
    obtain ⟨b, hb, apart', rfl⟩ := (hg.adds (Dict.sorted_union hns a)).mp hd
    obtain ⟨outer, inner⟩ := (Dict.union_apart (hf.sorted ha)).mp apart'
    exact ⟨a, b, ha, hb, apart, outer, inner, Dict.union_assoc hns (hf.sorted ha) (hg.sorted hb)⟩
  · rintro ⟨a, b, ha, hb, apart, outer, inner, rfl⟩
    refine ⟨Dict.union ns a, (hf.adds hns).mpr ⟨a, ha, apart, rfl⟩, ?_⟩
    refine (hg.adds (Dict.sorted_union hns a)).mpr ⟨b, hb, ?_, ?_⟩
    · exact (Dict.union_apart (hf.sorted ha)).mpr ⟨outer, inner⟩
    · exact (Dict.union_assoc hns (hf.sorted ha) (hg.sorted hb)).symm

/-- One declaration after another. -/
theorem bind (hf : Adds names f) (hg : Adds others g) : Adds (names ++ others) fun ns => f ns >>= g := by
  have alone : ∀ {own : Namespace}, (f [] >>= g) = .ok own ↔ ∃ a b, f [] = .ok a ∧ g [] = .ok b ∧ Dict.Apart a b ∧
      own = Dict.union a b := by
    intro own
    rw [hf.bind_iff hg Dict.sorted_nil]
    refine exists_congr fun a => exists_congr fun b => and_congr_right fun ha => and_congr_right fun hb => ?_
    rw [Dict.nil_union (Dict.sorted_union (hf.sorted ha) b)]
    exact ⟨fun h => h.2.2, fun h => ⟨fun _ => .inl rfl, fun _ => .inl rfl, h⟩⟩
  refine ⟨fun h => ?_, fun h x => ?_, fun hns => ?_⟩
  · obtain ⟨a, b, ha, -, -, rfl⟩ := alone.mp h
    exact Dict.sorted_union (hf.sorted ha) b
  · obtain ⟨a, b, ha, hb, -, rfl⟩ := alone.mp h
    rw [Dict.get?_union (hg.sorted hb), List.mem_append, ← hf.names ha, ← hg.names hb]
    cases Dict.get? b x <;> simp
  · rw [hf.bind_iff hg hns]
    constructor
    · rintro ⟨a, b, ha, hb, apart, outer, inner, rfl⟩
      exact ⟨_, alone.mpr ⟨a, b, ha, hb, inner, rfl⟩, (Dict.apart_union (hg.sorted hb)).mpr ⟨apart, outer⟩, rfl⟩
    · rintro ⟨own, h, apart, rfl⟩
      obtain ⟨a, b, ha, hb, inner, rfl⟩ := alone.mp h
      obtain ⟨apart, outer⟩ := (Dict.apart_union (hg.sorted hb)).mp apart
      exact ⟨a, b, ha, hb, apart, outer, inner, rfl⟩

/-- Declarations keep the order of the names. -/
theorem sorted_of (hf : Adds names f) {ns d : Namespace} (hns : Dict.Sorted ns) (h : f ns = .ok d) : Dict.Sorted d := by
  obtain ⟨own, -, -, rfl⟩ := (hf.adds hns).mp h
  exact Dict.sorted_union hns own

/-- What a first step finds out does not depend on the namespace. -/
theorem after {α : Type} {x : Outcome α} {f : α → Namespace → Outcome Namespace}
    (h : ∀ a, x = .ok a → Adds names (f a)) :
    Adds names fun ns => x >>= fun a => f a ns := by
  cases hx : x with
  | ok a => exact h a hx
  | error stop =>
    refine ⟨fun h => ?_, fun h => ?_, fun _ => ?_⟩
    · cases h
    · cases h
    · constructor
      · intro h
        cases h
      · rintro ⟨_, h, -⟩
        cases h

/-- Two declarations after one another make something when each does by itself, under different names. -/
theorem exists_bind (hf : Adds names f) (hg : Adds others g) :
    (∃ own, (f [] >>= g) = .ok own) ↔ (∃ a, f [] = .ok a) ∧ (∃ b, g [] = .ok b) ∧ names.Disjoint others := by
  constructor
  · rintro ⟨own, h⟩
    obtain ⟨a, ha, h⟩ := Outcome.bind_eq_ok.mp h
    obtain ⟨b, hb, apart, -⟩ := (hg.adds (hf.sorted ha)).mp h
    exact ⟨⟨a, ha⟩, ⟨b, hb⟩, (hf.apart_iff hg ha hb).mp apart⟩
  · rintro ⟨⟨a, ha⟩, ⟨b, hb⟩, disjoint⟩
    refine ⟨Dict.union a b, Outcome.bind_eq_ok.mpr ⟨a, ha, ?_⟩⟩
    exact (hg.adds (hf.sorted ha)).mpr ⟨b, hb, (hf.apart_iff hg ha hb).mpr disjoint, rfl⟩

end Adds

theorem Namespace.declareVariations_adds (name : Path) (block : Namespace) : ∀ variations : List (Variation Expr),
    Adds (variations.map fun v => v.name.text) fun ns => ns.declareVariations name block variations
  | [] => .nothing
  | v :: rest => (Adds.declare v.name _).bind (declareVariations_adds name block rest)

mutual

/-- A statement adds children under the names that it declares. -/
theorem Statement.declare_adds (name : Path) : ∀ s : Statement, Adds s.declaredNames (Statement.declare name · s)
  | .collect c s => by
    simp only [Statement.declare, Statement.declaredNames]
    exact .after fun content _ => .after fun node _ => .declare c.name node
  | .region n predicate axes block s => by
    simp only [Statement.declare, Statement.declaredNames]
    exact .after fun inner _ => .after fun node _ => .declare n node
  | .vary variations block s => by
    simp only [Statement.declare, Statement.declaredNames]
    exact .after fun inner _ => Namespace.declareVariations_adds name inner variations
  | .loop ranges block s => by
    simp only [Statement.declare, Statement.declaredNames]
    exact declareBlock_adds name block
  | .source inclusive patterns block s => by
    simp only [Statement.declare, Statement.declaredNames]
    exact declareBlock_adds name block
  | .define _ _ _ => by
    simp only [Statement.declare, Statement.declaredNames]
    exact .nothing
  | .function _ _ _ _ => by
    simp only [Statement.declare, Statement.declaredNames]
    exact .nothing
  | .result _ _ => by
    simp only [Statement.declare, Statement.declaredNames]
    exact .nothing

/-- A block adds children under the names that its statements declare. -/
theorem declareBlock_adds (name : Path) : ∀ block : List Statement,
    Adds (declaredNamesOf block) (declareBlock name · block)
  | [] => by
    simp only [declareBlock, declaredNamesOf]
    exact .nothing
  | s :: rest => by
    simp only [declareBlock, declaredNamesOf]
    exact (Statement.declare_adds name s).bind (declareBlock_adds name rest)

end

/-! ### Bins as they are stated -/

namespace Bins

/-- The call states bins by literals: `regular` with a positive number of bins and a lower and an upper end in this
    order, or `variable` with at least two edges, each above the one before it. Numbers are compared as doubles. -/
inductive States : Expr → Bins Float → Prop where
  | regular {callee count low high : Expr} {s : Span} {n : Int64} {a b : Float} (name : callee.name? = some "regular")
      (number : count.literal? = some (.integer n)) (positive : 1 ≤ n.toInt) (lower : literalNumber? low = some a)
      (upper : literalNumber? high = some b) (ordered : a < b) :
      States (.call callee [count, low, high] s) (.regular n.toInt.toNat a b)
  | edged {callee : Expr} {arguments : List Expr} {s : Span} {edges : List Float}
      (name : callee.name? = some "variable") (literals : arguments.map literalNumber? = edges.map some)
      (several : 2 ≤ edges.length) (increasing : edges.IsChain (· < ·)) :
      States (.call callee arguments s) (.edged edges)

theorem literalEdges_eq_ok_iff {es : List Expr} {xs : List Float} :
    literalEdges es = .ok xs ↔ es.map literalNumber? = xs.map some := by
  induction es generalizing xs with
  | nil => cases xs <;> simp [literalEdges]
  | cons e rest ih =>
    rw [literalEdges, List.map_cons]
    split
    · next x hx =>
      rw [hx, Outcome.bind_eq_ok]
      constructor
      · rintro ⟨ys, hys, h⟩
        cases h
        rw [ih.mp hys, List.map_cons]
      · intro h
        cases xs with
        | nil => cases h
        | cons y ys =>
          obtain ⟨rfl, hys⟩ : x = y ∧ rest.map literalNumber? = ys.map some := by simpa using h
          exact ⟨ys, ih.mpr hys, rfl⟩
    · next hx =>
      rw [hx]
      constructor
      · intro h
        exact absurd h Outcome.failAt_ne_ok
      · intro h
        cases xs <;> cases h

/-- No edge is misplaced when each is above the one before it. -/
theorem misplaced?_eq_none_iff {es : List Expr} {xs : List Float} (h : es.length = xs.length) :
    misplaced? (es.zip xs) = none ↔ xs.IsChain (· < ·) := by
  induction xs generalizing es with
  | nil => simp [misplaced?]
  | cons x xs ih =>
    match es, xs, h with
    | [e], [], _ => simp [misplaced?]
    | e :: e' :: es, y :: ys, h =>
      have later := @ih (e' :: es) (by simpa using h)
      rw [List.zip_cons_cons] at later
      rw [List.zip_cons_cons, List.zip_cons_cons, misplaced?, List.isChain_cons_cons]
      split
      · next hlt => simp [hlt, later]
      · next hle => simp [hle]

theorem eq_some_of_elim {x : Option Float} {cause : Cause} {s : Span} {y : Float}
    (h : x.elim (Outcome.failAt cause s) Except.ok = .ok y) : x = some y := by
  cases x with
  | none => exact absurd h Outcome.failAt_ne_ok
  | some z => exact congrArg some (Except.ok.inj h)

theorem states_of_ofCall {e : Expr} {bins : Bins Float} (h : ofCall e = .ok bins) : States e bins := by
  cases e with
  | call callee arguments s =>
    simp only [ofCall] at h
    split at h
    · next name =>
      split at h
      · next count low high =>
        -- The bounds are read in the same way whatever the number of bins.
        have bounds : ∀ {n : Nat}, (do
            let a ← (literalNumber? low).elim (Outcome.failAt .lowNotNumber low.span) .ok
            let b ← (literalNumber? high).elim (Outcome.failAt .highNotNumber high.span) .ok
            if a < b then return regular n a b else Outcome.failAt .highNotAbove high.span) = .ok bins →
            ∃ a b, literalNumber? low = some a ∧ literalNumber? high = some b ∧ a < b ∧ bins = regular n a b := by
          intro n h
          obtain ⟨a, lower, h⟩ := Outcome.bind_eq_ok.mp h
          obtain ⟨b, upper, h⟩ := Outcome.bind_eq_ok.mp h
          split at h
          · next ordered => exact ⟨a, b, eq_some_of_elim lower, eq_some_of_elim upper, ordered, (Except.ok.inj h).symm⟩
          · exact absurd h Outcome.failAt_ne_ok
        split at h
        · next n number =>
          split at h
          · next positive =>
            obtain ⟨a, b, lower, upper, ordered, rfl⟩ := bounds h
            exact .regular name number positive lower upper ordered
          · exact absurd h Outcome.failAt_ne_ok
        · exact absurd h Outcome.failAt_ne_ok
      · exact absurd h Outcome.failAt_ne_ok
    · next name =>
      obtain ⟨edges, hedges, h⟩ := Outcome.bind_eq_ok.mp h
      have literals := literalEdges_eq_ok_iff.mp hedges
      have lengths : arguments.length = edges.length := by simpa using congrArg List.length literals
      split at h
      · exact absurd h Outcome.failAt_ne_ok
      · next several =>
        split at h
        · exact absurd h Outcome.failAt_ne_ok
        · next ordered =>
          cases h
          exact .edged name literals (Nat.not_lt.mp several) ((misplaced?_eq_none_iff lengths).mp ordered)
    · exact absurd h Outcome.failAt_ne_ok
  | _ => exact absurd h Outcome.failAt_ne_ok

theorem States.ofCall_eq {e : Expr} {bins : Bins Float} (h : States e bins) : ofCall e = .ok bins := by
  cases h with
  | regular name number positive lower upper ordered =>
    simp only [ofCall, name, number, positive, lower, upper, if_true, Option.elim_some, bind, Except.bind, ordered]
    rfl
  | edged name literals several increasing =>
    have lengths := congrArg List.length literals
    rw [List.length_map, List.length_map] at lengths
    simp only [ofCall, name, literalEdges_eq_ok_iff.mpr literals, (misplaced?_eq_none_iff lengths).mpr increasing,
      Nat.not_lt.mpr several, if_false, bind, Except.bind]
    rfl

/-- A declaration makes bins exactly when it states them. -/
theorem ofCall_eq_ok_iff {e : Expr} {bins : Bins Float} : ofCall e = .ok bins ↔ States e bins :=
  ⟨states_of_ofCall, States.ofCall_eq⟩

end Bins

/-- The axis states its bins. -/
def Axis.Binned (a : Axis Expr) : Prop := ∃ bins, Bins.States a.binning bins

/-! ### When something is declared -/

theorem Node.exists_wrap {name : Path} {node : Node} {axes : List (Axis Expr)} :
    (∃ wrapped, Node.wrap name node axes = .ok wrapped) ↔ ∀ a ∈ axes, a.Binned := by
  induction axes with
  | nil => simp [Node.wrap]
  | cons axis rest ih =>
    rw [List.forall_mem_cons, ← ih]
    simp only [Node.wrap, Outcome.bind_eq_ok, Bins.ofCall_eq_ok_iff, Axis.Binned]
    constructor
    · rintro ⟨wrapped, inner, hinner, bins, hbins, -⟩
      exact ⟨⟨bins, hbins⟩, inner, hinner⟩
    · rintro ⟨⟨bins, hbins⟩, inner, hinner⟩
      exact ⟨_, inner, hinner, bins, hbins, rfl⟩

theorem Storage.exists_ofCollector {most : Nat} {c : Collector Expr} (wf : c.WellFormed most) (s : Span) :
    ∃ content, Storage.ofCollector c s = .ok content := by
  have measured := wf.measured
  unfold Storage.ofCollector
  cases hs : c.statistic with
  | count => exact ⟨_, rfl⟩
  | _ =>
    cases he : c.expression with
    | none =>
      rw [hs, he] at measured
      cases measured.mp rfl
    | some e => exact ⟨_, rfl⟩

theorem Namespace.exists_declare (n : Name) (node : Node) : ∃ own, Namespace.declare [] n node = .ok own :=
  ⟨_, Namespace.declare_iff.mpr ⟨rfl, rfl⟩⟩

/-- Copies of a block are made under labels that are all different. -/
theorem Namespace.exists_declareVariations (name : Path) (block : Namespace) : ∀ variations : List (Variation Expr),
    (∃ own, Namespace.declareVariations [] name block variations = .ok own) ↔
      (variations.map fun v => v.name.text).Nodup
  | [] => by simp [declareVariations]
  | v :: rest => by
    let label := name ++ [Segment.field v.name.text]
    have step := (Adds.declare v.name (.namespace label (Node.childrenLike label block))).exists_bind
      (declareVariations_adds name block rest)
    rw [declareVariations]
    refine step.trans ?_
    rw [exists_declareVariations name block rest, List.map_cons, List.nodup_cons]
    constructor
    · rintro ⟨-, others, apart⟩
      exact ⟨fun h => apart (List.mem_singleton.mpr rfl) h, others⟩
    · rintro ⟨fresh, others⟩
      exact ⟨exists_declare _ _, others, fun x hx h => fresh (List.mem_singleton.mp hx ▸ h)⟩

variable {most : Nat}

mutual

/-- A statement declares something when it declares each name once, and its axes are all binnings. -/
theorem Statement.exists_declare (name : Path) : ∀ {s : Statement}, s.WellFormed most →
    ((∃ own, s.declare name [] = .ok own) ↔ s.WellNamed ∧ ∀ a ∈ s.declaredAxes, a.Binned)
  | .collect c s, wf => by
    simp only [Statement.declare_collect_eq_ok, Statement.WellNamed, Statement.declaredNames, Statement.ownBlocks,
      Statement.declaredAxes]
    constructor
    · rintro ⟨own, content, node, -, hnode, -⟩
      exact ⟨⟨List.nodup_singleton _, nofun⟩, Node.exists_wrap.mp ⟨node, hnode⟩⟩
    · rintro ⟨-, axes⟩
      obtain ⟨content, hcontent⟩ := Storage.exists_ofCollector wf s
      obtain ⟨node, hnode⟩ := Node.exists_wrap.mpr axes
      obtain ⟨own, hown⟩ := Namespace.exists_declare c.name node
      exact ⟨own, content, node, hcontent, hnode, hown⟩
  | .region n predicate axes block s, wf => by
    have inside := exists_declareBlock (name ++ [.field n.text]) wf.2.2
    simp only [Statement.declare_region_eq_ok, Statement.WellNamed, Statement.declaredNames, Statement.ownBlocks,
      Statement.declaredAxes, List.forall_mem_append]
    constructor
    · rintro ⟨own, inner, node, hinner, hnode, -⟩
      obtain ⟨named, binned⟩ := inside.mp ⟨inner, hinner⟩
      exact ⟨⟨List.nodup_singleton _, named⟩, Node.exists_wrap.mp ⟨node, hnode⟩, binned⟩
    · rintro ⟨⟨-, named⟩, axes, binned⟩
      obtain ⟨inner, hinner⟩ := inside.mpr ⟨named, binned⟩
      obtain ⟨node, hnode⟩ := Node.exists_wrap.mpr axes
      obtain ⟨own, hown⟩ := Namespace.exists_declare n node
      exact ⟨own, inner, node, hinner, hnode, hown⟩
  | .vary variations block s, wf => by
    have inside := exists_declareBlock name wf.2.2
    simp only [Statement.declare_vary_eq_ok, Statement.WellNamed, Statement.declaredNames, Statement.ownBlocks,
      Statement.declaredAxes]
    constructor
    · rintro ⟨own, inner, hinner, h⟩
      obtain ⟨named, binned⟩ := inside.mp ⟨inner, hinner⟩
      exact ⟨⟨(Namespace.exists_declareVariations name inner variations).mp ⟨own, h⟩, named⟩, binned⟩
    · rintro ⟨⟨labels, named⟩, binned⟩
      obtain ⟨inner, hinner⟩ := inside.mpr ⟨named, binned⟩
      obtain ⟨own, hown⟩ := (Namespace.exists_declareVariations name inner variations).mpr labels
      exact ⟨own, inner, hinner, hown⟩
  | .loop ranges block s, wf => by
    have inside := exists_declareBlock name wf.2.2
    simpa only [Statement.declare, Statement.WellNamed, Statement.declaredNames, Statement.ownBlocks,
      Statement.declaredAxes, WellNamed, List.forall_mem_cons] using inside
  | .source inclusive patterns block s, wf => by
    have inside := exists_declareBlock name wf.2
    simpa only [Statement.declare, Statement.WellNamed, Statement.declaredNames, Statement.ownBlocks,
      Statement.declaredAxes, WellNamed, List.forall_mem_cons] using inside
  | .define _ _ _, _ => by
    simp [Statement.declare, Statement.WellNamed, Statement.declaredNames, Statement.ownBlocks, Statement.declaredAxes]
  | .function _ _ _ _, _ => by
    simp [Statement.declare, Statement.WellNamed, Statement.declaredNames, Statement.ownBlocks, Statement.declaredAxes]
  | .result _ _, wf => wf.elim

/-- A block declares something when each of its namespaces has different names, and its axes are all binnings. -/
theorem exists_declareBlock (name : Path) : ∀ {block : List Statement}, Statement.WellFormedBlock most block →
    ((∃ own, declareBlock name [] block = .ok own) ↔ WellNamed block ∧ ∀ a ∈ declaredAxesOf block, a.Binned)
  | [], _ => by simp [declareBlock, WellNamed, declaredNamesOf, ownBlocksOf, declaredAxesOf]
  | s :: rest, wf => by
    have step := (Statement.declare_adds name s).exists_bind (declareBlock_adds name rest)
    rw [declareBlock]
    refine step.trans ?_
    rw [Statement.exists_declare name wf.1, exists_declareBlock name wf.2, wellNamed_cons, declaredAxesOf,
      List.forall_mem_append]
    tauto

end

end RecordStats
