import RecordStats.Proofs.Evaluation.Builtin
import RecordStats.Proofs.Likeness.Run
import RecordStats.Proofs.Likeness.Value
import RecordStats.Proofs.Run.Symbols

/-! Data that a program does not use. A record ends the same with and without them and makes the same fills. Of the
    functions that it makes each takes along whatever is bound, so the symbols of the two records are the same only
    up to what functions have taken with them under the unused name. -/

namespace RecordStats

/-- The values are the same, except that functions may have taken different values with them under the name. -/
abbrev Value.SameBut (n : String) : Value → Value → Prop := Value.Same Eq (· ≠ n)

/-! ### The names that a block binds -/

theorem Statement.blockIdentifiers_append : ∀ block more : List Statement,
    blockIdentifiers (block ++ more) = blockIdentifiers block ++ blockIdentifiers more
  | [], _ => rfl
  | s :: rest, more => by
    rw [List.cons_append, blockIdentifiers, blockIdentifiers, blockIdentifiers_append rest more, List.append_assoc]

mutual

theorem Statement.identifiers_definitions (tag : Option String) : ∀ s : Statement,
    Statement.blockIdentifiers (s.definitions tag) ⊆ s.identifiers
  | .define _ _ _ => by
    rw [definitions, blockIdentifiers, blockIdentifiers, List.append_nil]
    exact fun _ => id
  | .function _ _ _ _ => by
    rw [definitions, blockIdentifiers, blockIdentifiers, List.append_nil]
    exact fun _ => id
  | .source inclusive patterns block _ => by
    rw [definitions]
    split
    · exact blockIdentifiers_definitionsOf tag block
    · exact List.nil_subset _
  | .result _ _ => List.nil_subset _
  | .collect _ _ => List.nil_subset _
  | .loop _ _ _ => List.nil_subset _
  | .vary _ _ _ => List.nil_subset _
  | .region _ _ _ _ _ => List.nil_subset _

/-- The definitions of a block have no identifiers but its own. -/
theorem Statement.blockIdentifiers_definitionsOf (tag : Option String) : ∀ block : List Statement,
    blockIdentifiers (definitionsOf tag block) ⊆ blockIdentifiers block
  | [] => fun _ => id
  | s :: rest => by
    rw [definitionsOf, blockIdentifiers_append, blockIdentifiers]
    refine List.append_subset.mpr ⟨fun x hx => ?_, fun x hx => ?_⟩
    · exact List.mem_append_left _ (identifiers_definitions tag s hx)
    · exact List.mem_append_right _ (blockIdentifiers_definitionsOf tag rest hx)

end

/-- Definitions bind identifiers of theirs. -/
theorem Binds.identifiers {call : Caller} {scope after : Scope} {definitions : List Statement} {bound : List Bound}
    (h : Binds call scope definitions bound after) :
    ∀ b ∈ bound, b.name ∈ Statement.blockIdentifiers definitions := by
  induction h with
  | nil => exact fun _ h => nomatch h
  | define _ _ ih =>
    refine List.forall_mem_cons.mpr ⟨List.mem_cons_self, fun b hb => ?_⟩
    exact List.mem_append_right _ (ih b hb)
  | function _ ih =>
    refine List.forall_mem_cons.mpr ⟨List.mem_cons_self, fun b hb => ?_⟩
    exact List.mem_append_right _ (ih b hb)

namespace Bound

variable {n : String}

theorem last?_of_forall_ne {bs : List Bound} (h : ∀ b ∈ bs, b.name ≠ n) : last? n bs = none := by
  rw [last?, List.filter_eq_nil_iff.mpr fun b hb => by simpa using h b hb]
  rfl

theorem ofPairs_append (pairs more : List (String × Value)) :
    ofPairs (pairs ++ more) = ofPairs pairs ++ ofPairs more :=
  List.map_append

theorem name_of_mem_ofPairs {pairs : List (String × Value)} (h : ∀ d ∈ pairs, d.1 ≠ n) :
    ∀ b ∈ ofPairs pairs, b.name ≠ n :=
  List.forall_mem_map.mpr h

/-- A pair of another name makes no difference. -/
theorem meaning?_insert {x : String} (hx : n ≠ x) (earlier later : List (String × Value)) (v : Value) :
    meaning? x (ofPairs (earlier ++ (n, v) :: later)) = meaning? x (ofPairs (earlier ++ later)) := by
  have single : meaning? x [value n v] = none := (meaning?_concat x [] _).trans (if_neg hx)
  rw [ofPairs_append, ofPairs_append, ofPairs_cons, ← List.singleton_append, meaning?_append, meaning?_append,
    meaning?_append, single, Option.or_none]

end Bound

/-! ### Records with an unused name -/

namespace Likeness

/-- Evaluations that differ in what a name means, without functions of the host. -/
def ignoring (n : String) : Likeness where
  span := Eq
  hosts := False
  lenient := False
  named := (· ≠ n)
  same := False
  eq_of_span := False.elim
  apart := False.elim

variable {n : String}

theorem ValueLike.sameBut {v w : Value} (h : (ignoring n).ValueLike v w) : v.SameBut n w := by
  refine h.same (fun V l m parameters body => ?_) fun _ => id
  obtain ⟨_, _⟩ := l
  obtain ⟨_, _⟩ := m
  obtain rfl := NameLike.eq_all (L := ignoring n) id parameters
  obtain rfl := BodyLike.eq (L := ignoring n) id body
  rfl

theorem ValueLike.of_hostless {v : Value} (h : v.Hostless) : (ignoring n).ValueLike v v := by
  refine .of_made (fun l _ => ⟨List.forall₂_same.mpr fun _ _ => ⟨rfl, rfl⟩, ?_⟩) id h
  exact BodyLike.of_madeOf (fun _ _ => rfl) (fun _ => id) (Pieces.body_named fun _ _ => trivial)

theorem ValueLike.rel_of_hostless {v : Option Value} (h : ∀ w ∈ v, w.Hostless) :
    Option.Rel (ignoring n).ValueLike v v := by
  cases v with
  | none => exact .none
  | some w => exact .some (.of_hostless (h w rfl))

/-- Where every error counts and no place stands for another, errors are the same. -/
theorem EndsLike.error_iff {L : Likeness} (strict : ∀ {s t : Span}, L.span s t → s = t) (every : ¬L.lenient)
    {α β : Type} {placed : Prop} {R : α → β → Prop} {x : Outcome α} {y : Outcome β}
    (h : L.EndsLike placed R x y) (stop : Stop) : x = .error stop ↔ y = .error stop := by
  cases h with
  | ok h => exact iff_of_false nofun nofun
  | failure place known =>
    cases place with
    | none => simp
    | some hs => simp [strict hs]
  | tooDeep => simp
  | fault allowed _ => exact absurd allowed every

end Likeness

namespace Run

variable {text : String} {standing : Dict Value} {run a : Run} {earlier later : List (String × Value)} {n : String}

open Likeness in
/-- What a record does with an unused name and without it. -/
theorem trace_unused (h : ofText text standing = .ok run) (hs : ∀ b ∈ standing, b.2.Hostless)
    (hr : ∀ d ∈ earlier ++ later, d.2.Hostless) (unused : n ∉ run.program.identifiers) (v : Value)
    (host : Host) (depth : Nat) (tag : Option String) :
    (ignoring n).TraceLike ((ignoring n).ScopeLike (· ≠ n)) (run.trace (host.caller depth) tag (earlier ++ later))
      (run.trace (host.caller depth) tag (earlier ++ (n, v) :: later)) := by
  obtain ⟨-, htree, rfl⟩ := ofText_eq_ok h
  have used : ∀ x ∈ run.program.identifiers, x ≠ n := fun x hx => ne_of_mem_of_not_mem hx unused
  have blocks : (ignoring n).BlockLike (· ≠ n) run.program.block run.program.block :=
    .of_madeOf (fun _ _ => rfl) (fun _ => id) (Pieces.block_named used)
  obtain ⟨tree, hagain, trees⟩ := tree_like blocks htree
  obtain rfl : run.tree = tree := Except.ok.inj (htree.symm.trans hagain)
  have hosts : (ignoring n).HostLike host host := False.elim
  refine trace_like (hosts.caller depth) tag blocks trees ?_
  refine .root (fun _ => id) False.elim (fun x hx => ?_) fun x _ => ?_
  · have other : Dict.get? (Dict.ofPairs (earlier ++ (n, v) :: later)) x =
        Dict.get? (Dict.ofPairs (earlier ++ later)) x := by
      rw [Dict.ofPairs, Dict.ofPairs, Bound.get?_union, Bound.get?_union, Bound.meaning?_insert hx.symm]
    rw [other]
    exact ValueLike.rel_of_hostless fun w hw => hr _ (Bound.mem_of_get?_ofPairs hw)
  · exact ValueLike.rel_of_hostless fun w hw => hs _ (Dict.mem_of_get? hw)

/-- An unused name that is bound once keeps its value. -/
theorem get?_unused {call : Caller} {tag : Option String} {v : Value} {symbols : Symbols}
    (unused : n ∉ a.program.identifiers) (unbound : ∀ d ∈ earlier ++ later, d.1 ≠ n)
    (h : (a.single call tag (earlier ++ (n, v) :: later)).1 = .ok symbols) : Dict.get? symbols n = some v := by
  obtain ⟨bound, after, binds, holds, rfl⟩ := single_eq_ok h
  obtain ⟨-, hlater⟩ := List.forall_mem_append.mp unbound
  have none_bound : Bound.last? n bound = none := by
    refine Bound.last?_of_forall_ne fun b hb heq => unused ?_
    rw [← heq]
    exact Statement.blockIdentifiers_definitionsOf tag _ (binds.identifiers b hb)
  have none_later : Bound.last? n (Bound.ofPairs later) = none :=
    Bound.last?_of_forall_ne (Bound.name_of_mem_ofPairs hlater)
  rw [Scope.get?_dropFunctions holds, Bound.last?_append, none_bound, Bound.ofPairs_append, Bound.ofPairs_cons,
    ← List.singleton_append, Bound.last?_append, Bound.last?_append, none_later]
  simp [Bound.last?, Bound.name]

/-- Data under a name that the program does not use make no difference to a record. It fails with them as it does
    without them, it makes the same fills, and if it succeeds, its symbols are the same with the unused name added;
    only what functions have taken with them under that name may differ. -/
theorem single_unused (hs : Text.Storable text) (h : ofText text standing = .ok run) (ha : run.Reaches a)
    (hstanding : ∀ b ∈ standing, b.2.Hostless)
    (hrecord : ∀ d ∈ earlier ++ later, d.2.Hostless) (unused : n ∉ run.program.identifiers)
    (unbound : ∀ d ∈ earlier ++ later, d.1 ≠ n) (v : Value) (host : Host) (depth : Nat) (tag : Option String) :
    (∀ stop, (a.single (host.caller depth) tag (earlier ++ (n, v) :: later)).1 = .error stop ↔
      (a.single (host.caller depth) tag (earlier ++ later)).1 = .error stop) ∧
    (a.trace (host.caller depth) tag (earlier ++ (n, v) :: later)).fills =
      (a.trace (host.caller depth) tag (earlier ++ later)).fills ∧
    (a.single (host.caller depth) tag (earlier ++ (n, v) :: later)).2 =
      (a.single (host.caller depth) tag (earlier ++ later)).2 ∧
    ∀ symbols, (a.single (host.caller depth) tag (earlier ++ later)).1 = .ok symbols →
      ∃ symbols', (a.single (host.caller depth) tag (earlier ++ (n, v) :: later)).1 = .ok symbols' ∧
        Dict.get? symbols' n = some v ∧ PairsLike (Value.SameBut n) (Dict.insert symbols n v) symbols' := by
  have traces := trace_unused h hstanding hrecord unused v host depth tag
  rw [← (ha.alike h).performs, ← (ha.alike h).performs] at traces
  have placed := (ha.alike h).placed hs h
  have fills : (a.trace (host.caller depth) tag (earlier ++ later)).fills =
      (a.trace (host.caller depth) tag (earlier ++ (n, v) :: later)).fills :=
    traces.fills.resolve_right fun fault => fault.1
  have ends := Likeness.single_like traces
  refine ⟨fun stop => (ends.error_iff id id stop).symm, fills.symm, ?_, fun symbols hsymbols => ?_⟩
  · rw [single_tree placed, single_tree placed, fills]
  · rw [hsymbols] at ends
    generalize hother : (a.single (host.caller depth) tag (earlier ++ (n, v) :: later)).1 = other at ends
    cases ends with
    | @ok _ symbols' alike =>
      obtain ⟨sorted, sorted', alike⟩ := alike
      have kept : Dict.get? symbols' n = some v := get?_unused ((ha.alike h).program ▸ unused) unbound hother
      refine ⟨symbols', rfl, kept, .of_sorted (Dict.sorted_insert sorted n v) sorted' fun x => ?_⟩
      rw [Dict.get?_insert]
      by_cases hx : n = x
      · rw [if_pos hx, ← hx, kept]
        exact .some (.refl v)
      · rw [if_neg hx]
        have same := alike x (Ne.symm hx)
        generalize Dict.get? symbols x = before at same
        generalize Dict.get? symbols' x = now at same
        cases same with
        | none => exact .none
        | some h => exact .some h.sameBut
    | fault allowed _ => exact allowed.elim

/-- An inner function takes the unused number with it, and the list of its results is the same. -/
theorem single_unused_closure :
    ∃ run, ofText "f(a) := a + x; ys := xs.map(f); sum 's' f(x)" RecordStats.standing = .ok run ∧
      (run.single (Host.caller Host.none 2) none [("x", .integer 7), ("z", .integer 5), ("xs", .list [.integer 1])]).2 =
        (run.single (Host.caller Host.none 2) none [("x", .integer 7), ("xs", .list [.integer 1])]).2 := by
  have accepted : (ofText "f(a) := a + x; ys := xs.map(f); sum 's' f(x)" RecordStats.standing).toOption.any
      (fun run => !run.program.identifiers.contains "z") = true := by
    decide +kernel
  obtain ⟨run, h, hz⟩ := exists_of_any accepted
  have made : ∀ d ∈ ([("x", .integer 7)] ++ [("xs", .list [.integer 1])] : List (String × Value)),
      d.2.Hostless := by
    simp only [List.cons_append, List.nil_append, List.forall_mem_cons]
    exact ⟨.integer 7, .list (List.forall_mem_singleton.mpr (.integer 1)), List.forall_mem_nil _⟩
  refine ⟨run, h,
    (single_unused (by decide) h .refl (standing_made _ _) made ?_ ?_ (.integer 5) Host.none 2 none).2.2.1⟩
  · simpa using hz
  · decide

end Run
end RecordStats
