import RecordStats.Proofs.Grammar.Statement
import RecordStats.Proofs.Tree.Built

/-! The axes that a text declares. A binning has as many bins as a number of 64 bits says, or fewer than a call
    has arguments; so in a text that a memory can hold, no binning has more bins than there are indices. -/

namespace RecordStats

/-- The text is one that a memory can hold: sizes in memory are numbers of 63 bits. -/
def Text.Storable (text : String) : Prop := text.length < 9223372036854775808

instance (text : String) : Decidable (Text.Storable text) := inferInstanceAs (Decidable (_ < _))

namespace Bins

theorem length_of_literalEdges : ∀ {es : List Expr} {xs : List Float}, literalEdges es = .ok xs → xs.length = es.length
  | [], xs, h => by
    cases h
    rfl
  | e :: rest, xs, h => by
    rw [literalEdges] at h
    split at h
    · obtain ⟨ys, hys, h⟩ := Outcome.bind_eq_ok.mp h
      cases h
      rw [List.length_cons, List.length_cons, length_of_literalEdges hys]
    · exact absurd h Outcome.failAt_ne_ok

/-- What a declaration of equal bins comes to has the number of bins that is stated, one of 64 bits. -/
theorem eq_regular_of_ofCall {count low high callee : Expr} {s : Span} {bins : Bins Float}
    (hname : callee.name? = some "regular") (h : ofCall (.call callee [count, low, high] s) = .ok bins) :
    ∃ (n : Int64) (a b : Float), 1 ≤ n.toInt ∧ bins = regular n.toInt.toNat a b := by
  simp only [ofCall, hname] at h
  have stated : ∀ {n : Nat}, (do
      let a ← (literalNumber? low).elim (Outcome.failAt .lowNotNumber low.span) .ok
      let b ← (literalNumber? high).elim (Outcome.failAt .highNotNumber high.span) .ok
      if a < b then return regular n a b else Outcome.failAt .highNotAbove high.span) = .ok bins →
      ∃ a b, bins = regular n a b := by
    intro n h
    obtain ⟨a, -, h⟩ := Outcome.bind_eq_ok.mp h
    obtain ⟨b, -, h⟩ := Outcome.bind_eq_ok.mp h
    split at h
    · cases h
      exact ⟨a, b, rfl⟩
    · exact absurd h Outcome.failAt_ne_ok
  split at h
  · next n hn =>
    split at h
    · next hpos =>
      obtain ⟨a, b, heq⟩ := stated h
      exact ⟨n, a, b, hpos, heq⟩
    · exact absurd h Outcome.failAt_ne_ok
  · exact absurd h Outcome.failAt_ne_ok

/-- What a declaration of edges comes to has the edges of its arguments. -/
theorem eq_edged_of_ofCall {callee : Expr} {arguments : List Expr} {s : Span} {bins : Bins Float}
    (hname : callee.name? = some "variable") (h : ofCall (.call callee arguments s) = .ok bins) :
    ∃ edges, edges.length = arguments.length ∧ bins = edged edges := by
  simp only [ofCall, hname] at h
  obtain ⟨edges, hedges, h⟩ := Outcome.bind_eq_ok.mp h
  split at h
  · exact absurd h Outcome.failAt_ne_ok
  · split at h
    · exact absurd h Outcome.failAt_ne_ok
    · cases h
      exact ⟨edges, length_of_literalEdges hedges, rfl⟩

/-- What a declaration comes to: a number of equal bins, or an edge for each argument. -/
theorem eq_of_ofCall {e : Expr} {bins : Bins Float} (h : ofCall e = .ok bins) :
    (∃ (n : Int64) (a b : Float), 1 ≤ n.toInt ∧ bins = regular n.toInt.toNat a b) ∨
      ∃ callee arguments s edges,
        e = .call callee arguments s ∧ edges.length = arguments.length ∧ bins = edged edges := by
  cases e with
  | call callee arguments s =>
    have hcall := h
    simp only [ofCall] at h
    split at h
    · next hname =>
      split at h
      · exact .inl (eq_regular_of_ofCall hname hcall)
      · exact absurd h Outcome.failAt_ne_ok
    · next hname =>
      obtain ⟨edges, hlen, rfl⟩ := eq_edged_of_ofCall hname hcall
      exact .inr ⟨callee, arguments, s, edges, rfl, hlen, rfl⟩
    · exact absurd h Outcome.failAt_ne_ok
  | _ => exact absurd h Outcome.failAt_ne_ok

/-- The bins of a well-formed declaration. -/
theorem count_le_of_ofCall {most : Nat} {e : Expr} {bins : Bins Float} (he : e.WellFormed most)
    (h : ofCall e = .ok bins) : bins.count ≤ mostCount ∨ bins.count ≤ most - 1 := by
  rcases eq_of_ofCall h with ⟨n, a, b, -, rfl⟩ | ⟨callee, arguments, s, edges, rfl, hlen, rfl⟩
  · have := Int64.toInt_lt n
    refine .inl ?_
    simp only [count, mostCount]
    omega
  · obtain ⟨-, few, -⟩ := he
    refine .inr ?_
    simp only [count]
    omega

end Bins

variable {most : Nat}

mutual

theorem Statement.axes_wellFormed : ∀ {s : Statement}, s.WellFormed most → ∀ a ∈ s.declaredAxes, a.WellFormed most
  | .collect c _, h => by
    rw [Statement.declaredAxes]
    exact h.axes
  | .region _ _ axes block _, h => by
    obtain ⟨-, haxes, hblock⟩ := h
    rw [Statement.declaredAxes, List.forall_mem_append]
    exact ⟨haxes, declaredAxesOf_wellFormed hblock⟩
  | .vary _ block _, h => by
    rw [Statement.declaredAxes]
    exact declaredAxesOf_wellFormed h.2.2
  | .loop _ block _, h => by
    rw [Statement.declaredAxes]
    exact declaredAxesOf_wellFormed h.2.2
  | .source _ _ block _, h => by
    rw [Statement.declaredAxes]
    exact declaredAxesOf_wellFormed h.2
  | .define _ _ _, _ => fun _ ha => by cases ha
  | .function _ _ _ _, _ => fun _ ha => by cases ha
  | .result _ _, h => False.elim h

theorem declaredAxesOf_wellFormed : ∀ {block : List Statement}, Statement.WellFormedBlock most block →
    ∀ a ∈ declaredAxesOf block, a.WellFormed most
  | [], _ => fun _ ha => by cases ha
  | s :: rest, h => by
    rw [declaredAxesOf, List.forall_mem_append]
    exact ⟨Statement.axes_wellFormed h.1, declaredAxesOf_wellFormed h.2⟩

end

/-- In a storable text no binning has more bins than there are indices. -/
theorem Program.fewBins {text : String} {p : Program} (hs : Text.Storable text) (h : Program.ofText text = .ok p) :
    Axis.AllGood (fun bins => bins.count ≤ Bins.mostCount) (declaredAxesOf p.block) := by
  intro a ha bins hbins
  have wf := declaredAxesOf_wellFormed (Program.wellFormed_of_ofText h) a ha
  have few := Bins.count_le_of_ofCall wf.binning hbins
  unfold Text.Storable at hs
  unfold Bins.mostCount at few ⊢
  omega

end RecordStats
