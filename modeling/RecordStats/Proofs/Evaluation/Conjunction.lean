import RecordStats.Evaluation.Expression
import RecordStats.Proofs.Evaluation.Operation
import RecordStats.Proofs.Outcome

/-! Comparisons that are joined by `and`, grouped to the left. All of them are evaluated, one after the other, so their
    conjunction is true if each of them is, and fails as the first one that does. -/

namespace RecordStats

namespace Operator

variable {op : Operator} {origin : Origin} {operands : List Value} {s : Span} {v : Value}

/-- What a comparison gives is a boolean. -/
theorem eq_boolean_of_comparison (h : op.isComparison = true) (hrun : op.apply origin operands s = .ok v) :
    ∃ b, v = .boolean b := by
  obtain ⟨o, ho, happly⟩ := apply_eq_ok hrun
  have relating {holds : Value → Value → Bool} (ho : o = Overload.relating op holds) : ∃ b, v = .boolean b := by
    simp only [ho, Overload.relating] at happly
    split at happly
    · exact ⟨_, (Except.ok.inj happly).symm⟩
    · cases happly
  have comparing {holds : Float → Float → Bool} (ho : o = Overload.comparing op holds) : ∃ b, v = .boolean b := by
    simp only [ho, Overload.comparing, Overload.ofNumbers] at happly
    split at happly
    · exact ⟨_, (Except.ok.inj happly).symm⟩
    · cases happly
  cases op with
  | equal | notEqual => exact relating (List.mem_singleton.mp ho)
  | less | lessEqual | greater | greaterEqual => exact comparing (List.mem_singleton.mp ho)
  | _ => cases h

theorem and_booleans (a b : Bool) : Operator.and.apply origin [.boolean a, .boolean b] s = .ok (.boolean (a && b)) := by
  cases a <;> rfl

end Operator

/-! ### What a conjunction comes to -/

/-- The outcome of a conjunction by the outcomes of its parts in order. -/
structure Outcome.Conjoins (parts : List (Outcome Value)) (outcome : Outcome Value) : Prop where
  /-- Where all the parts have a value, the conjunction is true if each of them is, and otherwise false. -/
  holds : (∀ o ∈ parts, ∃ v, o = .ok v) →
    ∃ b, outcome = .ok (.boolean b) ∧ (b = true ↔ ∀ o ∈ parts, o = .ok (.boolean true))
  /-- Otherwise it stops as the first part that has no value. -/
  stops : ∀ before stop after, parts = before ++ .error stop :: after → (∀ o ∈ before, ∃ v, o = .ok v) →
    outcome = .error stop

namespace Outcome.Conjoins

variable {parts : List (Outcome Value)} {outcome part : Outcome Value}

theorem single (boolean : ∀ v, part = .ok v → ∃ b, v = .boolean b) : Conjoins [part] part where
  holds all := by
    obtain ⟨v, hv⟩ := all part List.mem_cons_self
    obtain ⟨b, rfl⟩ := boolean v hv
    refine ⟨b, hv, ?_⟩
    rw [List.forall_mem_singleton, hv, Except.ok.injEq, Value.boolean.injEq]
  stops before stop after hsplit _ := by
    cases before with
    | nil => exact (List.cons.inj hsplit).1
    | cons _ before => cases before <;> cases hsplit

/-- One more part. -/
theorem concat (h : Conjoins parts outcome) (boolean : ∀ v, part = .ok v → ∃ b, v = .boolean b) (origin : Origin)
    (s : Span) : Conjoins (parts ++ [part])
      (outcome >>= fun v => part >>= fun w => Operator.and.apply origin [v, w] s) where
  holds all := by
    obtain ⟨b, rfl, hb⟩ := h.holds fun o ho => all o (List.mem_append_left _ ho)
    obtain ⟨w, rfl⟩ := all part (List.mem_append_right _ List.mem_cons_self)
    obtain ⟨c, rfl⟩ := boolean w rfl
    refine ⟨b && c, Operator.and_booleans b c, ?_⟩
    rw [Bool.and_eq_true, hb, List.forall_mem_append, List.forall_mem_singleton, Except.ok.injEq,
      Value.boolean.injEq]
  stops before stop after hsplit hbefore := by
    rcases List.eq_nil_or_concat after with rfl | ⟨after, last, rfl⟩
    · -- the new part is the first one that stops
      obtain ⟨rfl, hpart⟩ := List.append_inj' hsplit rfl
      obtain ⟨b, rfl, -⟩ := h.holds hbefore
      obtain ⟨rfl, -⟩ := List.cons.inj hpart
      rfl
    · rw [List.concat_eq_append, ← List.cons_append, ← List.append_assoc] at hsplit
      obtain ⟨hparts, -⟩ := List.append_inj' hsplit rfl
      rw [h.stops before stop after hparts hbefore]
      rfl

end Outcome.Conjoins

namespace Expr

/-! ### Conjunctions -/

/-- Each operand compared with the next one. -/
def compared (left : Expr) : List (Operator × Expr) → List Expr
  | [] => []
  | (op, right) :: rest => operator op [left, right] default :: compared right rest

/-- The expression joins these ones by `and`, grouped to the left. -/
inductive Conjunction : List Expr → Expr → Prop
  | single (e : Expr) : Conjunction [e] e
  | and {es : List Expr} {before : Expr} (earlier : Conjunction es before) (e : Expr) (s : Span) :
      Conjunction (es ++ [e]) (operator .and [before, e] s)

def IsComparison (e : Expr) : Prop :=
  ∃ op left right s, e = operator op [left, right] s ∧ op.isComparison = true

/-- Where so many expressions are evaluated that are joined by `and`, if their conjunction is at this origin. -/
def conjuncts (origin : Origin) : Nat → List Origin
  | 0 => []
  | 1 => [origin]
  | n + 2 => conjuncts (0 :: origin) (n + 1) ++ [1 :: origin]

/-- What the expressions come to that a conjunction joins. -/
def evaluateConjuncts (call : Caller) (scope : Scope) (origin : Origin) (es : List Expr) : List (Outcome Value) :=
  List.zipWith (evaluate call scope) (conjuncts origin es.length) es

variable {call : Caller} {scope : Scope} {origin : Origin} {es : List Expr} {e : Expr}

theorem length_conjuncts (n : Nat) : (conjuncts origin n).length = n := by
  induction n generalizing origin with
  | zero => rfl
  | succ n ih =>
    cases n with
    | zero => rfl
    | succ n => rw [conjuncts, List.length_append, ih, List.length_singleton]

theorem evaluateConjuncts_concat (hes : es ≠ []) (e : Expr) : evaluateConjuncts call scope origin (es ++ [e]) =
    evaluateConjuncts call scope (0 :: origin) es ++ [evaluate call scope (1 :: origin) e] := by
  obtain ⟨n, hn⟩ : ∃ n, es.length = n + 1 :=
    Nat.exists_eq_succ_of_ne_zero fun h => hes (List.length_eq_zero_iff.mp h)
  rw [evaluateConjuncts, evaluateConjuncts, List.length_append, hn, List.length_singleton, conjuncts,
    List.zipWith_append (by rw [length_conjuncts, hn]), List.zipWith_cons_cons, List.zipWith_nil_right]

theorem Conjunction.ne_nil (h : Conjunction es e) : es ≠ [] := by
  cases h with
  | single => exact List.cons_ne_nil _ _
  | and => exact List.append_ne_nil_of_right_ne_nil _ (List.cons_ne_nil _ _)

theorem IsComparison.boolean (h : IsComparison e) {v : Value} (hrun : evaluate call scope origin e = .ok v) :
    ∃ b, v = .boolean b := by
  obtain ⟨op, left, right, s, rfl, hop⟩ := h
  have other : op ≠ .member := by
    rintro rfl
    cases hop
  rw [evaluate_operator _ _ _ (by rintro ⟨_, _, rfl, -⟩; exact other rfl), if_neg other] at hrun
  obtain ⟨vs, -, happly⟩ := Outcome.bind_eq_ok.mp hrun
  exact Operator.eq_boolean_of_comparison hop happly

theorem evaluate_and (before e : Expr) (s : Span) : evaluate call scope origin (operator .and [before, e] s) =
    evaluate call scope (0 :: origin) before >>= fun v =>
      evaluate call scope (1 :: origin) e >>= fun w => Operator.and.apply origin [v, w] s := by
  rw [evaluate_operator _ _ _ (by rintro ⟨_, _, hop, -⟩; cases hop), if_neg Operator.noConfusion]
  simp only [evaluateAll, bind_assoc, pure_bind]
  rfl

/-- A conjunction of comparisons comes to the conjunction of what they come to. -/
theorem Conjunction.evaluates (h : Conjunction es e) (comparisons : ∀ c ∈ es, IsComparison c) :
    Outcome.Conjoins (evaluateConjuncts call scope origin es) (evaluate call scope origin e) := by
  induction h generalizing origin with
  | single e => exact .single fun v => (comparisons e List.mem_cons_self).boolean
  | and earlier e s ih =>
    rw [evaluateConjuncts_concat earlier.ne_nil, evaluate_and]
    refine (ih fun c hc => comparisons c (List.mem_append_left _ hc)).concat (fun v => ?_) origin s
    exact (comparisons e (List.mem_append_right _ List.mem_cons_self)).boolean

end Expr

end RecordStats
