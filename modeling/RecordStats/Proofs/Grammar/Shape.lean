import RecordStats.Proofs.Evaluation.Operands
import RecordStats.Proofs.Grammar.Statement
import RecordStats.Proofs.Outcome
import RecordStats.Proofs.Program.Fragments

/-! The shape of what is read. In the tree of an accepted text every part, at any depth, is one that evaluation can take
    apart: operators and functions are complete, and only functions' bodies have results. -/

namespace RecordStats

/-- The text is accepted as a program or as an expression, and this is a part of it. -/
inductive Text.Holds (text : String) (q : Fragment) : Prop where
  | program {p : Program} {s : Statement} (accepted : Program.ofText text = .ok p) (hs : s ∈ p.block)
      (within : (Fragment.statement s).Within q)
  | expression {e : Expr} (accepted : Expr.ofText text = .ok e) (within : (Fragment.expression e).Within q)

theorem Text.Holds.wellFormed {text : String} {q : Fragment} (h : Text.Holds text q) :
    q.WellFormed (text.length + 1) := by
  cases h with
  | program accepted hs within =>
    have block := Statement.wellFormedBlock_iff.mp (Program.wellFormed_of_ofText accepted)
    exact Fragment.WellFormed.within (q := .statement _) (block _ hs) within
  | expression accepted within =>
    exact Fragment.WellFormed.within (q := .expression _) (Expr.wellFormed_of_ofText accepted) within

/-- Every part of an accepted text has its shape, and no expression in it applies an operator to another number of
    values than the operator takes, wherever it is evaluated. -/
theorem Fragment.shaped_of_holds {text : String} {q : Fragment} (h : Text.Holds text q) :
    q.Shaped ∧ ∀ e, q = .expression e → ∀ (ops : Operations), ops.Standard → ∀ (host : Host), host.Sound →
      ∀ (depth : Nat) (scope : Scope), scope.Sound → ∀ origin,
        e.evaluateWith ops (host.callerWith ops depth) scope origin = e.evaluate (host.caller depth) scope origin := by
  have formed := h.wellFormed
  refine ⟨formed.shaped, ?_⟩
  rintro e rfl ops hops host hhost depth scope hscope origin
  exact Expr.evaluateWith_standard hops hhost depth hscope formed origin

theorem Fragment.shaped_of_holds_access : ∃ e, Expr.ofText "(x -> x.y[0] + -1)(r)" = .ok e ∧
    (Fragment.expression e).Shaped ∧ e.evaluateWith .guarded (Host.none.callerWith .guarded 2) (Scope.root [] []) [] =
      e.evaluate (Host.none.caller 2) (Scope.root [] []) [] := by
  have accepted : (Expr.ofText "(x -> x.y[0] + -1)(r)").toOption.any (fun _ => true) = true := by decide +kernel
  obtain ⟨e, he, -⟩ := exists_of_any accepted
  obtain ⟨shaped, applied⟩ := Fragment.shaped_of_holds (.expression he .refl)
  refine ⟨e, he, shaped, applied e rfl .guarded Operations.guarded_standard Host.none Host.none_sound 2 _ ?_ []⟩
  exact Scope.Sound.root (List.forall_mem_nil _) (List.forall_mem_nil _)

end RecordStats
