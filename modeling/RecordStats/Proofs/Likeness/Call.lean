import RecordStats.Evaluation.Call
import RecordStats.Proofs.Likeness.Operation
import RecordStats.Proofs.Likeness.Scope

/-! Evaluation keeps what is alike. Within an expression the argument follows the tree and takes from the calls that
    they end alike; the calls then follow the depth to which they may nest. Every failure of an expression is placed,
    since a call gives its place to whatever fails within it. -/

namespace RecordStats
namespace Likeness

variable {L : Likeness} {call call' : Caller}

/-! ### Methods -/

section Methods

variable {origin : Origin} {f g : Value} {vs ws : List Value}

theorem mapFrom_like (hcall : L.CallerLike call call') (hf : L.ValueLike f g) (i : Nat) (h : L.ValuesLike vs ws) :
    L.EndsLike False L.ValuesLike (ListMethod.mapFrom call origin f i vs) (ListMethod.mapFrom call' origin g i ws) := by
  induction h generalizing i with
  | nil => exact .ok .nil
  | cons first _ ih =>
    rw [ListMethod.mapFrom, ListMethod.mapFrom]
    refine (hcall _ hf (.cons first .nil)).bind fun v w hv => (ih (i + 1)).bind fun vs ws hvs => ?_
    exact .ok (.cons hv hvs)

theorem filterFrom_like (hcall : L.CallerLike call call') (hf : L.ValueLike f g) (i : Nat) (h : L.ValuesLike vs ws) :
    L.EndsLike False L.ValuesLike (ListMethod.filterFrom call origin f i vs)
      (ListMethod.filterFrom call' origin g i ws) := by
  induction h generalizing i with
  | nil => exact .ok .nil
  | cons first _ ih =>
    rw [ListMethod.filterFrom, ListMethod.filterFrom]
    refine (hcall _ hf (.cons first .nil)).bind fun v w hv => ?_
    have text := hv.text_eq
    cases hv with
    | boolean keep =>
      refine (ih (i + 1)).bind fun kept kept' hkept => ?_
      cases keep with
      | true => exact .ok (.cons first hkept)
      | false => exact .ok hkept
    | _ =>
      simp only [text]
      exact .fail _

theorem flattened_like (h : L.ValuesLike vs ws) :
    ResultLike L.ValuesLike (ListMethod.flattened vs) (ListMethod.flattened ws) := by
  induction h with
  | nil => exact .ok .nil
  | @cons v w _ _ first _ ih =>
    have items := first.items?
    rw [ListMethod.flattened, ListMethod.flattened, first.text_eq]
    generalize v.items? = a at items
    generalize w.items? = b at items
    cases items with
    | none => exact .error _
    | some items => exact ih.bind fun _ _ hmore => .ok (List.rel_append items hmore)

theorem joined_like {x x' y y' : Value} (hx : L.ValueLike x x') (hy : L.ValueLike y y') :
    L.ValueLike (ListMethod.joined x y) (ListMethod.joined x' y') := by
  have both : L.ValueLike (.tuple [x, y]) (.tuple [x', y']) := .tuple (.cons hx (.cons hy .nil))
  cases hx with
  | tuple items => exact .tuple (List.rel_append items (.cons hy .nil))
  | _ => exact both

theorem product_like {xs xs' ys ys' : List Value} (hx : L.ValuesLike xs xs') (hy : L.ValuesLike ys ys') :
    L.ValuesLike (ListMethod.product xs ys) (ListMethod.product xs' ys') :=
  List.rel_flatMap hx fun _ _ hx => List.rel_map (fun _ _ hy => joined_like hx hy) hy

theorem pairings_like (self : Bool) (h : L.ValuesLike vs ws) :
    L.ValuesLike (ListMethod.pairings self vs) (ListMethod.pairings self ws) := by
  induction h with
  | nil => exact .nil
  | @cons v w vs ws first rest ih =>
    have others : L.ValuesLike (if self then v :: vs else vs) (if self then w :: ws else ws) := by
      cases self with
      | true => exact .cons first rest
      | false => exact rest
    rw [ListMethod.pairings, ListMethod.pairings]
    exact List.rel_append (List.rel_map (fun _ _ hy => .tuple (.cons first (.cons hy .nil))) others) ih

variable (L) in
/-- The best items so far have one number and are alike, or there is none yet. -/
def BestLike (best best' : Option (Float × Value)) : Prop :=
  Option.Rel (fun b b' => b.1 = b'.1 ∧ L.ValueLike b.2 b'.2) best best'

theorem improves_eq (largest : Bool) {best best' : Option (Float × Value)} (h : L.BestLike best best') (x : Float) :
    ListMethod.improves largest best x = ListMethod.improves largest best' x := by
  cases h with
  | none => rfl
  | some h => simp only [ListMethod.improves, h.1]

theorem BestLike.choose {largest : Bool} {best best' : Option (Float × Value)} {x : Float} {v w : Value}
    (h : L.BestLike best best') (hv : L.ValueLike v w) :
    L.BestLike (if ListMethod.improves largest best x then some (x, v) else best)
      (if ListMethod.improves largest best' x then some (x, w) else best') := by
  rw [improves_eq largest h x]
  split
  · exact .some ⟨rfl, hv⟩
  · exact h

theorem bestNumber_like (largest : Bool) {best best' : Option (Float × Value)} (hbest : L.BestLike best best')
    (h : L.ValuesLike vs ws) :
    ResultLike L.BestLike (ListMethod.bestNumber largest best vs) (ListMethod.bestNumber largest best' ws) := by
  induction h generalizing best best' with
  | nil => exact .ok hbest
  | cons first _ ih =>
    rw [ListMethod.bestNumber, ListMethod.bestNumber, first.number?_eq, first.text_eq]
    split
    · exact ih (hbest.choose first)
    · exact .error _

theorem bestKey_like (hcall : L.CallerLike call call') (hf : L.ValueLike f g) (largest : Bool) (i : Nat)
    {best best' : Option (Float × Value)} (hbest : L.BestLike best best') (h : L.ValuesLike vs ws) :
    L.EndsLike False L.BestLike (ListMethod.bestKey call origin f largest i best vs)
      (ListMethod.bestKey call' origin g largest i best' ws) := by
  induction h generalizing best best' i with
  | nil => exact .ok hbest
  | cons first _ ih =>
    rw [ListMethod.bestKey, ListMethod.bestKey]
    refine (hcall _ hf (.cons first .nil)).bind fun v w hv => ?_
    rw [hv.number?_eq, hv.text_eq]
    split
    · exact ih (i + 1) (hbest.choose first)
    · exact .fail _

theorem extreme_like (largest : Bool) (h : L.ValuesLike vs ws) :
    ResultLike L.ValueLike (ListMethod.extreme largest vs) (ListMethod.extreme largest ws) := by
  refine (bestNumber_like largest .none h).bind fun best best' hbest => ?_
  cases hbest with
  | none => exact .ok (.float _)
  | some hbest => exact .ok hbest.2

theorem extremeBy_like (hcall : L.CallerLike call call') (hf : L.ValueLike f g) (largest : Bool)
    (h : L.ValuesLike vs ws) :
    L.EndsLike False L.ValueLike (ListMethod.extremeBy call origin f largest vs)
      (ListMethod.extremeBy call' origin g largest ws) := by
  refine (bestKey_like hcall hf largest 0 .none h).bind fun best best' hbest => ?_
  cases hbest with
  | none => exact .ok (.list .nil)
  | some hbest => exact .ok (.list (.cons hbest.2 .nil))

theorem listMethod_like (hcall : L.CallerLike call call') (h : L.ValuesLike vs ws) (hf : L.ValueLike f g)
    (m : ListMethod) : L.EndsLike False L.ValueLike (m.run call origin vs f) (m.run call' origin ws g) := by
  cases m with
  | map => exact (mapFrom_like hcall hf 0 h).bind fun _ _ h => .ok (.list h)
  | filter => exact (filterFrom_like hcall hf 0 h).bind fun _ _ h => .ok (.list h)
  | flatten => exact .ofCause ((flattened_like h).bind fun _ _ h => .ok (.list h))
  | cross =>
    have others := hf.items?
    simp only [ListMethod.run, hf.kind_eq]
    generalize f.items? = a at others
    generalize g.items? = b at others
    cases others with
    | none => exact .fail _
    | some others => exact .ok (.list (product_like h others))
  | pairs => exact .ok (.list (pairings_like true h))
  | distincts => exact .ok (.list (pairings_like false h))
  | min => exact .ofCause (extreme_like false h)
  | max => exact .ofCause (extreme_like true h)
  | minby => exact extremeBy_like hcall hf false h
  | maxby => exact extremeBy_like hcall hf true h

theorem listMethod_apply_like (hcall : L.CallerLike call call') (hf : L.ValueLike f g) (h : L.ValuesLike vs ws)
    (m : ListMethod) : L.EndsLike False L.ValueLike (m.apply call origin f vs) (m.apply call' origin g ws) := by
  have first : L.ValueLike (vs.headD .null) (ws.headD .null) := by
    cases h with
    | nil => exact .null
    | cons first _ => exact first
  rw [ListMethod.apply, ListMethod.apply, h.length_eq]
  split
  · exact listMethod_like hcall (OverloadLike.items_getD hf) first m
  · exact .fail _

theorem vectorMethod_like (m : VectorMethod) (hf : L.ValueLike f g) (h : L.ValuesLike vs ws) :
    ResultLike L.ValueLike (m.apply f vs) (m.apply g ws) := by
  cases h with
  | nil => exact .error _
  | cons first rest =>
    cases rest with
    | nil =>
      simp only [VectorMethod.apply, OverloadLike.requireVector_eq hf, OverloadLike.requireVector_eq first]
      refine .bind (R := Eq) (.refl fun _ _ => rfl) ?_
      rintro this _ rfl
      refine .bind (R := Eq) (.refl fun _ _ => rfl) ?_
      rintro other _ rfl
      exact .ok (.float _)
    | cons second rest =>
      simp only [VectorMethod.apply, List.length_cons, rest.length_eq]
      exact .error _

theorem method_like (hcall : L.CallerLike call call') (m : Method) (hf : L.ValueLike f g) (h : L.ValuesLike vs ws) :
    L.EndsLike False L.ValueLike (m.apply call origin f vs) (m.apply call' origin g ws) := by
  cases m with
  | list m => exact listMethod_apply_like hcall hf h m
  | vector m => exact .ofCause (vectorMethod_like m hf h)

end Methods

/-! ### Expressions -/

variable {V : String → Prop} {scope scope' : Scope}

theorem ofLiteral_like (l : Literal) : L.ValueLike (.ofLiteral l) (.ofLiteral l) := by
  cases l with
  | integer n => exact .integer n
  | float x => exact .float x
  | string s => exact .string s

mutual

/-- An expression where alike values are visible. -/
theorem ExprLike.evaluate (hcall : L.CallerLike call call') (hscope : L.SightLike V scope scope') :
    ∀ {e e' : Expr} (origin : Origin), L.ExprLike V e e' →
      L.EndsLike True L.ValueLike (e.evaluate call scope origin) (e'.evaluate call' scope' origin)
  | .literal l s, _, origin, h => by
    cases h with
    | literal _ place => exact .ok (ofLiteral_like l)
  | .name text s, _, origin, h => by
    cases h with
    | name visible place =>
      have seen := hscope.seen text visible
      rw [Expr.evaluate, Expr.evaluate]
      generalize scope.get? text = a at seen
      generalize scope'.get? text = b at seen
      cases seen with
      | none => exact .failAt place
      | some seen => exact .ok seen
  | .lambda ps body s, _, origin, h => by
    cases h with
    | lambda parameters inner place => exact .ok (hscope.closure origin none parameters inner)
  | .operator op es s, _, origin, h => by
    cases h with
    | @operator _ _ fs _ t operands place =>
      by_cases hop : op = .member
      · subst hop
        cases operands with
        | nil => exact .failAt place
        | @cons e e' es fs first rest =>
          cases rest with
          | nil => exact .failAt place
          | @cons m m' es fs second rest =>
            cases rest with
            | nil =>
              simp only [Expr.evaluate, second.name?_eq]
              split
              · next text htext =>
                refine (ExprLike.evaluate hcall hscope _ first).bind fun v w hv => ?_
                exact operator_like .member origin (.cons hv (.cons (.string text) .nil)) place True
              · exact .failAt second.span
            | cons third rest => exact .failAt place
      · rw [Expr.evaluate, Expr.evaluate]
        · refine (ExprsLike.evaluateAll hcall hscope origin 0 operands).bind fun vs ws h => ?_
          exact operator_like op origin h place True
        all_goals first | exact hop | exact fun _ _ h => (hop h).elim
  | .call callee es s, _, origin, h => by
    cases h with
    | call hcallee arguments place =>
      rw [Expr.evaluate, Expr.evaluate]
      refine (ExprsLike.evaluateAll hcall hscope origin 2 arguments).bind fun vs ws hvs => ?_
      refine (ExprLike.evaluate hcall hscope _ hcallee).bind fun f g hf => ?_
      exact (hcall _ hf hvs).orAt place

theorem ExprsLike.evaluateAll (hcall : L.CallerLike call call') (hscope : L.SightLike V scope scope')
    (origin : Origin) : ∀ {es es' : List Expr} (i : Nat), L.ExprsLike V es es' →
      L.EndsLike True L.ValuesLike (Expr.evaluateAll call scope origin i es) (Expr.evaluateAll call' scope' origin i es')
  | [], _, i, h => by
    cases h
    exact .ok .nil
  | e :: rest, _, i, h => by
    cases h with
    | cons first more =>
      rw [Expr.evaluateAll, Expr.evaluateAll]
      refine (ExprLike.evaluate hcall hscope _ first).bind fun v w hv => ?_
      exact (ExprsLike.evaluateAll hcall hscope origin (i + 1) more).bind fun vs ws hvs => .ok (.cons hv hvs)

end

theorem scope_evaluate_like (hcall : L.CallerLike call call') (hscope : L.SightLike V scope scope') {e e' : Expr}
    (he : L.ExprLike V e e') : L.EndsLike True L.ValueLike (scope.evaluate call e) (scope'.evaluate call' e') := by
  rw [Scope.evaluate, Scope.evaluate, Scope.place, Scope.place, hscope.base, hscope.made]
  exact he.evaluate hcall hscope _

theorem bind_define_like (hcall : L.CallerLike call call') (hscope : L.ScopeLike V scope scope') {a b : Name}
    {e e' : Expr} (ha : L.NameLike a b) (he : L.ExprLike V e e') (s t : Span) :
    L.EndsLike True (L.ScopeLike V) (scope.bind call (.define a e s)) (scope'.bind call' (.define b e' t)) := by
  rw [Scope.bind, Scope.bind, ha.text]
  exact (scope_evaluate_like hcall hscope.toSightLike he).bind fun v w hv => .ok (hscope.define _ hv)

theorem bind_function_like (call call' : Caller) (hscope : L.ScopeLike V scope scope') {a b : Name} {ps qs : List Name}
    {body body' : List Statement} (ha : L.NameLike a b) (parameters : List.Forall₂ L.NameLike ps qs)
    (inner : L.BodyLike V body body') (s t : Span) :
    L.EndsLike True (L.ScopeLike V) (scope.bind call (.function a ps body s))
      (scope'.bind call' (.function b qs body' t)) := by
  rw [Scope.bind, Scope.bind, ha.text, hscope.place_eq]
  exact .ok (hscope.defineFunction _ (hscope.toSightLike.closure _ _ parameters inner))

/-! ### Calls -/

/-- A statement that has no place in a function binds nothing there. -/
theorem bind_of_not_inBody {s : Statement} (h : s.inBody = false) (call : Caller) (scope : Scope) :
    scope.bind call s = Outcome.failAt .bodyStatement s.span := by
  cases s <;> first | rfl | cases h

theorem result_of_not_inBody {s : Statement} (h : s.inBody = false) (call : Caller) (scope : Scope) :
    Lambda.result call scope [s] = Outcome.failAt .bodyResult s.span := by
  cases s <;> first | rfl | cases h

theorem result_cons_cons (call : Caller) (scope : Scope) (s next : Statement) (more : List Statement) :
    Lambda.result call scope (s :: next :: more) =
      scope.bind call s >>= fun scope => Lambda.result call scope (next :: more) := by
  rw [Lambda.result]
  exact List.cons_ne_nil _ _

/-- The bodies of two functions in alike scopes. -/
theorem body_result_like (hcall : L.CallerLike call call') {body body' : List Statement} {scope scope' : Scope}
    (h : L.BodyLike V body body') (hscope : L.ScopeLike V scope scope') :
    L.EndsLike False L.ValueLike (Lambda.result call scope body) (Lambda.result call' scope' body') := by
  induction body generalizing body' scope scope' with
  | nil =>
    cases h
    exact .fail _
  | cons s rest ih =>
    cases rest with
    | nil =>
      cases h with
      | define _ _ place rest | function _ _ _ place rest =>
        cases rest
        exact .failAt place
      | result value place rest =>
        cases rest
        exact (scope_evaluate_like hcall hscope.toSightLike value).unplaced
      | other first place rest =>
        cases rest
        rw [result_of_not_inBody first, result_of_not_inBody first]
        exact .failAt place
    | cons next more =>
      cases h with
      | @define _ _ _ _ _ _ _ more' target value place rest =>
        obtain ⟨next', more', rfl⟩ : ∃ next' rest', more' = next' :: rest' := by cases rest <;> exact ⟨_, _, rfl⟩
        rw [result_cons_cons, result_cons_cons]
        exact (bind_define_like hcall hscope target value _ _).unplaced.bind fun _ _ h => ih rest h
      | @function _ _ _ _ _ _ _ _ _ more' target parameters inner place rest =>
        obtain ⟨next', more', rfl⟩ : ∃ next' rest', more' = next' :: rest' := by cases rest <;> exact ⟨_, _, rfl⟩
        rw [result_cons_cons, result_cons_cons]
        exact (bind_function_like call call' hscope target parameters inner _ _).unplaced.bind fun _ _ h => ih rest h
      | @result _ _ _ _ _ more' value place rest =>
        obtain ⟨next', more', rfl⟩ : ∃ next' rest', more' = next' :: rest' := by cases rest <;> exact ⟨_, _, rfl⟩
        exact .failAt place
      | @other _ _ more' first place rest =>
        obtain ⟨next', more', rfl⟩ : ∃ next' rest', more' = next' :: rest' := by cases rest <;> exact ⟨_, _, rfl⟩
        rw [result_cons_cons, result_cons_cons, bind_of_not_inBody first, bind_of_not_inBody first]
        exact .failAt place

theorem fieldsLike_zip : ∀ (names : List String) {vs ws : List Value}, L.ValuesLike vs ws →
    L.FieldsLike (names.zip vs) (names.zip ws)
  | [], _, _, _ => .nil
  | _ :: _, _, _, .nil => .nil
  | _ :: names, _, _, .cons first rest => .cons ⟨rfl, first⟩ (fieldsLike_zip names rest)

theorem lambda_like (hcall : L.CallerLike call call') (origin : Origin) {l m : Lambda} {env env' : Env Value}
    (named : ∀ x, L.named x → V x) (parameters : List.Forall₂ L.NameLike l.parameters m.parameters)
    (body : L.BodyLike V l.body m.body) (seen : ∀ x, V x → Option.Rel L.ValueLike (env.get? x) (env'.get? x))
    (same : L.same → env = env') {vs ws : List Value} (h : L.ValuesLike vs ws) :
    L.EndsLike False L.ValueLike (l.apply call origin env vs) (m.apply call' origin env' ws) := by
  rw [Lambda.apply, Lambda.apply, parameters.length_eq, h.length_eq, NameLike.texts_eq parameters]
  split
  · exact body_result_like hcall body ((ScopeLike.above named same seen origin).defineAll (fieldsLike_zip _ h))
  · exact .fail _

theorem ReplyLike.run (hcall : L.CallerLike call call') (origin : Origin) {reply reply' : Reply}
    (h : L.ReplyLike reply reply') (i : Nat) :
    L.EndsLike False L.ValueLike (reply.run call origin i) (reply'.run call' origin i) := by
  induction h generalizing i with
  | finish result => exact .ok result
  | raise message => exact .fail _
  | call callee arguments next ih =>
    have answered := hcall (i :: origin) callee arguments
    rw [Reply.run, Reply.run]
    generalize call (i :: origin) _ _ = a at answered
    generalize call' (i :: origin) _ _ = b at answered
    cases answered with
    | ok hv => exact ih _ _ hv (i + 1)
    | failure place known => exact .failure place known
    | tooDeep => exact .tooDeep
    | fault allowed faulty =>
      refine .fault allowed (faulty.imp ?_ ?_)
      all_goals
        rintro ⟨cause, s, rfl, internal⟩
        exact ⟨cause, s, rfl, internal⟩

/-- Calls with alike host functions are alike, however deep they may nest. -/
theorem HostLike.caller {host host' : Host} (h : L.HostLike host host') (depth : Nat) :
    L.CallerLike (host.caller depth) (host'.caller depth) := by
  induction depth with
  | zero => exact fun _ _ _ _ _ _ _ => .tooDeep
  | succ depth ih =>
    intro origin f g vs ws hf hvs
    have kind := hf.kind_eq
    cases hf with
    | closure _ _ V named parameters body seen same => exact lambda_like ih origin named parameters body seen same hvs
    | builtin b => exact .ofCause (builtin_like b hvs)
    | host number allowed => exact (h allowed number hvs).run ih origin 0
    | method _ m receiver => exact method_like ih m receiver hvs
    | _ => exact .fail _

end Likeness
end RecordStats
