import RecordStats.Evaluation.Call
import RecordStats.Proofs.Evaluation.Builtin
import RecordStats.Proofs.Evaluation.Operation

/-! Evaluation makes sound values. Within an expression the argument follows the tree, and takes from the calls
    that they do the same; the calls then follow the depth to which they may nest, since a body is one level
    deeper than its call. -/

namespace RecordStats

/-! ### Methods -/

namespace ListMethod

variable {call : Caller} {origin : Origin} {f : Value} {items : List Value}

/-- A list of sound values, as results and as operands. -/
abbrev AllSound (vs : List Value) : Prop := ∀ v ∈ vs, v.Sound

theorem allSound_singleton {v : Value} (h : v.Sound) : AllSound [v] := List.forall_mem_singleton.mpr h

theorem mapFrom_faultless (hcall : Caller.Sound call) (hf : f.Sound) (i : Nat) (h : AllSound items) :
    Faultless AllSound (mapFrom call origin f i items) := by
  induction items generalizing i with
  | nil => exact .ok nofun
  | cons item rest ih =>
    obtain ⟨hitem, hrest⟩ := List.forall_mem_cons.mp h
    rw [mapFrom]
    refine (hcall _ hf (allSound_singleton hitem)).bind fun v hv => (ih (i + 1) hrest).bind fun vs hvs => ?_
    exact .ok (List.forall_mem_cons.mpr ⟨hv, hvs⟩)

theorem filterFrom_faultless (hcall : Caller.Sound call) (hf : f.Sound) (i : Nat) (h : AllSound items) :
    Faultless AllSound (filterFrom call origin f i items) := by
  induction items generalizing i with
  | nil => exact .ok nofun
  | cons item rest ih =>
    obtain ⟨hitem, hrest⟩ := List.forall_mem_cons.mp h
    rw [filterFrom]
    refine (hcall _ hf (allSound_singleton hitem)).bind fun v hv => ?_
    split
    · refine (ih (i + 1) hrest).bind fun kept hkept => .ok ?_
      split
      · exact List.forall_mem_cons.mpr ⟨hitem, hkept⟩
      · exact hkept
    · exact .error ErrorKind.noConfusion

theorem flattened_faultless (h : AllSound items) : Faultless AllSound (flattened items) := by
  induction items with
  | nil => exact .ok nofun
  | cons item rest ih =>
    obtain ⟨hitem, hrest⟩ := List.forall_mem_cons.mp h
    rw [flattened]
    split
    · next inner hinner =>
      refine (ih hrest).bind fun vs hvs => .ok ?_
      exact List.forall_mem_append.mpr ⟨hitem.of_mem_items hinner, hvs⟩
    · exact .error ErrorKind.noConfusion

theorem joined_sound {x y : Value} (hx : x.Sound) (hy : y.Sound) : (joined x y).Sound := by
  unfold joined
  split
  · cases hx with
    | tuple h => exact .tuple (List.forall_mem_append.mpr ⟨h, allSound_singleton hy⟩)
  · exact .tuple (List.forall_mem_cons.mpr ⟨hx, allSound_singleton hy⟩)

theorem product_sound {xs ys : List Value} (hx : AllSound xs) (hy : AllSound ys) : AllSound (product xs ys) := by
  intro v hv
  obtain ⟨x, hxmem, hv⟩ := List.mem_flatMap.mp hv
  obtain ⟨y, hymem, rfl⟩ := List.mem_map.mp hv
  exact joined_sound (hx x hxmem) (hy y hymem)

theorem pairings_sound (self : Bool) (h : AllSound items) : AllSound (pairings self items) := by
  induction items with
  | nil => exact nofun
  | cons x rest ih =>
    obtain ⟨hx, hrest⟩ := List.forall_mem_cons.mp h
    rw [pairings]
    refine List.forall_mem_append.mpr ⟨fun v hv => ?_, ih hrest⟩
    obtain ⟨y, hy, rfl⟩ := List.mem_map.mp hv
    have hysound : y.Sound := by
      split at hy
      · exact h y hy
      · exact hrest y hy
    exact .tuple (List.forall_mem_cons.mpr ⟨hx, allSound_singleton hysound⟩)

/-- The best item so far, if there is one, is sound. -/
def BestSound (best : Option (Float × Value)) : Prop := ∀ b ∈ best, b.2.Sound

theorem BestSound.none : BestSound .none := nofun

theorem BestSound.choose {largest : Bool} {best : Option (Float × Value)} {x : Float} {item : Value}
    (h : BestSound best) (hitem : item.Sound) :
    BestSound (if improves largest best x then some (x, item) else best) := by
  split
  · rintro b ⟨⟩
    exact hitem
  · exact h

theorem bestNumber_faultless (largest : Bool) {best : Option (Float × Value)} (hbest : BestSound best)
    (h : AllSound items) : Faultless BestSound (bestNumber largest best items) := by
  induction items generalizing best with
  | nil => exact .ok hbest
  | cons item rest ih =>
    obtain ⟨hitem, hrest⟩ := List.forall_mem_cons.mp h
    rw [bestNumber]
    split
    · exact ih (hbest.choose hitem) hrest
    · exact .error ErrorKind.noConfusion

theorem bestKey_faultless (hcall : Caller.Sound call) (hf : f.Sound) (largest : Bool) (i : Nat)
    {best : Option (Float × Value)} (hbest : BestSound best) (h : AllSound items) :
    Faultless BestSound (bestKey call origin f largest i best items) := by
  induction items generalizing best i with
  | nil => exact .ok hbest
  | cons item rest ih =>
    obtain ⟨hitem, hrest⟩ := List.forall_mem_cons.mp h
    rw [bestKey]
    refine (hcall _ hf (allSound_singleton hitem)).bind fun v _ => ?_
    split
    · exact ih (i + 1) (hbest.choose hitem) hrest
    · exact .error ErrorKind.noConfusion

theorem extreme_faultless (largest : Bool) (h : AllSound items) : Faultless Value.Sound (extreme largest items) := by
  refine (bestNumber_faultless largest BestSound.none h).bind fun best hbest => ?_
  split
  · exact .ok (hbest _ rfl)
  · exact .ok (.float _)

theorem extremeBy_faultless (hcall : Caller.Sound call) (hf : f.Sound) (largest : Bool) (h : AllSound items) :
    Faultless Value.Sound (extremeBy call origin f largest items) := by
  refine (bestKey_faultless hcall hf largest 0 BestSound.none h).bind fun best hbest => .ok (.list fun v hv => ?_)
  obtain ⟨b, hb, rfl⟩ := Option.map_eq_some_iff.mp (Option.mem_toList.mp hv)
  exact hbest b hb

theorem run_faultless (hcall : Caller.Sound call) (h : AllSound items) (hf : f.Sound) (m : ListMethod) :
    Faultless Value.Sound (m.run call origin items f) := by
  cases m with
  | map => exact (mapFrom_faultless hcall hf 0 h).bind fun vs hvs => .ok (.list hvs)
  | filter => exact (filterFrom_faultless hcall hf 0 h).bind fun vs hvs => .ok (.list hvs)
  | flatten => exact ((flattened_faultless h).bind fun vs hvs => .ok (.list hvs)).ofCause
  | cross =>
    rw [run]
    split
    · next others hothers => exact .ok (.list (product_sound h (hf.of_mem_items hothers)))
    · exact .error ErrorKind.noConfusion
  | pairs => exact .ok (.list (pairings_sound true h))
  | distincts => exact .ok (.list (pairings_sound false h))
  | min => exact (extreme_faultless false h).ofCause
  | max => exact (extreme_faultless true h).ofCause
  | minby => exact extremeBy_faultless hcall hf false h
  | maxby => exact extremeBy_faultless hcall hf true h

theorem apply_faultless (hcall : Caller.Sound call) {receiver : Value} (hr : receiver.Sound) {arguments : List Value}
    (ha : AllSound arguments) (m : ListMethod) : Faultless Value.Sound (m.apply call origin receiver arguments) := by
  unfold apply
  split
  · refine run_faultless hcall hr.items_getD ?_ m
    cases arguments with
    | nil => exact .null
    | cons a rest => exact ha a List.mem_cons_self
  · exact .error ErrorKind.noConfusion

end ListMethod

theorem VectorMethod.apply_faultless (m : VectorMethod) (receiver : Value) (arguments : List Value) :
    Faultless Value.Sound (m.apply receiver arguments) := by
  unfold apply
  split
  · refine (Overload.requireVector_faultless receiver).bind fun _ _ => ?_
    exact (Overload.requireVector_faultless _).bind fun _ _ => .ok (.float _)
  · exact .error ErrorKind.noConfusion

theorem Method.apply_faultless {call : Caller} (hcall : Caller.Sound call) (origin : Origin) (m : Method)
    {receiver : Value} (hr : receiver.Sound) {arguments : List Value} (ha : ∀ a ∈ arguments, a.Sound) :
    Faultless Value.Sound (m.apply call origin receiver arguments) := by
  cases m with
  | list m => exact m.apply_faultless hcall hr ha
  | vector m => exact (m.apply_faultless receiver arguments).ofCause

/-! ### Expressions -/

variable {call : Caller} {scope : Scope} {most : Nat}

namespace Expr

mutual

/-- An expression of a text in a sound scope. -/
theorem evaluate_faultless (hcall : Caller.Sound call) (hscope : scope.Sound) :
    ∀ {e : Expr} (origin : Origin), e.WellFormed most → Faultless Value.Sound (e.evaluate call scope origin)
  | literal value s, origin, _ => by
    rw [evaluate]
    exact .ok (.ofLiteral value)
  | name text s, origin, _ => by
    rw [evaluate]
    split
    · next found => exact .ok (hscope.get? found)
    · exact .error ErrorKind.noConfusion
  | lambda parameters body s, origin, h => by
    rw [evaluate]
    exact .ok (hscope.closure origin none h.2)
  | operator op operands s, origin, ⟨hlen, hmember, hoperands⟩ => by
    -- The operand behind a dot is a name, and is not evaluated.
    by_cases hop : op = .member
    · subst hop
      obtain ⟨receiver, text, t, rfl⟩ := hmember rfl
      simp only [evaluate, name?]
      refine (evaluate_faultless hcall hscope _ hoperands.1).bind fun v hv => ?_
      have hoperands : ∀ w ∈ [v, .string text], w.Sound :=
        List.forall_mem_cons.mpr ⟨hv, List.forall_mem_singleton.mpr (.string text)⟩
      exact Operator.apply_faultless .member _ rfl hoperands s
    · rw [evaluate]
      · refine (evaluateAll_faultless hcall hscope origin 0 hoperands).bind fun vs hvs => ?_
        exact op.apply_faultless origin (hvs.1.trans hlen) hvs.2 s
      · exact hop
      · exact fun _ _ h => (hop h).elim
  | Expr.call callee arguments s, origin, ⟨hcallee, _, harguments⟩ => by
    rw [evaluate]
    refine (evaluateAll_faultless hcall hscope origin 2 harguments).bind fun vs hvs => ?_
    refine (evaluate_faultless hcall hscope _ hcallee).bind fun f hf => ?_
    exact (hcall _ hf hvs.2).orAt s

/-- There are as many values as expressions. -/
theorem evaluateAll_faultless (hcall : Caller.Sound call) (hscope : scope.Sound) (origin : Origin) :
    ∀ {es : List Expr} (i : Nat), WellFormedAll most es →
      Faultless (fun vs => vs.length = es.length ∧ ∀ v ∈ vs, v.Sound) (evaluateAll call scope origin i es)
  | [], i, _ => by
    rw [evaluateAll]
    exact .ok ⟨rfl, nofun⟩
  | e :: rest, i, ⟨he, hrest⟩ => by
    rw [evaluateAll]
    refine (evaluate_faultless hcall hscope _ he).bind fun v hv => ?_
    refine (evaluateAll_faultless hcall hscope origin (i + 1) hrest).bind fun vs hvs => .ok ⟨?_, ?_⟩
    · rw [List.length_cons, List.length_cons, hvs.1]
    · exact List.forall_mem_cons.mpr ⟨hv, hvs.2⟩

end

end Expr

theorem Scope.evaluate_faultless (hcall : Caller.Sound call) (hscope : scope.Sound) {e : Expr}
    (he : e.WellFormed most) :
    Faultless Value.Sound (scope.evaluate call e) :=
  Expr.evaluate_faultless hcall hscope scope.place he

theorem Scope.bind_define_faultless (hcall : Caller.Sound call) (hscope : scope.Sound) (target : Name) {e : Expr}
    (he : e.WellFormed most) (s : Span) : Faultless Scope.Sound (scope.bind call (.define target e s)) := by
  rw [Scope.bind]
  exact (Scope.evaluate_faultless hcall hscope he).bind fun v hv => .ok (hscope.define _ hv)

theorem Scope.bind_function_faultless (call : Caller) (hscope : scope.Sound) (target : Name) (parameters : List Name)
    {body : List Statement} (hbody : Expr.WellFormedBody most body) (s : Span) :
    Faultless Scope.Sound (scope.bind call (.function target parameters body s)) := by
  rw [Scope.bind]
  exact .ok (hscope.defineFunction _ (hscope.closure _ _ hbody))

/-! ### Calls -/

namespace Lambda

/-- A body of a text. Its definitions come first, and it ends with its result. -/
theorem result_faultless (hcall : Caller.Sound call) :
    ∀ {body : List Statement} {scope : Scope}, Expr.WellFormedBody most body → scope.Sound →
      Faultless Value.Sound (result call scope body)
  | .result e s :: rest, scope, ⟨he, hlast⟩, hscope => by
    subst hlast
    rw [result]
    exact Scope.evaluate_faultless hcall hscope he
  | .define target e s :: next :: rest, scope, ⟨he, hrest⟩, hscope => by
    rw [result]
    · refine (Scope.bind_define_faultless hcall hscope target he s).bind fun inner hinner => ?_
      exact result_faultless hcall hrest hinner
    · exact nofun
  | .function target parameters body s :: next :: rest, scope, ⟨_, hbody, hrest⟩, hscope => by
    rw [result]
    · refine (Scope.bind_function_faultless call hscope target parameters hbody s).bind fun inner hinner => ?_
      exact result_faultless hcall hrest hinner
    · exact nofun
  | [.define _ _ _], _, ⟨_, hrest⟩, _ => hrest.elim
  | [.function _ _ _ _], _, ⟨_, _, hrest⟩, _ => hrest.elim

theorem apply_faultless (hcall : Caller.Sound call) (origin : Origin) {f : Lambda} {env : Env Value}
    (hbody : Expr.WellFormedBody most f.body) (hb : Value.SoundFields env.bindings)
    (hs : Value.SoundFields env.standing) {arguments : List Value} (ha : ∀ a ∈ arguments, a.Sound) :
    Faultless Value.Sound (f.apply call origin env arguments) := by
  unfold apply
  split
  · refine result_faultless hcall hbody ((Scope.Sound.above hb hs origin).defineAll fun b hb => ?_)
    exact ha b.2 (List.of_mem_zip hb).2
  · exact .error ErrorKind.noConfusion

end Lambda

/-- What a sound host function comes to when calls are sound. -/
theorem Reply.Sound.run (hcall : Caller.Sound call) (origin : Origin) {reply : Reply} (h : reply.Sound) (i : Nat) :
    Faultless Value.Sound (reply.run call origin i) := by
  induction h generalizing i with
  | finish h => exact .ok h
  | raise message => exact .error ErrorKind.noConfusion
  | @call f arguments resume hf ha hr ih =>
    rcases (hcall (i :: origin) hf ha).ok_or_error with ⟨v, hresult, hv⟩ | ⟨stop, hresult, hstop⟩
    · rw [Reply.run, hresult]
      exact ih v hv (i + 1)
    · rw [Reply.run, hresult]
      exact .error hstop

/-- Calls are sound, however deep they may nest. -/
theorem Host.Sound.caller {host : Host} (h : host.Sound) (depth : Nat) : Caller.Sound (host.caller depth) := by
  induction depth with
  | zero => exact fun _ _ _ _ _ => .error id
  | succ depth ih =>
    intro origin f arguments hf ha
    cases hf with
    | closure hbody hb hs => exact Lambda.apply_faultless ih origin hbody hb hs ha
    | builtin b => exact ((b.apply_faultless arguments).mono fun _ h => h.sound).ofCause
    | host number => exact (h number arguments ha).run ih origin 0
    | method hr => exact Method.apply_faultless ih origin _ hr ha
    | _ => exact .error ErrorKind.noConfusion

end RecordStats
