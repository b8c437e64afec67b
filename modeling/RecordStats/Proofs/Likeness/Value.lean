import RecordStats.Kinematics.Vector
import RecordStats.Proofs.Likeness.Basic
import RecordStats.Value.Text

/-! What alike values have in common. Their kinds, numbers, truth values and texts are the same, and so is whether
    they are equal to others; only what functions have taken with them may differ: two functions of programs were made at
    the same place from texts that stand for one another, and have taken the same values with them under the names that
    count. Alike ends of evaluations are put together along their steps. -/

namespace RecordStats

/-! ### Internal errors -/

namespace Outcome.Faulty

variable {α β : Type} {x : Outcome α}

theorem bind (h : x.Faulty) (f : α → Outcome β) : (x >>= f).Faulty := by
  obtain ⟨cause, s, rfl, hc⟩ := h
  exact ⟨cause, s, rfl, hc⟩

theorem map (h : x.Faulty) (f : α → β) : Faulty (x.map f) := by
  obtain ⟨cause, s, rfl, hc⟩ := h
  exact ⟨cause, s, rfl, hc⟩

theorem orAt (h : x.Faulty) (s : Span) : (x.orAt s).Faulty := by
  obtain ⟨cause, t, rfl, hc⟩ := h
  exact ⟨cause, _, rfl, hc⟩

end Outcome.Faulty

/-! ### Pairs by their keys -/

namespace PairsLike

variable {α β : Type} {R : α → β → Prop} {ps : List (String × α)} {qs : List (String × β)}

theorem iff_keys :
    PairsLike R ps qs ↔ ps.map Prod.fst = qs.map Prod.fst ∧ List.Forall₂ R (ps.map Prod.snd) (qs.map Prod.snd) := by
  induction ps generalizing qs with
  | nil => cases qs <;> simp [PairsLike]
  | cons p ps ih =>
    cases qs with
    | nil => simp [PairsLike]
    | cons q qs =>
      have ih := @ih qs
      unfold PairsLike at ih ⊢
      simp only [List.forall₂_cons, List.map_cons, List.cons.injEq, ih]
      exact ⟨fun ⟨⟨hn, hv⟩, hns, hvs⟩ => ⟨⟨hn, hns⟩, hv, hvs⟩, fun ⟨⟨hn, hns⟩, hv, hvs⟩ => ⟨⟨hn, hv⟩, hns, hvs⟩⟩

/-- Under each key stand related things, or under both none. -/
theorem get? (h : PairsLike R ps qs) (key : String) : Option.Rel R (Dict.get? ps key) (Dict.get? qs key) := by
  induction h with
  | nil => exact .none
  | @cons p q ps qs first rest ih =>
    obtain ⟨n, a⟩ := p
    obtain ⟨m, b⟩ := q
    obtain ⟨rfl, hab⟩ := first
    rw [Dict.get?_cons, Dict.get?_cons]
    split
    · exact .some hab
    · exact ih

theorem insert (h : PairsLike R ps qs) (key : String) {a : α} {b : β} (hab : R a b) :
    PairsLike R (Dict.insert ps key a) (Dict.insert qs key b) := by
  induction h with
  | nil => exact .cons ⟨rfl, hab⟩ .nil
  | @cons p q ps qs first rest ih =>
    obtain ⟨n, c⟩ := p
    obtain ⟨m, d⟩ := q
    obtain ⟨rfl, hcd⟩ := first
    rw [Dict.insert, Dict.insert]
    split
    · exact .cons ⟨rfl, hab⟩ rest
    · split
      · exact .cons ⟨rfl, hab⟩ (.cons ⟨rfl, hcd⟩ rest)
      · exact .cons ⟨rfl, hcd⟩ ih

end PairsLike

namespace Likeness

variable {L : Likeness}

/-! ### Ends one after another -/

namespace ResultLike

variable {α β γ δ : Type} {R : α → β → Prop} {S : γ → δ → Prop}

theorem bind {x : Except Cause α} {y : Except Cause β} {f : α → Except Cause γ} {g : β → Except Cause δ}
    (h : ResultLike R x y) (hf : ∀ a b, R a b → ResultLike S (f a) (g b)) : ResultLike S (x >>= f) (y >>= g) := by
  cases h with
  | ok h => exact hf _ _ h
  | error cause => exact .error cause

theorem refl {x : Except Cause α} {R : α → α → Prop} (h : ∀ a, x = .ok a → R a a) : ResultLike R x x := by
  cases x with
  | ok a => exact .ok (h a rfl)
  | error cause => exact .error cause

end ResultLike

namespace EndsLike

variable {α β γ δ : Type} {placed : Prop} {R : α → β → Prop} {S : γ → δ → Prop} {x : Outcome α} {y : Outcome β}

theorem bind {f : α → Outcome γ} {g : β → Outcome δ} (h : L.EndsLike placed R x y)
    (hf : ∀ a b, R a b → L.EndsLike placed S (f a) (g b)) : L.EndsLike placed S (x >>= f) (y >>= g) := by
  cases h with
  | ok h => exact hf _ _ h
  | failure place known => exact .failure place known
  | tooDeep => exact .tooDeep
  | fault allowed faulty => exact .fault allowed (faulty.imp (·.bind f) (·.bind g))

/-- What has been placed need not be. -/
theorem unplaced (h : L.EndsLike placed R x y) : L.EndsLike False R x y := by
  cases h with
  | ok h => exact .ok h
  | failure place known => exact .failure place False.elim
  | tooDeep => exact .tooDeep
  | fault allowed faulty => exact .fault allowed faulty

theorem failAt {cause : Cause} {s t : Span} (h : L.span s t) :
    L.EndsLike placed R (Outcome.failAt cause s) (Outcome.failAt cause t) :=
  .failure (.some h) fun _ => .inl rfl

theorem failInternal {cause : Cause} (h : cause.kind = .internal) :
    L.EndsLike placed R (Outcome.fail cause) (Outcome.fail cause) :=
  .failure .none fun _ => .inr h

theorem fail (cause : Cause) : L.EndsLike False R (Outcome.fail cause) (Outcome.fail cause) :=
  .failure .none False.elim

/-- A place that is given makes failures placed. -/
theorem orAt (h : L.EndsLike False R x y) {s t : Span} (hs : L.span s t) :
    L.EndsLike placed R (x.orAt s) (y.orAt t) := by
  cases h with
  | ok h => exact .ok h
  | failure place known =>
    refine .failure ?_ fun _ => .inl rfl
    cases place with
    | some hr => exact .some hr
    | none => exact .some hs
  | tooDeep => exact .tooDeep
  | fault allowed faulty => exact .fault allowed (faulty.imp (·.orAt s) (·.orAt t))

theorem ofCause {x : Except Cause α} {y : Except Cause β} (h : ResultLike R x y) :
    L.EndsLike False R (Outcome.ofCause x) (Outcome.ofCause y) := by
  cases h with
  | ok h => exact .ok h
  | error cause => exact .fail cause

end EndsLike

/-- Induction on how values are alike; what holds of items is told for the lists. -/
@[elab_as_elim]
theorem ValueLike.induct {motive : Value → Value → Prop} (null : motive .null .null)
    (boolean : ∀ b, motive (.boolean b) (.boolean b)) (integer : ∀ n, motive (.integer n) (.integer n))
    (float : ∀ x, motive (.float x) (.float x)) (string : ∀ s, motive (.string s) (.string s))
    (list : ∀ vs ws, List.Forall₂ motive vs ws → motive (.list vs) (.list ws))
    (tuple : ∀ vs ws, List.Forall₂ motive vs ws → motive (.tuple vs) (.tuple ws))
    (record : ∀ fs gs, PairsLike motive fs gs → motive (.record fs) (.record gs))
    (closure : ∀ (origin : Origin) (name : Option String) (l m : Lambda) (env env' : Env Value) (V : String → Prop),
      (∀ x, L.named x → V x) → List.Forall₂ L.NameLike l.parameters m.parameters → L.BodyLike V l.body m.body →
        (∀ x, V x → Option.Rel motive (env.get? x) (env'.get? x)) → (L.same → env = env') →
          motive (.function (.closure origin name l env)) (.function (.closure origin name m env')))
    (builtin : ∀ b, motive (.function (.builtin b)) (.function (.builtin b)))
    (host : ∀ number, L.hosts → motive (.function (.host number)) (.function (.host number)))
    (method : ∀ (origin : Origin) (v w : Value) (m : Method), motive v w →
      motive (.function (.method origin v m)) (.function (.method origin w m)))
    {v w : Value} (h : L.ValueLike v w) : motive v w :=
  @ValueLike.rec L (fun v w _ => motive v w) (fun vs ws _ => List.Forall₂ motive vs ws)
    (fun a b _ => Option.Rel motive a b) null boolean integer float string (fun _ => list _ _) (fun _ => tuple _ _)
    (fun names _ items => record _ _ (PairsLike.iff_keys.mpr ⟨names, items⟩))
    (fun origin name {l m env env'} V named parameters body _ same seen =>
      closure origin name l m env env' V named parameters body seen same)
    builtin host (fun origin {v w} m _ ih => method origin v w m ih) .nil (fun _ _ first rest => .cons first rest)
    (fun _ h => .some h) .none v w h

theorem ValueLike.ofFields {fs gs : List (String × Value)} (h : L.FieldsLike fs gs) :
    L.ValueLike (.record fs) (.record gs) :=
  .record (PairsLike.iff_keys.mp h).1 (PairsLike.iff_keys.mp h).2

/-! ### Likeness without differences -/

variable {V : String → Prop}

theorem NameLike.eq (strict : ∀ {s t : Span}, L.span s t → s = t) {a b : Name} (h : L.NameLike a b) : a = b := by
  have span := strict h.place
  have text := h.text
  cases a
  cases b
  simp only at span text
  rw [span, text]

theorem NameLike.eq_all (strict : ∀ {s t : Span}, L.span s t → s = t) {ps qs : List Name}
    (h : List.Forall₂ L.NameLike ps qs) : ps = qs := by
  induction h with
  | nil => rfl
  | cons first _ ih => rw [first.eq strict, ih]

mutual

/-- Where no place may stand for another, only equal texts are alike. -/
theorem ExprLike.eq (strict : ∀ {s t : Span}, L.span s t → s = t) : ∀ {e f : Expr}, L.ExprLike V e f → e = f
  | .literal _ _, _, h => by
    cases h with
    | literal _ place => rw [strict place]
  | .name _ _, _, h => by
    cases h with
    | name _ place => rw [strict place]
  | .operator _ es _, _, h => by
    cases h with
    | operator _ operands place => rw [strict place, ExprsLike.eq strict operands]
  | .call e es _, _, h => by
    cases h with
    | call callee arguments place =>
      rw [strict place, ExprLike.eq strict callee, ExprsLike.eq strict arguments]
  | .lambda _ body _, _, h => by
    cases h with
    | lambda parameters inner place =>
      rw [strict place, NameLike.eq_all strict parameters, BodyLike.eq strict inner]

theorem ExprsLike.eq (strict : ∀ {s t : Span}, L.span s t → s = t) : ∀ {es fs : List Expr},
    L.ExprsLike V es fs → es = fs
  | [], _, h => by
    cases h
    rfl
  | e :: es, _, h => by
    cases h with
    | cons first rest => rw [ExprLike.eq strict first, ExprsLike.eq strict rest]

theorem BodyLike.eq (strict : ∀ {s t : Span}, L.span s t → s = t) : ∀ {body body' : List Statement},
    L.BodyLike V body body' → body = body'
  | [], _, h => by
    cases h
    rfl
  | s :: more, _, h => by
    cases h with
    | define target value place rest =>
      rw [target.eq strict, ExprLike.eq strict value, strict place, BodyLike.eq strict rest]
    | function target parameters inner place rest =>
      rw [target.eq strict, NameLike.eq_all strict parameters, BodyLike.eq strict inner, strict place,
        BodyLike.eq strict rest]
    | result value place rest =>
      rw [ExprLike.eq strict value, strict place, BodyLike.eq strict rest]
    | other _ _ rest => rw [BodyLike.eq strict rest]

end

theorem PairsLike.eq {α : Type} {ps qs : List (String × α)} (h : PairsLike Eq ps qs) : ps = qs := by
  induction h with
  | nil => rfl
  | cons first _ ih => rw [ih, Prod.ext first.1 first.2]

/-- In one and the same evaluation only equal values are alike. -/
theorem ValueLike.eq (same : L.same) {v w : Value} (h : L.ValueLike v w) : v = w := by
  refine ValueLike.induct (motive := Eq) rfl (fun _ => rfl) (fun _ => rfl) (fun _ => rfl) (fun _ => rfl) ?list ?tuple
    ?record ?closure (fun _ => rfl) (fun _ _ => rfl) ?method h
  case list =>
    intro vs ws items
    have items : vs = ws := List.forall₂_eq_eq_eq ▸ items
    rw [items]
  case tuple =>
    intro vs ws items
    have items : vs = ws := List.forall₂_eq_eq_eq ▸ items
    rw [items]
  case record =>
    intro fs gs fields
    rw [PairsLike.eq fields]
  case closure =>
    rintro origin name ⟨ps, statements⟩ ⟨qs, statements'⟩ env env' V - parameters body - envs
    have hparameters : ps = qs := NameLike.eq_all (L.eq_of_span same) parameters
    have hbody : statements = statements' := BodyLike.eq (L.eq_of_span same) body
    rw [envs same, hparameters, hbody]
  case method =>
    rintro origin v w m rfl
    rfl

/-! ### What alike values have in common -/

namespace ValueLike

variable {v w : Value}

theorem kind_eq (h : L.ValueLike v w) : v.kind = w.kind := by
  cases h <;> rfl

theorem number?_eq (h : L.ValueLike v w) : v.number? = w.number? := by
  cases h <;> rfl

theorem boolean?_eq (h : L.ValueLike v w) : v.boolean? = w.boolean? := by
  cases h <;> rfl

theorem items? (h : L.ValueLike v w) : Option.Rel L.ValuesLike v.items? w.items? := by
  cases h with
  | list items => exact .some items
  | tuple items => exact .some items
  | _ => exact .none

end ValueLike

theorem functionText_eq {f g : Function} (h : L.ValueLike (.function f) (.function g)) : f.text = g.text := by
  cases h <;> rfl

mutual

/-- Alike values are shown alike. -/
theorem ValueLike.text_eq : ∀ {v w : Value}, L.ValueLike v w → v.text = w.text
  | .null, _, h => by cases h; rfl
  | .boolean _, _, h => by cases h; rfl
  | .integer _, _, h => by cases h; rfl
  | .float _, _, h => by cases h; rfl
  | .string _, _, h => by cases h; rfl
  | .list vs, _, h => by
    cases h with
    | list items => rw [Value.text, Value.text, itemTexts_eq items]
  | .tuple vs, _, h => by
    cases h with
    | tuple items => rw [Value.text, Value.text, itemTexts_eq items, items.length_eq]
  | .record fs, _, h => by
    cases h with
    | record names items => rw [Value.text, Value.text, fieldTexts_eq (PairsLike.iff_keys.mpr ⟨names, items⟩)]
  | .function f, .function g, h => by rw [Value.text, Value.text, functionText_eq h]

theorem itemTexts_eq : ∀ {vs ws : List Value}, L.ValuesLike vs ws → Value.itemTexts vs = Value.itemTexts ws
  | [], _, h => by cases h; rfl
  | v :: vs, _, h => by
    cases h with
    | cons first rest => rw [Value.itemTexts, Value.itemTexts, first.text_eq, itemTexts_eq rest]

theorem fieldTexts_eq : ∀ {fs gs : List (String × Value)}, L.FieldsLike fs gs →
    Value.fieldTexts fs = Value.fieldTexts gs
  | [], _, h => by cases h; rfl
  | (n, v) :: fs, (m, w) :: gs, h => by
    cases h with
    | cons first rest =>
      obtain ⟨rfl, hvalue⟩ := first
      rw [Value.fieldTexts, Value.fieldTexts, hvalue.text_eq, fieldTexts_eq rest]

end

theorem sameFunction_eq {f f' g g' : Function} (hf : L.ValueLike (.function f) (.function f'))
    (hg : L.ValueLike (.function g) (.function g')) : Value.sameFunction f g = Value.sameFunction f' g' := by
  cases hf <;> cases hg <;> rfl

mutual

/-- Alike values are equal to alike values. -/
theorem ValueLike.equals_eq : ∀ {a a' b b' : Value}, L.ValueLike a a' → L.ValueLike b b' → a.equals b = a'.equals b'
  | .null, _, _, _, h, h' => by cases h; cases h' <;> rfl
  | .boolean _, _, _, _, h, h' => by cases h; cases h' <;> rfl
  | .integer _, _, _, _, h, h' => by cases h; cases h' <;> rfl
  | .float _, _, _, _, h, h' => by cases h; cases h' <;> rfl
  | .string _, _, _, _, h, h' => by cases h; cases h' <;> rfl
  | .list xs, _, _, _, h, h' => by
    cases h with
    | list items =>
      cases h' with
      | list items' =>
        rw [Value.equals, Value.equals]
        exact equalItems_eq items items'
      | _ => rfl
  | .tuple xs, _, _, _, h, h' => by
    cases h with
    | tuple items =>
      cases h' with
      | tuple items' =>
        rw [Value.equals, Value.equals]
        exact equalItems_eq items items'
      | _ => rfl
  | .record fs, _, _, _, h, h' => by
    cases h with
    | record names items =>
      cases h' with
      | record names' items' =>
        rw [Value.equals, Value.equals]
        exact equalFields_eq (PairsLike.iff_keys.mpr ⟨names, items⟩) (PairsLike.iff_keys.mpr ⟨names', items'⟩)
      | _ => rfl
  | .function f, .function f', b, b', h, h' => by
    cases b with
    | function g =>
      cases b' with
      | function g' =>
        rw [Value.equals, Value.equals]
        exact sameFunction_eq h h'
      | _ => cases h'
    | _ =>
      cases h'
      rfl

theorem equalItems_eq : ∀ {xs xs' ys ys' : List Value}, L.ValuesLike xs xs' → L.ValuesLike ys ys' →
    Value.equalItems xs ys = Value.equalItems xs' ys'
  | [], _, _, _, h, h' => by cases h; cases h' <;> rfl
  | x :: xs, _, _, _, h, h' => by
    cases h with
    | cons first rest =>
      cases h' with
      | nil => rfl
      | cons first' rest' =>
        rw [Value.equalItems, Value.equalItems, first.equals_eq first', equalItems_eq rest rest']

theorem equalFields_eq : ∀ {xs xs' ys ys' : List (String × Value)}, L.FieldsLike xs xs' → L.FieldsLike ys ys' →
    Value.equalFields xs ys = Value.equalFields xs' ys'
  | [], _, _, _, h, h' => by cases h; cases h' <;> rfl
  | (n, x) :: xs, (m, x') :: xs', _, _, h, h' => by
    cases h with
    | cons first rest =>
      obtain ⟨rfl, hx⟩ := first
      cases h' with
      | nil => rfl
      | @cons g g' _ _ first' rest' =>
        obtain ⟨k, y⟩ := g
        obtain ⟨k', y'⟩ := g'
        obtain ⟨rfl, hy⟩ := first'
        rw [Value.equalFields, Value.equalFields, hx.equals_eq hy, equalFields_eq rest rest']

end

theorem getElem?_rel {α β : Type} {R : α → β → Prop} {as : List α} {bs : List β} (h : List.Forall₂ R as bs) (i : Nat) :
    Option.Rel R as[i]? bs[i]? := by
  induction h generalizing i with
  | nil => exact .none
  | cons first _ ih =>
    cases i with
    | zero => exact .some first
    | succ i => exact ih i

theorem bind_eq_of_rel {α β γ : Type} {R : α → β → Prop} {a : Option α} {b : Option β} {f : α → Option γ}
    {g : β → Option γ} (h : Option.Rel R a b) (hf : ∀ x y, R x y → f x = g y) : a.bind f = b.bind g := by
  cases h with
  | none => rfl
  | some h => exact hf _ _ h

/-- Alike records are the same Lorentz vector, or both none. -/
theorem ValueLike.vector_eq {v w : Value} (h : L.ValueLike v w) :
    Kinematics.Vector.ofValue? v = Kinematics.Vector.ofValue? w := by
  cases h with
  | @record fs gs names items =>
    have fields : L.FieldsLike fs gs := PairsLike.iff_keys.mpr ⟨names, items⟩
    have numbers : ∀ name, (Dict.get? fs name).bind Value.number? = (Dict.get? gs name).bind Value.number? :=
      fun name => bind_eq_of_rel (fields.get? name) fun _ _ h => h.number?_eq
    simp only [Kinematics.Vector.ofValue?, Kinematics.Vector.ofFields?, numbers]
  | _ => rfl

end Likeness

/-! ### Values that only their functions tell apart -/

/-- The values are the same, up to the texts of functions and to what functions have taken with them under names that
    do not count. -/
inductive Value.Same (texts : Lambda → Lambda → Prop) (counts : String → Prop) : Value → Value → Prop where
  | refl (v : Value) : Same texts counts v v
  | list {vs ws : List Value} (items : List.Forall₂ (Same texts counts) vs ws) : Same texts counts (.list vs) (.list ws)
  | tuple {vs ws : List Value} (items : List.Forall₂ (Same texts counts) vs ws) :
      Same texts counts (.tuple vs) (.tuple ws)
  | record {fs gs : List (String × Value)} (names : fs.map Prod.fst = gs.map Prod.fst)
      (items : List.Forall₂ (Same texts counts) (fs.map Prod.snd) (gs.map Prod.snd)) :
      Same texts counts (.record fs) (.record gs)
  | closure (origin : Origin) (name : Option String) {l m : Lambda} {env env' : Env Value} (text : texts l m)
      (seen : ∀ x, counts x → Option.Rel (Same texts counts) (env.get? x) (env'.get? x)) :
      Same texts counts (.function (.closure origin name l env)) (.function (.closure origin name m env'))
  | method (origin : Origin) {v w : Value} (m : Method) (receiver : Same texts counts v w) :
      Same texts counts (.function (.method origin v m)) (.function (.method origin w m))

namespace Likeness

variable {L : Likeness}

/-- Alike values are the same in this sense when alike texts may stand for one another. -/
theorem ValueLike.same {texts : Lambda → Lambda → Prop} {counts : String → Prop}
    (text : ∀ (V : String → Prop) (l m : Lambda), List.Forall₂ L.NameLike l.parameters m.parameters →
      L.BodyLike V l.body m.body → texts l m)
    (named : ∀ x, counts x → L.named x) {v w : Value} (h : L.ValueLike v w) : v.Same texts counts w := by
  refine ValueLike.induct (.refl _) (fun _ => .refl _) (fun _ => .refl _) (fun _ => .refl _) (fun _ => .refl _)
    (fun _ _ => .list) (fun _ _ => .tuple) (fun fs gs h => ?_) ?_ (fun _ => .refl _) (fun _ _ => .refl _)
    (fun origin _ _ m => .method origin m) h
  · exact .record (PairsLike.iff_keys.mp h).1 (PairsLike.iff_keys.mp h).2
  · intro origin name l m env env' V visible parameters body seen _
    exact .closure origin name (text V l m parameters body) fun x hx => seen x (visible x (named x hx))

end Likeness
end RecordStats
