import RecordStats.Proofs.Evaluation.Builtin
import RecordStats.Proofs.Evaluation.Operation
import RecordStats.Proofs.Likeness.Value

/-! Operators and builtin functions on alike operands. What they look at is the same in alike values, so they accept
    the same operands, fail for the same cause, and give alike results. -/

namespace RecordStats
namespace Likeness

variable {L : Likeness}

/-! ### Numbers and truth values -/

theorem ValueLike.of_isScalar {v : Value} (h : v.IsScalar) : L.ValueLike v v := by
  cases h with
  | boolean b => exact .boolean b
  | integer n => exact .integer n
  | float x => exact .float x

theorem ResultLike.of_faultless {x : Except Cause Value} (h : Faultless Value.IsScalar x) :
    ResultLike L.ValueLike x x :=
  .refl fun _ ha => .of_isScalar (h.of_ok ha)

/-! ### Functions of at most two operands -/

/-- A function that looks at two operands, and at whether there are more, is told by these cases. -/
theorem ValuesLike.eq_of_two {α : Type} {f : List Value → α} {vs ws : List Value} (h : L.ValuesLike vs ws)
    (hone : ∀ {v w}, L.ValueLike v w → f [v] = f [w])
    (htwo : ∀ {v w v' w' rest rest'}, L.ValueLike v w → L.ValueLike v' w' → L.ValuesLike rest rest' →
      f (v :: v' :: rest) = f (w :: w' :: rest')) : f vs = f ws := by
  cases h with
  | nil => rfl
  | cons first rest =>
    cases rest with
    | nil => exact hone first
    | cons second rest => exact htwo first second rest

/-! ### Builtin functions -/

theorem apply1_eq (b : Builtin) {v w : Value} (h : L.ValueLike v w) : b.apply1 v = b.apply1 w := by
  cases h with
  | null | boolean | integer | float | string => rfl
  | list | tuple | record | closure | builtin | host | method => cases b <;> rfl

theorem apply2_eq_left (b : Builtin) {v v' : Value} (h : L.ValueLike v v') (w : Value) :
    b.apply2 v w = b.apply2 v' w := by
  cases h with
  | null | boolean | integer | float | string => rfl
  | list | tuple | record | closure | builtin | host | method => cases b <;> rfl

theorem apply2_eq_right (b : Builtin) (v : Value) {w w' : Value} (h : L.ValueLike w w') :
    b.apply2 v w = b.apply2 v w' := by
  cases h with
  | null | boolean | integer | float | string => rfl
  | list | tuple | record | closure | builtin | host | method => cases b <;> rfl

theorem builtin_eq (b : Builtin) {vs ws : List Value} (h : L.ValuesLike vs ws) : b.apply vs = b.apply ws :=
  h.eq_of_two (apply1_eq b) fun first second rest => by
    cases rest with
    | nil => exact (apply2_eq_left b first _).trans (apply2_eq_right b _ second)
    | cons third rest => simp only [Builtin.apply, List.length_cons, rest.length_eq]

theorem builtin_like (b : Builtin) {vs ws : List Value} (h : L.ValuesLike vs ws) :
    ResultLike L.ValueLike (b.apply vs) (b.apply ws) := by
  rw [← builtin_eq b h]
  exact .of_faultless (b.apply_faultless vs)

/-! ### Operands -/

open Overload

section Operands

variable {vs ws : List Value}

/-- What tests tell apart alike values stands at the same places of alike lists. -/
theorem find?_like (test : Value → Bool) (h : L.ValuesLike vs ws)
    (htest : ∀ v w, L.ValueLike v w → test v = test w) : Option.Rel L.ValueLike (vs.find? test) (ws.find? test) := by
  induction h with
  | nil => exact .none
  | @cons v w _ _ first _ ih =>
    rw [List.find?_cons, List.find?_cons, htest v w first]
    split
    · exact .some first
    · exact ih

theorem integers_eq (h : L.ValuesLike vs ws) : integers vs = integers ws := by
  unfold integers
  congr 1
  induction h with
  | nil => rfl
  | cons first _ ih =>
    rw [List.all_cons, List.all_cons, ih]
    cases first <;> rfl

theorem numbers_eq (h : L.ValuesLike vs ws) : numbers vs = numbers ws := by
  have found := find?_like (fun v => v.number?.isNone) h fun v w hvw => by rw [hvw.number?_eq]
  unfold numbers
  generalize vs.find? _ = a at found
  generalize ws.find? _ = b at found
  cases found with
  | none => rfl
  | some hvw => exact congrArg (fun text => Except.error (Cause.notNumber text)) hvw.text_eq

theorem booleans_eq (h : L.ValuesLike vs ws) : booleans vs = booleans ws := by
  have found := find?_like (fun v => v.boolean?.isNone) h fun v w hvw => by rw [hvw.boolean?_eq]
  unfold booleans
  generalize vs.find? _ = a at found
  generalize ws.find? _ = b at found
  cases found with
  | none => rfl
  | some hvw => exact congrArg (fun text => Except.error (Cause.notBoolean text)) hvw.text_eq

theorem naturalPower_eq (h : L.ValuesLike vs ws) : naturalPower vs = naturalPower ws :=
  h.eq_of_two (fun first => by cases first <;> rfl) fun first second rest => by
    cases rest <;> cases first <;> cases second <;> rfl

theorem sequence_eq (h : L.ValuesLike vs ws) : sequence vs = sequence ws := by
  cases h with
  | nil => rfl
  | cons first rest => cases first <;> rfl

theorem record_eq (h : L.ValuesLike vs ws) : Overload.record vs = Overload.record ws := by
  cases h with
  | nil => rfl
  | cons first rest => cases first <;> rfl

theorem memberName_eq (h : L.ValuesLike vs ws) : memberName vs = memberName ws :=
  h.eq_of_two (fun _ => rfl) fun _ second _ => by cases second <;> rfl

theorem vector_eq (cartesian : Bool) (h : L.ValuesLike vs ws) : vector cartesian vs = vector cartesian ws := by
  have name := memberName_eq h
  cases h with
  | nil => rfl
  | cons first rest => simp only [vector, name, first.vector_eq]

theorem indexing_eq (h : L.ValuesLike vs ws) : indexing vs = indexing ws :=
  h.eq_of_two (fun first => by cases first <;> rfl) fun first second rest => by
    cases rest <;> cases first <;> cases second <;> rfl

theorem keying_eq (h : L.ValuesLike vs ws) : keying vs = keying ws :=
  h.eq_of_two (fun first => by cases first <;> rfl) fun first second rest => by
    cases rest <;> cases first <;> cases second <;> rfl

end Operands

/-! ### Overloads -/

variable (L) in
/-- On alike operands the overload does alike. -/
structure OverloadLike (o : Overload) : Prop where
  accepts : ∀ {vs ws : List Value}, L.ValuesLike vs ws → o.accepts vs = o.accepts ws
  apply : ∀ (origin : Origin) {vs ws : List Value}, L.ValuesLike vs ws →
    ResultLike L.ValueLike (o.apply origin vs) (o.apply origin ws)

namespace OverloadLike

theorem ofIntegers (op : Operator) {f : Int → Int → Except Cause Value}
    (hf : ∀ a b, Faultless Value.IsScalar (f a b)) : L.OverloadLike (Overload.ofIntegers op f) where
  accepts := integers_eq
  apply := fun origin vs ws h => by
    cases h with
    | nil => exact .error _
    | cons first rest =>
      cases rest with
      | nil => cases first <;> exact .error _
      | cons second rest =>
        cases first with
        | integer n =>
          cases second with
          | integer m => exact .of_faultless (hf _ _)
          | _ => exact .error _
        | _ => exact .error _

theorem ofNumbers (op : Operator) {f : Float → Float → Except Cause Value}
    (hf : ∀ x y, Faultless Value.IsScalar (f x y)) : L.OverloadLike (Overload.ofNumbers op f) where
  accepts := numbers_eq
  apply := fun origin vs ws h => by
    cases h with
    | nil => exact .error _
    | cons first rest =>
      cases rest with
      | nil => exact .error _
      | cons second rest =>
        simp only [Overload.ofNumbers, first.number?_eq, second.number?_eq]
        exact .of_faultless (hf _ _)

theorem comparing (op : Operator) (holds : Float → Float → Bool) : L.OverloadLike (Overload.comparing op holds) :=
  ofNumbers op fun _ _ => .ok (.boolean _)

theorem ofBooleans (op : Operator) (settling : Bool) : L.OverloadLike (Overload.ofBooleans op settling) where
  accepts := booleans_eq
  apply := fun origin vs ws h => by
    cases h with
    | nil => exact .error _
    | cons first rest =>
      cases first with
      | boolean a =>
        simp only [Overload.ofBooleans]
        split
        · exact .ok (.boolean a)
        · cases rest with
          | nil => exact .error _
          | cons second rest =>
            cases second with
            | boolean b => exact .ok (.boolean b)
            | _ => exact .error _
      | _ => exact .error _

theorem relating (op : Operator) {holds : Value → Value → Bool}
    (hh : ∀ {a a' b b' : Value}, L.ValueLike a a' → L.ValueLike b b' → holds a b = holds a' b') :
    L.OverloadLike (Overload.relating op holds) where
  accepts := fun h => by simp only [Overload.relating, pair, h.length_eq]
  apply := fun origin vs ws h => by
    cases h with
    | nil => exact .error _
    | cons first rest =>
      cases rest with
      | nil => exact .error _
      | cons second rest =>
        simp only [Overload.relating, hh first second]
        exact .ok (.boolean _)

theorem ofInteger (op : Operator) {f : Int → Except Cause Value} (hf : ∀ a, Faultless Value.IsScalar (f a)) :
    L.OverloadLike (Overload.ofInteger op f) where
  accepts := integers_eq
  apply := fun origin vs ws h => by
    cases h with
    | nil => exact .error _
    | cons first rest =>
      cases first with
      | integer n => exact .of_faultless (hf _)
      | _ => exact .error _

theorem ofNumber (op : Operator) (f : Float → Float) : L.OverloadLike (Overload.ofNumber op f) where
  accepts := numbers_eq
  apply := fun origin vs ws h => by
    cases h with
    | nil => exact .error _
    | cons first rest =>
      simp only [Overload.ofNumber, first.number?_eq]
      exact .ok (.float _)

/-! ### Members and items -/

theorem field_like {fs gs : List (String × Value)} (h : L.FieldsLike fs gs) (name : String) :
    ResultLike L.ValueLike (field fs name) (field gs name) := by
  have found := h.get? name
  unfold field
  generalize Dict.get? fs name = a at found
  generalize Dict.get? gs name = b at found
  cases found with
  | none => exact .error _
  | some h => exact .ok h

theorem recordMember_like {vs ws : List Value} (h : L.ValuesLike vs ws) :
    ResultLike L.ValueLike (recordMember vs) (recordMember ws) := by
  have name := memberName_eq h
  cases h with
  | nil => exact .error _
  | cons first rest =>
    cases first with
    | record names items =>
      simp only [recordMember, name]
      exact field_like (PairsLike.iff_keys.mpr ⟨names, items⟩) _
    | _ => exact .error _

theorem listMember : L.OverloadLike ⟨sequence, listMember⟩ where
  accepts := sequence_eq
  apply := fun origin vs ws h => by
    have name := memberName_eq h
    cases h with
    | nil => exact .error _
    | cons first rest =>
      simp only [Overload.listMember, name]
      split
      · exact .ok (.method origin _ first)
      · exact .error _

theorem requireVector_eq {v w : Value} (h : L.ValueLike v w) : requireVector v = requireVector w := by
  simp only [requireVector, h.vector_eq, h.text_eq]

theorem vectorMember (cartesian : Bool) : L.OverloadLike ⟨vector cartesian, vectorMember⟩ where
  accepts := vector_eq cartesian
  apply := fun origin vs ws h => by
    have name := memberName_eq h
    cases h with
    | nil => exact .error _
    | cons first rest =>
      simp only [Overload.vectorMember, name, requireVector_eq first]
      refine .bind (R := Eq) (.refl fun _ _ => rfl) ?_
      rintro u _ rfl
      split
      · exact .ok (.float _)
      · split
        · exact .ok (.method origin _ first)
        · exact .error _

theorem recordMember : L.OverloadLike ⟨Overload.record, fun _ => Overload.recordMember⟩ where
  accepts := record_eq
  apply := fun _ _ _ => recordMember_like

theorem noMember : L.OverloadLike ⟨always, fun _ => noMember⟩ where
  accepts := fun _ => rfl
  apply := fun origin vs ws h => by
    have name := memberName_eq h
    cases h with
    | nil => exact .error _
    | cons first rest =>
      simp only [Overload.noMember, name, List.head?_cons, Option.map_some, first.kind_eq]
      exact .error _

theorem items_getD {v w : Value} (h : L.ValueLike v w) : L.ValuesLike (v.items?.getD []) (w.items?.getD []) := by
  cases h with
  | list items => exact items
  | tuple items => exact items
  | _ => exact .nil

theorem sequenceItem_like {vs ws : List Value} (h : L.ValuesLike vs ws) :
    ResultLike L.ValueLike (sequenceItem vs) (sequenceItem ws) := by
  cases h with
  | nil => exact .error _
  | cons first rest =>
    cases rest with
    | nil => exact .error _
    | cons second rest =>
      cases second with
      | integer n =>
        have items := items_getD first
        simp only [sequenceItem, items.length_eq, first.kind_eq]
        -- a negative index past the beginning finds nothing in either list
        generalize (if n.toInt < 0 then n.toInt + _ else n.toInt) = index
        by_cases hindex : index < 0
        · simp only [if_pos hindex]
          exact .error _
        · simp only [if_neg hindex]
          have found := getElem?_rel items index.toNat
          generalize (_ : List Value)[index.toNat]? = a at found
          generalize (_ : List Value)[index.toNat]? = b at found
          cases found with
          | none => exact .error _
          | some h => exact .ok h
      | _ => exact .error _

theorem sequenceItem : L.OverloadLike ⟨indexing, fun _ => Overload.sequenceItem⟩ where
  accepts := indexing_eq
  apply := fun _ _ _ => sequenceItem_like

theorem fieldItem : L.OverloadLike ⟨keying, fun _ => Overload.recordMember⟩ where
  accepts := keying_eq
  apply := fun _ _ _ => recordMember_like

end OverloadLike

/-! ### Operators -/

theorem overloads_like (op : Operator) : ∀ o ∈ op.overloads, L.OverloadLike o := by
  cases op with
  | member =>
    simp only [Operator.overloads, List.forall_mem_cons]
    exact ⟨.listMember, .vectorMember _, .vectorMember _, .recordMember, .noMember, List.forall_mem_nil _⟩
  | item =>
    simp only [Operator.overloads, List.forall_mem_cons]
    exact ⟨.sequenceItem, .fieldItem, List.forall_mem_nil _⟩
  | or => exact List.forall_mem_singleton.mpr (.ofBooleans _ _)
  | and => exact List.forall_mem_singleton.mpr (.ofBooleans _ _)
  | not =>
    refine List.forall_mem_singleton.mpr ⟨booleans_eq, fun origin vs ws h => ?_⟩
    cases h with
    | nil => exact .error _
    | cons first rest =>
      cases first with
      | boolean a => exact .ok (.boolean _)
      | _ => exact .error _
  | equal => exact List.forall_mem_singleton.mpr (.relating _ ValueLike.equals_eq)
  | notEqual =>
    exact List.forall_mem_singleton.mpr (.relating _ fun h h' => congrArg (!·) (ValueLike.equals_eq h h'))
  | lessEqual => exact List.forall_mem_singleton.mpr (.comparing _ _)
  | less => exact List.forall_mem_singleton.mpr (.comparing _ _)
  | greaterEqual => exact List.forall_mem_singleton.mpr (.comparing _ _)
  | greater => exact List.forall_mem_singleton.mpr (.comparing _ _)
  | divide => exact List.forall_mem_singleton.mpr (.ofNumbers _ quotient_faultless)
  | plus | minus | times =>
    simp only [Operator.overloads, List.forall_mem_cons]
    exact ⟨.ofIntegers _ fun _ _ => exact_faultless _ _, .ofNumbers _ fun _ _ => .ok (.float _), List.forall_mem_nil _⟩
  | modulo =>
    simp only [Operator.overloads, List.forall_mem_cons]
    exact ⟨.ofIntegers _ integerModulo_faultless, .ofNumbers _ floatModulo_faultless, List.forall_mem_nil _⟩
  | positive | negative =>
    simp only [Operator.overloads, List.forall_mem_cons]
    exact ⟨.ofInteger _ fun _ => exact_faultless _ _, .ofNumber _ _, List.forall_mem_nil _⟩
  | power =>
    simp only [Operator.overloads, List.forall_mem_cons]
    refine ⟨⟨naturalPower_eq, (OverloadLike.ofIntegers _ integerPower_faultless).apply⟩,
      .ofNumbers _ floatPower_faultless, List.forall_mem_nil _⟩

theorem kinds_eq {vs ws : List Value} (h : L.ValuesLike vs ws) : vs.map Value.kind = ws.map Value.kind := by
  induction h with
  | nil => rfl
  | cons first _ ih => rw [List.map_cons, List.map_cons, first.kind_eq, ih]

theorem applyFirst_like (op : Operator) (origin : Origin) {vs ws : List Value} (h : L.ValuesLike vs ws)
    {os : List Overload} (hos : ∀ o ∈ os, L.OverloadLike o) :
    ResultLike L.ValueLike (op.applyFirst origin vs os) (op.applyFirst origin ws os) := by
  induction os with
  | nil =>
    rw [Operator.applyFirst, Operator.applyFirst, kinds_eq h]
    exact .error _
  | cons o rest ih =>
    obtain ⟨ho, hrest⟩ := List.forall_mem_cons.mp hos
    rw [Operator.applyFirst, Operator.applyFirst, ho.accepts h]
    refine .bind (R := Eq) (.refl fun _ _ => rfl) ?_
    rintro accepted _ rfl
    split
    · exact ho.apply origin h
    · exact ih hrest

/-- An operator on alike operands. Its failures are placed. -/
theorem operator_like (op : Operator) (origin : Origin) {vs ws : List Value} (h : L.ValuesLike vs ws) {s t : Span}
    (hs : L.span s t) (placed : Prop) :
    L.EndsLike placed L.ValueLike (op.apply origin vs s) (op.apply origin ws t) :=
  (EndsLike.ofCause (applyFirst_like op origin h (overloads_like op))).orAt hs

end Likeness
end RecordStats
