import RecordStats.Evaluation.Call
import RecordStats.Proofs.Evaluation.Builtin
import RecordStats.Proofs.Evaluation.Made
import RecordStats.Proofs.Evaluation.Operation
import RecordStats.Proofs.Outcome

/-! Properties of values that go by their parts. Operators and methods give numbers and truth values, parts of what
    they are given, and methods and lists of these; so what all operands have, the results have too. -/

namespace RecordStats

/-- Data have the property as soon as their parts do, and methods as soon as their receivers do. Nothing is said of
    functions that a program or the host brings. -/
structure Value.Hereditary (Q : Value → Prop) : Prop where
  null : Q .null
  string (s : String) : Q (.string s)
  scalar {v : Value} (h : v.IsScalar) : Q v
  list {items : List Value} : Q (.list items) ↔ ∀ v ∈ items, Q v
  tuple {items : List Value} : Q (.tuple items) ↔ ∀ v ∈ items, Q v
  record {fields : List (String × Value)} : Q (.record fields) ↔ ∀ f ∈ fields, Q f.2
  builtin (b : Builtin) : Q (.function (.builtin b))
  method {origin : Origin} {receiver : Value} {m : Method} : Q (.function (.method origin receiver m)) ↔ Q receiver

variable {Q : Value → Prop}

namespace Value.Hereditary

theorem ofLiteral (hQ : Hereditary Q) (l : Literal) : Q (ofLiteral l) := by
  cases l with
  | integer n => exact hQ.scalar (.integer n)
  | float x => exact hQ.scalar (.float x)
  | string s => exact hQ.string s

theorem of_mem_items (hQ : Hereditary Q) {v : Value} (h : Q v) {items : List Value} (hitems : v.items? = some items) :
    ∀ item ∈ items, Q item := by
  cases v with
  | list xs =>
    cases hitems
    exact hQ.list.mp h
  | tuple xs =>
    cases hitems
    exact hQ.tuple.mp h
  | _ => cases hitems

theorem items_getD (hQ : Hereditary Q) {v : Value} (h : Q v) : ∀ item ∈ v.items?.getD [], Q item := by
  cases hitems : v.items? with
  | none => exact List.forall_mem_nil _
  | some items => exact hQ.of_mem_items h hitems

/-- The argument of a method that takes one. -/
theorem headD (hQ : Hereditary Q) {arguments : List Value} (h : ∀ a ∈ arguments, Q a) : Q (arguments.headD .null) := by
  cases arguments with
  | nil => exact hQ.null
  | cons a rest => exact h a List.mem_cons_self

/-- Values without functions of programs or of the host have every such property. -/
theorem of_plain (hQ : Hereditary Q) {v : Value} (h : v.Plain) : Q v := by
  induction h with
  | null => exact hQ.null
  | boolean b => exact hQ.scalar (.boolean b)
  | integer n => exact hQ.scalar (.integer n)
  | float x => exact hQ.scalar (.float x)
  | string s => exact hQ.string s
  | list _ ih => exact hQ.list.mpr ih
  | tuple _ ih => exact hQ.tuple.mpr ih
  | record _ ih => exact hQ.record.mpr ih
  | closure text _ _ => exact text.elim
  | builtin b => exact hQ.builtin b
  | host _ allowed => exact allowed.elim
  | method _ ih => exact hQ.method.mpr ih

/-- To be made in some way goes by the parts. -/
theorem made (P : Lambda → Prop) (hosts : Prop) : Hereditary (Value.Made P hosts) where
  null := .null
  string := .string
  scalar h := by
    cases h with
    | boolean b => exact .boolean b
    | integer n => exact .integer n
    | float x => exact .float x
  list := ⟨fun h => by cases h with | list h => exact h, .list⟩
  tuple := ⟨fun h => by cases h with | tuple h => exact h, .tuple⟩
  record := ⟨fun h => by cases h with | record h => exact h, .record⟩
  builtin := .builtin
  method := ⟨fun h => by cases h with | method h => exact h, .method⟩

end Value.Hereditary

open Value (Hereditary)

/-! ### Operators -/

namespace Overload

/-- What the operands have, the result of the overload has. -/
def Keeps (Q : Value → Prop) (o : Overload) : Prop :=
  ∀ (origin : Origin) (operands : List Value) (v : Value), (∀ w ∈ operands, Q w) →
    o.apply origin operands = .ok v → Q v

variable (hQ : Hereditary Q)

include hQ

theorem keeps_ofIntegers (op : Operator) {f : Int → Int → Except Cause Value}
    (hf : ∀ a b, Faultless Value.IsScalar (f a b)) : (ofIntegers op f).Keeps Q := by
  intro origin operands v _ h
  simp only [ofIntegers] at h
  split at h
  · exact hQ.scalar ((hf _ _).of_ok h)
  · cases h

theorem keeps_ofNumbers (op : Operator) {f : Float → Float → Except Cause Value}
    (hf : ∀ x y, Faultless Value.IsScalar (f x y)) : (ofNumbers op f).Keeps Q := by
  intro origin operands v _ h
  simp only [ofNumbers] at h
  split at h
  · exact hQ.scalar ((hf _ _).of_ok h)
  · cases h

theorem keeps_comparing (op : Operator) (holds : Float → Float → Bool) : (comparing op holds).Keeps Q :=
  keeps_ofNumbers hQ op fun _ _ => .ok (.boolean _)

theorem keeps_ofBooleans (op : Operator) (settling : Bool) : (ofBooleans op settling).Keeps Q := by
  intro origin operands v _ h
  simp only [ofBooleans] at h
  split at h
  · split at h
    · cases h
      exact hQ.scalar (.boolean _)
    · split at h
      · cases h
        exact hQ.scalar (.boolean _)
      · cases h
  · cases h

theorem keeps_relating (op : Operator) (holds : Value → Value → Bool) : (relating op holds).Keeps Q := by
  intro origin operands v _ h
  simp only [relating] at h
  split at h
  · cases h
    exact hQ.scalar (.boolean _)
  · cases h

theorem keeps_ofInteger (op : Operator) {f : Int → Except Cause Value} (hf : ∀ a, Faultless Value.IsScalar (f a)) :
    (ofInteger op f).Keeps Q := by
  intro origin operands v _ h
  simp only [ofInteger] at h
  split at h
  · exact hQ.scalar ((hf _).of_ok h)
  · cases h

theorem keeps_ofNumber (op : Operator) (f : Float → Float) : (ofNumber op f).Keeps Q := by
  intro origin operands v _ h
  simp only [ofNumber] at h
  split at h
  · cases h
    exact hQ.scalar (.float _)
  · cases h

theorem keeps_listMember : Keeps Q ⟨sequence, listMember⟩ := by
  intro origin operands v hw h
  simp only [listMember] at h
  split at h
  · split at h
    · cases h
      exact hQ.method.mpr (hw _ List.mem_cons_self)
    · cases h
  · cases h

theorem keeps_vectorMember (cartesian : Bool) : Keeps Q ⟨vector cartesian, vectorMember⟩ := by
  intro origin operands v hw h
  simp only [vectorMember] at h
  split at h
  · obtain ⟨w, -, h⟩ := exists_of_bind h
    split at h
    · cases h
      exact hQ.scalar (.float _)
    · split at h
      · cases h
        exact hQ.method.mpr (hw _ List.mem_cons_self)
      · cases h
  · cases h

theorem keeps_recordMember (accepts : List Value → Except Cause Bool) : Keeps Q ⟨accepts, fun _ => recordMember⟩ := by
  intro origin operands v hw h
  simp only [recordMember] at h
  split at h
  · unfold field at h
    split at h
    · next found =>
      cases h
      exact hQ.record.mp (hw _ List.mem_cons_self) _ (Dict.mem_of_get? found)
    · cases h
  · cases h

theorem keeps_sequenceItem : Keeps Q ⟨indexing, fun _ => sequenceItem⟩ := by
  intro origin operands v hw h
  simp only [sequenceItem] at h
  split at h
  · next w n rest =>
    generalize (if n.toInt < 0 then _ else _ : Int) = index at h
    split at h
    · next item found =>
      cases h
      refine hQ.items_getD (hw w List.mem_cons_self) v ?_
      split at found
      · cases found
      · exact List.mem_of_getElem? found
    · cases h
  · cases h

end Overload

namespace Operator

open Overload

theorem keeps_overloads (hQ : Hereditary Q) (op : Operator) : ∀ o ∈ op.overloads, o.Keeps Q := by
  cases op with
  | member =>
    simp only [overloads, List.forall_mem_cons]
    exact ⟨keeps_listMember hQ, keeps_vectorMember hQ _, keeps_vectorMember hQ _, keeps_recordMember hQ _,
      (fun _ _ _ _ h => by cases h), List.forall_mem_nil _⟩
  | item =>
    simp only [overloads, List.forall_mem_cons]
    exact ⟨keeps_sequenceItem hQ, keeps_recordMember hQ _, List.forall_mem_nil _⟩
  | or | and => exact List.forall_mem_singleton.mpr (keeps_ofBooleans hQ _ _)
  | not =>
    refine List.forall_mem_singleton.mpr fun origin operands v _ h => ?_
    simp only at h
    split at h
    · cases h
      exact hQ.scalar (.boolean _)
    · cases h
  | equal | notEqual => exact List.forall_mem_singleton.mpr (keeps_relating hQ _ _)
  | lessEqual | less | greaterEqual | greater => exact List.forall_mem_singleton.mpr (keeps_comparing hQ _ _)
  | divide => exact List.forall_mem_singleton.mpr (keeps_ofNumbers hQ _ quotient_faultless)
  | plus | minus | times =>
    simp only [overloads, List.forall_mem_cons]
    exact ⟨keeps_ofIntegers hQ _ fun _ _ => exact_faultless _ _, keeps_ofNumbers hQ _ fun _ _ => .ok (.float _),
      List.forall_mem_nil _⟩
  | modulo =>
    simp only [overloads, List.forall_mem_cons]
    exact ⟨keeps_ofIntegers hQ _ integerModulo_faultless, keeps_ofNumbers hQ _ floatModulo_faultless,
      List.forall_mem_nil _⟩
  | positive | negative =>
    simp only [overloads, List.forall_mem_cons]
    exact ⟨keeps_ofInteger hQ _ fun _ => exact_faultless _ _, keeps_ofNumber hQ _ _, List.forall_mem_nil _⟩
  | power =>
    simp only [overloads, List.forall_mem_cons]
    exact ⟨keeps_ofIntegers hQ _ integerPower_faultless, keeps_ofNumbers hQ _ floatPower_faultless,
      List.forall_mem_nil _⟩

theorem applyFirst_keeps {op : Operator} {origin : Origin} {operands : List Value}
    (h : ∀ w ∈ operands, Q w) {v : Value} {os : List Overload} (hos : ∀ o ∈ os, o.Keeps Q)
    (hv : applyFirst op origin operands os = .ok v) : Q v := by
  obtain ⟨o, ho, happly⟩ := applyFirst_eq_ok hv
  exact hos o ho origin operands v h happly

end Operator

/-! ### Methods that call nothing -/

namespace ListMethod

variable {items : List Value} (hQ : Hereditary Q)

include hQ

theorem keeps_flattened (h : ∀ v ∈ items, Q v) {vs : List Value} (hvs : flattened items = .ok vs) : ∀ v ∈ vs, Q v := by
  induction items generalizing vs with
  | nil =>
    cases hvs
    exact List.forall_mem_nil _
  | cons item rest ih =>
    obtain ⟨hitem, hrest⟩ := List.forall_mem_cons.mp h
    rw [flattened] at hvs
    split at hvs
    · next inner hinner =>
      obtain ⟨others, hothers, hvs⟩ := exists_of_bind hvs
      cases hvs
      exact List.forall_mem_append.mpr ⟨hQ.of_mem_items hitem hinner, ih hrest hothers⟩
    · cases hvs

theorem keeps_product {ys : List Value} (hx : ∀ v ∈ items, Q v) (hy : ∀ v ∈ ys, Q v) : ∀ v ∈ product items ys, Q v := by
  intro v hv
  obtain ⟨x, hxmem, hv⟩ := List.mem_flatMap.mp hv
  obtain ⟨y, hymem, rfl⟩ := List.mem_map.mp hv
  unfold joined
  split
  · exact hQ.tuple.mpr
      (List.forall_mem_append.mpr ⟨hQ.tuple.mp (hx _ hxmem), List.forall_mem_singleton.mpr (hy y hymem)⟩)
  · exact hQ.tuple.mpr (List.forall_mem_cons.mpr ⟨hx x hxmem, List.forall_mem_singleton.mpr (hy y hymem)⟩)

theorem keeps_pairings (self : Bool) (h : ∀ v ∈ items, Q v) : ∀ v ∈ pairings self items, Q v := by
  induction items with
  | nil => exact List.forall_mem_nil _
  | cons x rest ih =>
    obtain ⟨hx, hrest⟩ := List.forall_mem_cons.mp h
    rw [pairings]
    refine List.forall_mem_append.mpr ⟨fun v hv => ?_, ih hrest⟩
    obtain ⟨y, hy, rfl⟩ := List.mem_map.mp hv
    have hyQ : Q y := by
      split at hy
      · exact h y hy
      · exact hrest y hy
    exact hQ.tuple.mpr (List.forall_mem_cons.mpr ⟨hx, List.forall_mem_singleton.mpr hyQ⟩)

omit hQ

/-- The best item is the best so far or one of the items. -/
theorem keeps_bestNumber (largest : Bool) {best : Option (Float × Value)} (hbest : ∀ b ∈ best, Q b.2)
    (h : ∀ v ∈ items, Q v) {found : Option (Float × Value)} (hfound : bestNumber largest best items = .ok found) :
    ∀ b ∈ found, Q b.2 := by
  induction items generalizing best with
  | nil =>
    cases hfound
    exact hbest
  | cons item rest ih =>
    obtain ⟨hitem, hrest⟩ := List.forall_mem_cons.mp h
    rw [bestNumber] at hfound
    split at hfound
    · refine ih ?_ hrest hfound
      split
      · rintro b ⟨⟩
        exact hitem
      · exact hbest
    · cases hfound

include hQ

theorem keeps_extreme (largest : Bool) (h : ∀ v ∈ items, Q v) {v : Value} (hv : extreme largest items = .ok v) :
    Q v := by
  obtain ⟨best, hbest, hv⟩ := exists_of_bind hv
  cases best with
  | none =>
    cases hv
    exact hQ.scalar (.float _)
  | some b =>
    cases hv
    exact keeps_bestNumber largest nofun h hbest _ rfl

end ListMethod

theorem VectorMethod.apply_isScalar {m : VectorMethod} {receiver v : Value} {arguments : List Value}
    (h : m.apply receiver arguments = .ok v) : v.IsScalar := by
  unfold apply at h
  split at h
  · obtain ⟨this, -, h⟩ := exists_of_bind h
    obtain ⟨other, -, h⟩ := exists_of_bind h
    cases h
    exact .float _
  · cases h

end RecordStats
