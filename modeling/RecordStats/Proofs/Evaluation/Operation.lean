import RecordStats.Evaluation.Operation
import RecordStats.Proofs.Evaluation.Sound
import RecordStats.Proofs.Outcome

/-! Operators on sound operands. An overload is only applied to operands that it has accepted, and then it finds
    as many as the operator has in every program, of the kinds that it takes apart. -/

namespace RecordStats
namespace Overload

/-- On so many sound operands the overload accepts, declines or refuses them, and gives a sound value for those
    that it accepts. -/
structure Fits (arity : Nat) (o : Overload) : Prop where
  accepts : ∀ operands, Faultless (fun _ => True) (o.accepts operands)
  apply : ∀ origin operands, operands.length = arity → (∀ v ∈ operands, v.Sound) → o.accepts operands = .ok true →
    Faultless Value.Sound (o.apply origin operands)

/-! ### Operands -/

theorem eq_pair : ∀ {operands : List Value}, operands.length = 2 → ∃ a b, operands = [a, b]
  | [a, b], _ => ⟨a, b, rfl⟩

theorem eq_single {operands : List Value} (h : operands.length = 1) : ∃ a, operands = [a] := List.length_eq_one_iff.mp h

theorem integers_faultless (operands : List Value) : Faultless (fun _ => True) (integers operands) := .ok trivial

theorem numbers_faultless (operands : List Value) : Faultless (fun _ => True) (numbers operands) := by
  unfold numbers
  split
  · exact .error ErrorKind.noConfusion
  · exact .ok trivial

theorem booleans_faultless (operands : List Value) : Faultless (fun _ => True) (booleans operands) := by
  unfold booleans
  split
  · exact .error ErrorKind.noConfusion
  · exact .ok trivial

theorem eq_integer_of_integers {operands : List Value} (h : integers operands = .ok true) :
    ∀ v ∈ operands, ∃ n, v = .integer n := by
  intro v hv
  have hint := List.all_eq_true.mp (Except.ok.inj h) v hv
  cases v with
  | integer n => exact ⟨n, rfl⟩
  | _ => cases hint

theorem eq_boolean_of_booleans {operands : List Value} (h : booleans operands = .ok true) :
    ∀ v ∈ operands, ∃ b, v = .boolean b := by
  intro v hv
  unfold booleans at h
  split at h
  · cases h
  · next hnone =>
    have hbool := List.find?_eq_none.mp hnone v hv
    cases v with
    | boolean b => exact ⟨b, rfl⟩
    | _ => exact absurd rfl hbool

/-! ### Arithmetic -/

theorem exact_faultless (op : Operator) (n : Int) : Faultless Value.IsScalar (exact op n) := by
  unfold exact
  split
  · exact .ok (.integer _)
  · exact .error ErrorKind.noConfusion

theorem quotient_faultless (x y : Float) : Faultless Value.IsScalar (quotient x y) := by
  unfold quotient
  split
  · exact .error ErrorKind.noConfusion
  · exact .ok (.float _)

theorem integerModulo_faultless (a b : Int) : Faultless Value.IsScalar (integerModulo a b) := by
  unfold integerModulo
  split
  · exact .error ErrorKind.noConfusion
  · exact .ok (.integer _)

theorem floatModulo_faultless (x y : Float) : Faultless Value.IsScalar (floatModulo x y) := by
  unfold floatModulo
  split
  · exact .error ErrorKind.noConfusion
  · exact .ok (.float _)

theorem integerPower_faultless (b e : Int) : Faultless Value.IsScalar (integerPower b e) := by
  unfold integerPower
  split
  · exact .error ErrorKind.noConfusion
  split
  · exact exact_faultless _ _
  split
  · exact .error ErrorKind.noConfusion
  · exact exact_faultless _ _

theorem floatPower_faultless (x y : Float) : Faultless Value.IsScalar (floatPower x y) := by
  unfold floatPower
  split
  · exact .error ErrorKind.noConfusion
  · exact .ok (.float _)

theorem ofIntegers_fits (op : Operator) {f : Int → Int → Except Cause Value}
    (hf : ∀ a b, Faultless Value.IsScalar (f a b)) : (ofIntegers op f).Fits 2 where
  accepts := integers_faultless
  apply := fun origin operands hlen _ haccept => by
    obtain ⟨a, b, rfl⟩ := eq_pair hlen
    obtain ⟨n, rfl⟩ := eq_integer_of_integers haccept a List.mem_cons_self
    obtain ⟨m, rfl⟩ := eq_integer_of_integers haccept b (List.mem_cons_of_mem _ List.mem_cons_self)
    exact (hf _ _).mono fun _ h => h.sound

theorem ofNumbers_fits (op : Operator) {f : Float → Float → Except Cause Value}
    (hf : ∀ x y, Faultless Value.IsScalar (f x y)) : (ofNumbers op f).Fits 2 where
  accepts := numbers_faultless
  apply := fun origin operands hlen _ _ => by
    obtain ⟨a, b, rfl⟩ := eq_pair hlen
    exact (hf _ _).mono fun _ h => h.sound

theorem comparing_fits (op : Operator) (holds : Float → Float → Bool) : (comparing op holds).Fits 2 :=
  ofNumbers_fits op fun _ _ => .ok (.boolean _)

theorem ofBooleans_fits (op : Operator) (settling : Bool) : (ofBooleans op settling).Fits 2 where
  accepts := booleans_faultless
  apply := fun origin operands hlen _ haccept => by
    obtain ⟨a, b, rfl⟩ := eq_pair hlen
    obtain ⟨p, rfl⟩ := eq_boolean_of_booleans haccept a List.mem_cons_self
    obtain ⟨q, rfl⟩ := eq_boolean_of_booleans haccept b (List.mem_cons_of_mem _ List.mem_cons_self)
    simp only [ofBooleans]
    split
    · exact .ok (.boolean _)
    · exact .ok (.boolean _)

theorem relating_fits (op : Operator) (holds : Value → Value → Bool) : (relating op holds).Fits 2 where
  accepts := fun _ => .ok trivial
  apply := fun origin operands hlen _ _ => by
    obtain ⟨a, b, rfl⟩ := eq_pair hlen
    exact .ok (.boolean _)

theorem ofInteger_fits (op : Operator) {f : Int → Except Cause Value} (hf : ∀ a, Faultless Value.IsScalar (f a)) :
    (ofInteger op f).Fits 1 where
  accepts := integers_faultless
  apply := fun origin operands hlen _ haccept => by
    obtain ⟨a, rfl⟩ := eq_single hlen
    obtain ⟨n, rfl⟩ := eq_integer_of_integers haccept a List.mem_cons_self
    exact (hf _).mono fun _ h => h.sound

theorem ofNumber_fits (op : Operator) (f : Float → Float) : (ofNumber op f).Fits 1 where
  accepts := numbers_faultless
  apply := fun origin operands hlen _ _ => by
    obtain ⟨a, rfl⟩ := eq_single hlen
    exact .ok (.float _)

/-! ### Members and items -/

theorem field_faultless {fields : Dict Value} (h : Value.SoundFields fields) (name : String) :
    Faultless Value.Sound (field fields name) := by
  unfold field
  split
  · next found => exact .ok (h.get? found)
  · exact .error ErrorKind.noConfusion

theorem requireVector_faultless (v : Value) : Faultless (fun _ => True) (requireVector v) := by
  unfold requireVector
  split
  · exact .ok trivial
  · exact .error ErrorKind.noConfusion

theorem listMember_faultless (origin : Origin) {v w : Value} (hv : v.Sound) :
    Faultless Value.Sound (listMember origin [v, w]) := by
  simp only [listMember]
  split
  · exact .ok (.method hv)
  · exact .error ErrorKind.noConfusion

theorem vectorMember_faultless (origin : Origin) {v w : Value} (hv : v.Sound) :
    Faultless Value.Sound (vectorMember origin [v, w]) := by
  simp only [vectorMember]
  refine (requireVector_faultless v).bind fun _ _ => ?_
  split
  · exact .ok (.float _)
  · split
    · exact .ok (.method hv)
    · exact .error ErrorKind.noConfusion

theorem recordMember_faultless {fields : List (String × Value)} {w : Value} (h : (Value.record fields).Sound) :
    Faultless Value.Sound (recordMember [.record fields, w]) := by
  cases h with
  | record h => exact field_faultless h _

theorem sequenceItem_faultless {v : Value} (n : Int64) (hv : v.Sound) :
    Faultless Value.Sound (sequenceItem [v, .integer n]) := by
  obtain ⟨index, hindex⟩ : ∃ index : Int,
      (if n.toInt < 0 then n.toInt + ((v.items?.getD []).length : Int) else n.toInt) = index := ⟨_, rfl⟩
  simp only [sequenceItem, hindex]
  split
  · next item found =>
    refine .ok (hv.items_getD item ?_)
    split at found
    · cases found
    · exact List.mem_of_getElem? found
  · exact .error ErrorKind.noConfusion

theorem record_faultless (operands : List Value) : Faultless (fun _ => True) (record operands) := by
  unfold record
  split <;> exact .ok trivial

theorem indexing_faultless (operands : List Value) : Faultless (fun _ => True) (indexing operands) := by
  unfold indexing
  split <;> exact .ok trivial

theorem keying_faultless (operands : List Value) : Faultless (fun _ => True) (keying operands) := by
  unfold keying
  split <;> exact .ok trivial

theorem naturalPower_faultless (operands : List Value) : Faultless (fun _ => True) (naturalPower operands) := by
  unfold naturalPower
  split <;> exact .ok trivial

theorem vector_faultless (cartesian : Bool) (operands : List Value) :
    Faultless (fun _ => True) (vector cartesian operands) := by
  cases operands with
  | nil => exact .ok trivial
  | cons v rest => exact .ok trivial

theorem listMember_fits : Fits 2 ⟨sequence, listMember⟩ where
  accepts := fun operands => by
    cases operands with
    | nil => exact .ok trivial
    | cons v rest => exact .ok trivial
  apply := fun origin operands hlen hsound _ => by
    obtain ⟨v, w, rfl⟩ := eq_pair hlen
    exact listMember_faultless origin (hsound v List.mem_cons_self)

theorem vectorMember_fits (cartesian : Bool) : Fits 2 ⟨vector cartesian, vectorMember⟩ where
  accepts := vector_faultless cartesian
  apply := fun origin operands hlen hsound _ => by
    obtain ⟨v, w, rfl⟩ := eq_pair hlen
    exact vectorMember_faultless origin (hsound v List.mem_cons_self)

theorem recordMember_fits : Fits 2 ⟨record, fun _ => recordMember⟩ where
  accepts := record_faultless
  apply := fun origin operands hlen hsound haccept => by
    obtain ⟨v, w, rfl⟩ := eq_pair hlen
    cases v with
    | record fields => exact recordMember_faultless (hsound _ List.mem_cons_self)
    | _ => cases haccept

theorem noMember_fits : Fits 2 ⟨always, fun _ => noMember⟩ where
  accepts := fun _ => .ok trivial
  apply := fun _ _ _ _ _ => .error ErrorKind.noConfusion

theorem sequenceItem_fits : Fits 2 ⟨indexing, fun _ => sequenceItem⟩ where
  accepts := indexing_faultless
  apply := fun origin operands hlen hsound haccept => by
    obtain ⟨v, w, rfl⟩ := eq_pair hlen
    cases w with
    | integer n => exact sequenceItem_faultless n (hsound v List.mem_cons_self)
    | _ => cases v <;> cases haccept

theorem fieldItem_fits : Fits 2 ⟨keying, fun _ => recordMember⟩ where
  accepts := keying_faultless
  apply := fun origin operands hlen hsound haccept => by
    obtain ⟨v, w, rfl⟩ := eq_pair hlen
    cases v with
    | record fields => exact recordMember_faultless (hsound _ List.mem_cons_self)
    | _ => cases haccept

end Overload

namespace Operator

open Overload

/-- Every overload fits the number of operands that its operator has. -/
theorem overloads_fit (op : Operator) : ∀ o ∈ op.overloads, o.Fits op.arity := by
  cases op with
  | member =>
    simp only [overloads, List.forall_mem_cons]
    exact ⟨listMember_fits, vectorMember_fits _, vectorMember_fits _, recordMember_fits, noMember_fits, nofun⟩
  | item =>
    simp only [overloads, List.forall_mem_cons]
    exact ⟨sequenceItem_fits, fieldItem_fits, nofun⟩
  | or => exact List.forall_mem_singleton.mpr (ofBooleans_fits _ _)
  | and => exact List.forall_mem_singleton.mpr (ofBooleans_fits _ _)
  | not =>
    refine List.forall_mem_singleton.mpr ⟨booleans_faultless, fun origin operands hlen _ haccept => ?_⟩
    obtain ⟨a, rfl⟩ := eq_single hlen
    obtain ⟨b, rfl⟩ := eq_boolean_of_booleans haccept a List.mem_cons_self
    exact .ok (.boolean _)
  | equal => exact List.forall_mem_singleton.mpr (relating_fits _ _)
  | notEqual => exact List.forall_mem_singleton.mpr (relating_fits _ _)
  | lessEqual => exact List.forall_mem_singleton.mpr (comparing_fits _ _)
  | less => exact List.forall_mem_singleton.mpr (comparing_fits _ _)
  | greaterEqual => exact List.forall_mem_singleton.mpr (comparing_fits _ _)
  | greater => exact List.forall_mem_singleton.mpr (comparing_fits _ _)
  | divide => exact List.forall_mem_singleton.mpr (ofNumbers_fits _ quotient_faultless)
  | plus | minus | times =>
    simp only [overloads, List.forall_mem_cons]
    exact ⟨ofIntegers_fits _ fun _ _ => exact_faultless _ _, ofNumbers_fits _ fun _ _ => .ok (.float _), nofun⟩
  | modulo =>
    simp only [overloads, List.forall_mem_cons]
    exact ⟨ofIntegers_fits _ integerModulo_faultless, ofNumbers_fits _ floatModulo_faultless, nofun⟩
  | positive | negative =>
    simp only [overloads, List.forall_mem_cons]
    exact ⟨ofInteger_fits _ fun _ => exact_faultless _ _, ofNumber_fits _ _, nofun⟩
  | power =>
    simp only [overloads, List.forall_mem_cons]
    refine ⟨⟨naturalPower_faultless, fun origin operands hlen hsound haccept => ?_⟩,
      ofNumbers_fits _ floatPower_faultless, nofun⟩
    -- this overload declines all but two integers
    obtain ⟨a, b, rfl⟩ := eq_pair hlen
    cases a with
    | integer n =>
      cases b with
      | integer m => exact (integerPower_faultless _ _).mono fun _ h => h.sound
      | _ => cases haccept
    | _ => cases haccept

theorem applyFirst_faultless (op : Operator) (origin : Origin) {operands : List Value} {arity : Nat}
    (hlen : operands.length = arity) (hsound : ∀ v ∈ operands, v.Sound) {os : List Overload}
    (h : ∀ o ∈ os, o.Fits arity) : Faultless Value.Sound (applyFirst op origin operands os) := by
  induction os with
  | nil => exact .error ErrorKind.noConfusion
  | cons o rest ih =>
    obtain ⟨ho, hrest⟩ := List.forall_mem_cons.mp h
    rcases (ho.accepts operands).ok_or_error with ⟨accepted, haccept, -⟩ | ⟨cause, haccept, hcause⟩
    · rw [applyFirst, haccept]
      cases accepted with
      | true => exact ho.apply origin operands hlen hsound haccept
      | false => exact ih hrest
    · rw [applyFirst, haccept]
      exact .error hcause

/-- What an operator gives is what one of its overloads gives. -/
theorem applyFirst_eq_ok {op : Operator} {origin : Origin} {operands : List Value} {os : List Overload} {v : Value}
    (h : applyFirst op origin operands os = .ok v) : ∃ o ∈ os, o.apply origin operands = .ok v := by
  induction os with
  | nil => cases h
  | cons o rest ih =>
    rw [applyFirst] at h
    obtain ⟨accepted, -, h⟩ := exists_of_bind h
    cases accepted with
    | true => exact ⟨o, List.mem_cons_self, h⟩
    | false =>
      obtain ⟨p, hp, happly⟩ := ih h
      exact ⟨p, List.mem_cons_of_mem _ hp, happly⟩

theorem apply_eq_ok {op : Operator} {origin : Origin} {operands : List Value} {s : Span} {v : Value}
    (h : op.apply origin operands s = .ok v) : ∃ o ∈ op.overloads, o.apply origin operands = .ok v := by
  rw [apply] at h
  cases hfirst : applyFirst op origin operands op.overloads with
  | ok w =>
    rw [hfirst] at h
    cases h
    exact applyFirst_eq_ok hfirst
  | error cause =>
    rw [hfirst] at h
    cases h

/-- An operator on as many sound operands as it has in a program. -/
theorem apply_faultless (op : Operator) (origin : Origin) {operands : List Value} (hlen : operands.length = op.arity)
    (hsound : ∀ v ∈ operands, v.Sound) (s : Span) : Faultless Value.Sound (op.apply origin operands s) :=
  (Faultless.ofCause (applyFirst_faultless op origin hlen hsound op.overloads_fit)).orAt s

end Operator

end RecordStats
