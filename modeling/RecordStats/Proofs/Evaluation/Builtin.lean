import RecordStats.Builtin.Apply
import RecordStats.Proofs.Evaluation.Sound

/-! Builtin functions. They give numbers and truth values, and what they refuse is an argument of the wrong kind,
    number or size. -/

namespace RecordStats
namespace Builtin

/-! ### Arguments and results -/

theorem number_faultless (b : Builtin) (v : Value) : Faultless (fun _ => True) (number b v) := by
  unfold number
  split
  · exact .ok trivial
  · exact .error ErrorKind.noConfusion

theorem integer_faultless (b : Builtin) (v : Value) : Faultless (fun _ => True) (integer b v) := by
  unfold integer
  split
  · exact .ok trivial
  · exact .error ErrorKind.noConfusion

theorem defined_faultless (b : Builtin) (x y : Float) : Faultless Value.IsScalar (defined b x y) := by
  unfold defined
  split
  · exact .error ErrorKind.noConfusion
  · exact .ok (.float _)

theorem fitting_faultless {cause : Cause} (h : cause.kind ≠ .internal) (n : Int) :
    Faultless Value.IsScalar (fitting cause n) := by
  unfold fitting
  split
  · exact .ok (.integer _)
  · exact .error h

theorem word_faultless (b : Builtin) (n : Int) : Faultless Value.IsScalar (word b n) :=
  fitting_faultless ErrorKind.noConfusion n

theorem integral_faultless (b : Builtin) (x : Float) (rounding : Float → Int) :
    Faultless Value.IsScalar (integral b x rounding) := by
  unfold integral
  split
  · exact word_faultless _ _
  · exact .error ErrorKind.noConfusion

/-! ### Families -/

theorem unary_faultless (b : Builtin) (f : Float → Float) (v : Value) : Faultless Value.IsScalar (unary b f v) :=
  (number_faultless b v).bind fun _ _ => defined_faultless _ _ _

theorem unaryAbove_faultless (b : Builtin) (bound : Float) (f : Float → Float) (v : Value) :
    Faultless Value.IsScalar (unaryAbove b bound f v) := by
  refine (number_faultless b v).bind fun _ _ => ?_
  split
  · exact .error ErrorKind.noConfusion
  · exact defined_faultless _ _ _

theorem binary_faultless (b : Builtin) (f : Float → Float → Float) (v w : Value) :
    Faultless Value.IsScalar (binary b f v w) :=
  (number_faultless b v).bind fun _ _ => (number_faultless b w).bind fun _ _ => .ok (.float _)

theorem property_faultless (b : Builtin) (holds : Float → Bool) (v : Value) :
    Faultless Value.IsScalar (property b holds v) :=
  (number_faultless b v).bind fun _ _ => .ok (.boolean _)

theorem beyondPoles_faultless (b : Builtin) (f : Float → Float) (v : Value) :
    Faultless Value.IsScalar (beyondPoles b f v) := by
  refine (number_faultless b v).bind fun _ _ => ?_
  split
  · exact .error ErrorKind.noConfusion
  · exact .ok (.float _)

theorem directed_faultless (b : Builtin) (rounding : Float → Int) (v : Value) :
    Faultless Value.IsScalar (directed b rounding v) := by
  unfold directed
  split
  · exact .ok (.integer _)
  · exact (number_faultless b _).bind fun _ _ => integral_faultless _ _ _

theorem step_faultless (v : Value) {middle : Except Cause Value} (h : Faultless Value.IsScalar middle) :
    Faultless Value.IsScalar (step v middle) := by
  refine (number_faultless .heaviside v).bind fun _ _ => ?_
  split
  · exact .ok (.integer _)
  split
  · exact .ok (.integer _)
  · exact h

/-! ### Single functions -/

theorem logToBase_faultless (v w : Value) : Faultless Value.IsScalar (logToBase v w) := by
  refine (number_faultless .log v).bind fun _ _ => (number_faultless .log w).bind fun _ _ => ?_
  split
  · exact .error ErrorKind.noConfusion
  · exact .ok (.float _)

theorem factorialOf_faultless (v : Value) : Faultless Value.IsScalar (factorialOf v) := by
  refine (integer_faultless .factorial v).bind fun _ _ => ?_
  split
  · exact .error ErrorKind.noConfusion
  split
  · exact .error ErrorKind.noConfusion
  · exact word_faultless _ _

theorem absOf_faultless (v : Value) : Faultless Value.IsScalar (absOf v) := by
  unfold absOf
  split
  · exact fitting_faultless ErrorKind.noConfusion _
  · exact (number_faultless .abs _).bind fun _ _ => .ok (.float _)

theorem roundWhole_faultless (x : Float) : Faultless Value.IsScalar (roundWhole x) := by
  unfold roundWhole
  split
  · exact word_faultless _ _
  · exact integral_faultless _ _ _

theorem roundOf_faultless (v : Value) : Faultless Value.IsScalar (roundOf v) := by
  unfold roundOf
  split
  · exact .ok (.integer _)
  · exact (number_faultless .round _).bind fun _ _ => roundWhole_faultless _

theorem roundTo_faultless (v w : Value) : Faultless Value.IsScalar (roundTo v w) := by
  refine (integer_faultless .round w).bind fun _ _ => ?_
  split
  · split
    · exact .ok (.integer _)
    · exact integral_faultless _ _ _
  · exact (number_faultless .round _).bind fun _ _ => .ok (.float _)

theorem signOf_faultless (v : Value) : Faultless Value.IsScalar (signOf v) :=
  (number_faultless .sign v).bind fun _ _ => .ok (.integer _)

theorem middleOf_faultless (w : Value) : Faultless Value.IsScalar (middleOf w) := by
  unfold middleOf number
  split
  · next x hx => exact .ok (.of_number? hx)
  · exact .error ErrorKind.noConfusion

theorem scaled_faultless (v w : Value) : Faultless Value.IsScalar (scaled v w) :=
  (number_faultless .ldexp v).bind fun _ _ => (integer_faultless .ldexp w).bind fun _ _ => .ok (.float _)

/-! ### All functions -/

theorem apply1_faultless (b : Builtin) (v : Value) : Faultless Value.IsScalar (apply1 b v) := by
  cases b with
  | sqrt | exp | exp2 | expm1 | sin | cos | tan | arcsin | arccos | arctan | rad2deg | deg2rad | sinh | cosh | tanh
  | arcsinh | arccosh | arctanh | erf | erfc | nextafter | nextbefore => exact unary_faultless _ _ v
  | log | log2 | log10 | log1p => exact unaryAbove_faultless _ _ _ v
  | gamma | lgamma => exact beyondPoles_faultless _ _ v
  | floor | ceil => exact directed_faultless _ _ v
  | isfinite | isinf | isnan => exact property_faultless _ _ v
  | factorial => exact factorialOf_faultless v
  | abs => exact absOf_faultless v
  | round => exact roundOf_faultless v
  | sign => exact signOf_faultless v
  | heaviside => exact step_faultless v (.ok (.float _))
  | logaddexp | logaddexp2 | arctan2 | hypot | ldexp | nexttoward => exact .error ErrorKind.noConfusion

theorem apply2_faultless (b : Builtin) (v w : Value) : Faultless Value.IsScalar (apply2 b v w) := by
  unfold apply2
  split
  · exact logToBase_faultless v w
  · exact binary_faultless _ _ v w
  · exact binary_faultless _ _ v w
  · exact binary_faultless _ _ v w
  · exact binary_faultless _ _ v w
  · exact roundTo_faultless v w
  · exact step_faultless v (middleOf_faultless w)
  · exact scaled_faultless v w
  · exact binary_faultless _ _ v w
  · exact .error ErrorKind.noConfusion

/-- A builtin function gives a number or a truth value, whatever its arguments are. -/
theorem apply_faultless (b : Builtin) (arguments : List Value) : Faultless Value.IsScalar (b.apply arguments) := by
  unfold apply
  split
  · exact apply1_faultless b _
  · exact apply2_faultless b _ _
  · exact .error ErrorKind.noConfusion

end Builtin

/-- The standing bindings of every program are sound. -/
theorem standing_sound : Value.SoundFields standing := by
  refine .ofPairs (List.forall_mem_cons.mpr ⟨.float _, fun f hf => ?_⟩)
  obtain ⟨b, -, rfl⟩ := List.mem_map.mp hf
  exact .builtin b

end RecordStats
