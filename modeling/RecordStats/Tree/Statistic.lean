import RecordStats.Evaluation.Failure
import RecordStats.Tree.Scalar

/-!
The statistics and what they tell: totals that only ever grow by fills, the value that they stand for,
and how uncertain it is.
-/

namespace RecordStats

inductive Estimator where
  | normal | poisson | wilson | clopperPearson | agrestiCoull | feldmanCousins | jeffrey
  | bayesianUniform
deriving DecidableEq, Inhabited

namespace Estimator

def name : Estimator → String
  | normal => "normal"
  | poisson => "poisson"
  | wilson => "wilson"
  | clopperPearson => "clopper-pearson"
  | agrestiCoull => "agresti-coull"
  | feldmanCousins => "feldman-cousins"
  | jeffrey => "jeffrey"
  | bayesianUniform => "bayesian-uniform"

def ofName (name : String) : Except Cause Estimator :=
  match [normal, poisson, wilson, clopperPearson, agrestiCoull, feldmanCousins, jeffrey,
    bayesianUniform].find? fun e => e.name = name with
  | some e => .ok e
  | none => .error (.unknownEstimator name)

end Estimator

variable {α : Type}

structure Count (α : Type) where
  sumw : α
  sumw2 : α

structure Sum (α : Type) where
  sumwx : α

structure Profile (α : Type) where
  sumw : α
  sumw2 : α
  sumwx : α
  sumwx2 : α

structure Fraction (α : Type) where
  numerw : α
  denomw : α

variable [Scalar α]

namespace Count

def zero : Count α := ⟨Scalar.ofNat 0, Scalar.ofNat 0⟩

def fill (c : Count α) (w : α) : Count α :=
  ⟨c.sumw + w, c.sumw2 + w * w⟩

def variance (c : Count α) (e : Estimator) (sigmas : α) : Except Cause α :=
  match e with
  | .normal => .ok (sigmas * sigmas * c.sumw2)
  | .poisson => .error (.estimatorUnsupported e.name "count")
  | e => .error (.estimatorInapplicable e.name "count")

end Count

namespace Sum

def zero : Sum α := ⟨Scalar.ofNat 0⟩

def fill (s : Sum α) (w x : α) : Sum α :=
  ⟨s.sumwx + w * x⟩

end Sum

namespace Profile

def zero : Profile α := ⟨Scalar.ofNat 0, Scalar.ofNat 0, Scalar.ofNat 0, Scalar.ofNat 0⟩

def fill (p : Profile α) (w x : α) : Profile α :=
  ⟨p.sumw + w, p.sumw2 + w * w, p.sumwx + w * x, p.sumwx2 + w * x * x⟩

/-- The weighted mean, or a value for the profile that has none. -/
def mean (p : Profile α) (indeterminate : α) : α :=
  if p.sumw == Scalar.ofNat 0 then indeterminate else p.sumwx / p.sumw

/-- The square of the uncertainty of the mean: the weighted spread of the samples over the effective
number of entries. -/
def variance (p : Profile α) (e : Estimator) (sigmas : α) : Except Cause α :=
  match e with
  | .normal =>
    if p.sumw2 == Scalar.ofNat 0 || p.sumw == Scalar.ofNat 0 then .ok (Scalar.ofNat 0)
    else
      let m := p.mean (Scalar.ofNat 0)
      let entries := p.sumw * p.sumw / p.sumw2
      .ok (sigmas * sigmas * (p.sumwx2 / p.sumw - m * m) / entries)
  | e => .error (.estimatorInapplicable e.name "profile")

end Profile

namespace Fraction

def zero : Fraction α := ⟨Scalar.ofNat 0, Scalar.ofNat 0⟩

def fill (f : Fraction α) (w : α) (passed : Bool) : Fraction α :=
  ⟨if passed then f.numerw + w else f.numerw, f.denomw + w⟩

/-- The part that passed, or a value for the fraction that has none. -/
def ratio (f : Fraction α) (indeterminate : α) : α :=
  if f.denomw == Scalar.ofNat 0 then indeterminate else f.numerw / f.denomw

/-- The part that passed, if it is a proper one. -/
def proportion (f : Fraction α) : Option α :=
  if f.denomw == Scalar.ofNat 0 then none
  else
    let p := f.numerw / f.denomw
    if Scalar.ofNat 0 ≤ p ∧ p ≤ Scalar.ofNat 1 then some p else none

/-- Under the square root of the normal interval: the variance of a part `p` of `n` entries. -/
def normalSquare (p n : α) : α :=
  p * (Scalar.ofNat 1 - p) / n

/-- Under the square root of the score interval at `z` deviations. -/
def wilsonSquare (p n z : α) : α :=
  p * (Scalar.ofNat 1 - p) / n + Scalar.ofNat 1 / Scalar.ofNat 4 * z * z / (n * n)

def wilsonScale (n z : α) : α :=
  Scalar.ofNat 1 + z * z / n

def wilsonCenter (p n z : α) : α :=
  (p + Scalar.ofNat 1 / Scalar.ofNat 2 * z * z / n) / wilsonScale n z

/-- The interval around the part that passed. Where there is no proper part, both bounds are zero. -/
def interval (f : Fraction α) (e : Estimator) (z : α) : Except Cause (α × α) :=
  let n := f.denomw
  let around (center half : α) : α × α := (center - half, center + half)
  let zero : α × α := (Scalar.ofNat 0, Scalar.ofNat 0)
  match e with
  | .normal => .ok (f.proportion.elim zero fun p => around p (z * Scalar.root (normalSquare p n)))
  | .wilson => .ok (f.proportion.elim zero fun p =>
      around (wilsonCenter p n z) (z * Scalar.root (wilsonSquare p n z) / wilsonScale n z))
  | .poisson => .error (.estimatorInapplicable e.name "fraction")
  | e => .error (.estimatorUnsupported e.name "fraction")

/-- The square of half the interval's width. -/
def variance (f : Fraction α) (e : Estimator) (sigmas : α) : Except Cause α := do
  let (low, high) ← f.interval e sigmas
  let half := Scalar.ofNat 1 / Scalar.ofNat 2 * (high - low)
  return half * half

end Fraction

end RecordStats
