import RecordStats.Double.Elementary
import RecordStats.Value.Basic

/-!
Lorentz vectors: momentum and energy (or mass) of a particle. A record is one when it has the numbers
`px`, `py`, `pz` or the numbers `pt`, `eta`, `phi`, and `energy` or `mass`. All other quantities are
computed from the four that are given.
-/

namespace RecordStats.Kinematics

inductive Momentum where
  | cartesian (px py pz : Float)
  | cylindrical (pt eta phi : Float)

inductive Temporal where
  | energy (value : Float)
  | mass (value : Float)

/-- Momentum and energy of a particle. -/
structure Vector where
  momentum : Momentum
  temporal : Temporal

namespace Vector

/-- The vector of a record's fields. Momentum along axes counts before momentum across the beam, and
energy before mass. -/
def ofFields? (fields : Dict Value) : Option Vector :=
  let number (name : String) : Option Float := (fields.get? name).bind Value.number?
  let temporal := match number "energy", number "mass" with
    | some e, _ => some (Temporal.energy e)
    | none, some m => some (Temporal.mass m)
    | none, none => none
  let momentum := match number "px", number "py", number "pz" with
    | some x, some y, some z => some (Momentum.cartesian x y z)
    | _, _, _ => match number "pt", number "eta", number "phi" with
      | some t, some e, some p => some (Momentum.cylindrical t e p)
      | _, _, _ => none
  match temporal, momentum with
  | some t, some m => some ⟨m, t⟩
  | _, _ => none

def ofValue? : Value → Option Vector
  | .record fields => ofFields? fields
  | _ => none

def isCartesian (v : Vector) : Bool :=
  match v.momentum with
  | .cartesian _ _ _ => true
  | .cylindrical _ _ _ => false

/-- A square root that keeps the sign of its argument. -/
def signedSqrt (x : Float) : Float :=
  if x ≥ 0 then x.sqrt else -(-x).sqrt

def signedSquare (m : Float) : Float :=
  let sign : Float := if m.isNaN then m else if Double.isNegative m then -1 else 1
  m * m * sign

def px (v : Vector) : Float :=
  match v.momentum with
  | .cartesian x _ _ => x
  | .cylindrical t _ p => t * p.cos

def py (v : Vector) : Float :=
  match v.momentum with
  | .cartesian _ y _ => y
  | .cylindrical t _ p => t * p.sin

def pz (v : Vector) : Float :=
  match v.momentum with
  | .cartesian _ _ z => z
  | .cylindrical t e _ => t * e.sinh

def pt (v : Vector) : Float :=
  match v.momentum with
  | .cartesian x y _ => Double.hypot x y
  | .cylindrical t _ _ => t

def p (v : Vector) : Float :=
  match v.momentum with
  | .cartesian x y z => (x * x + y * y + z * z).sqrt
  | .cylindrical t e _ => t * e.cosh

def energy (v : Vector) : Float :=
  match v.temporal with
  | .energy e => e
  | .mass m => (v.p * v.p + signedSquare m).sqrt

def mass (v : Vector) : Float :=
  match v.temporal with
  | .mass m => m
  | .energy e => signedSqrt (e * e - v.p * v.p)

def phi (v : Vector) : Float :=
  match v.momentum with
  | .cartesian x y _ => y.atan2 x
  | .cylindrical _ _ p => p

def theta (v : Vector) : Float :=
  match v.momentum with
  | .cartesian _ _ z => v.pt.atan2 z
  | .cylindrical _ e _ => (1 : Float).atan2 e.sinh

def eta (v : Vector) : Float :=
  match v.momentum with
  | .cartesian _ _ _ =>
    let c := v.theta.cos
    ((1 - c) / (1 + c)).log / (-2)
  | .cylindrical _ e _ => e

def transverseEnergy (v : Vector) : Float :=
  match v.momentum with
  | .cartesian _ _ _ => v.energy * v.pt / v.p
  | .cylindrical _ e _ => v.energy / e.cosh

def transverseMass (v : Vector) : Float :=
  signedSqrt (v.energy * v.energy - v.pz * v.pz)

def rapidity (v : Vector) : Float :=
  ((v.energy + v.pz) / (v.energy - v.pz)).log / 2

def beta (v : Vector) : Float :=
  v.p / v.energy

def gamma (v : Vector) : Float :=
  if -1 < v.beta && v.beta < 1 then 1 / (1 - v.beta * v.beta).sqrt else 1 / 0

/-- The product of two vectors: energies less momenta. -/
def dot (v w : Vector) : Float :=
  v.energy * w.energy - v.px * w.px - v.py * w.py - v.pz * w.pz

/-- The angle from the second vector to the first around the beam, from `-pi` up to `pi`. -/
def deltaPhi (v w : Vector) : Float :=
  Double.positiveRemainder (v.phi - w.phi + Double.pi) (2 * Double.pi) - Double.pi

def deltaR (v w : Vector) : Float :=
  let angle := v.deltaPhi w
  let along := v.eta - w.eta
  (angle * angle + along * along).sqrt

def measure (m : VectorMethod) (v w : Vector) : Float :=
  match m with
  | .dot => v.dot w
  | .deltaPhi => v.deltaPhi w
  | .deltaR => v.deltaR w

def members : List (String × (Vector → Float)) :=
  [("px", px), ("py", py), ("pz", pz), ("energy", energy), ("eta", eta), ("phi", phi), ("mass", mass),
    ("p", p), ("pt", pt), ("Et", transverseEnergy), ("mt", transverseMass), ("theta", theta),
    ("rapidity", rapidity), ("beta", beta), ("gamma", gamma)]

def member? (name : String) : Option (Vector → Float) :=
  (members.find? fun m => m.1 = name).map Prod.snd

end Vector

end RecordStats.Kinematics
