import RecordStats.Double.Parts

/-! The arithmetic that bins and statistics need. -/

namespace RecordStats

class Scalar (α : Type) extends Add α, Sub α, Mul α, Div α, LT α, LE α, BEq α where
  /-- A whole number of 64 bits. -/
  ofNat : Nat → α
  /-- The whole part of a number that is not below zero. -/
  whole : α → Nat
  root : α → α
  decidableLT : DecidableLT α
  decidableLE : DecidableLE α

attribute [reducible, instance] Scalar.decidableLT Scalar.decidableLE

instance : Scalar Float where
  ofNat := fun n => n.toUInt64.toFloat
  whole := fun x => x.toUInt64.toNat
  root := Float.sqrt
  decidableLT := inferInstance
  decidableLE := inferInstance

end RecordStats
