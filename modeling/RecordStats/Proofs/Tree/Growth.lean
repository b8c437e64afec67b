import Mathlib
import RecordStats.Proofs.Double.Sum
import RecordStats.Proofs.Record.Entries

/-! Totals that only grow. An entry of a weight that is not negative lowers no total of weights, and it keeps the part
    that passed below the whole. All that counts is that sums are monotone and that nothing is lost by adding more. -/

namespace RecordStats

/-! ### Statistics -/

/-- Scalars from zero on can be added up: sums are monotone, adding more loses nothing, and squares are not negative. -/
structure Scalar.Accumulates (α : Type) [Scalar α] : Prop where
  zero_le_zero : (Scalar.ofNat 0 : α) ≤ Scalar.ofNat 0
  le_self : ∀ {a : α}, Scalar.ofNat 0 ≤ a → a ≤ a
  le_trans : ∀ {a b c : α}, a ≤ b → b ≤ c → a ≤ c
  le_add : ∀ {a w : α}, Scalar.ofNat 0 ≤ a → Scalar.ofNat 0 ≤ w → a ≤ a + w
  add_le_add : ∀ {a b w : α}, Scalar.ofNat 0 ≤ a → a ≤ b → Scalar.ofNat 0 ≤ w → a + w ≤ b + w
  square_nonneg : ∀ {w : α}, Scalar.ofNat 0 ≤ w → Scalar.ofNat 0 ≤ w * w

/-- Doubles can be added up. -/
theorem Double.accumulates : Scalar.Accumulates Float where
  zero_le_zero := (denotes_zero.le_iff denotes_zero).mpr le_rfl
  le_self := le_self_of_nonneg
  le_trans := le_trans_of_le
  le_add := le_add_of_nonneg
  add_le_add := add_le_add_of_nonneg
  square_nonneg := square_nonneg

section

variable {α : Type} [Scalar α] {w : α}

/-- Two totals of weights that are not negative. -/
structure Count.Proper (c : Count α) : Prop where
  sumw : Scalar.ofNat 0 ≤ c.sumw
  sumw2 : Scalar.ofNat 0 ≤ c.sumw2

structure Count.GrowsTo (c d : Count α) : Prop where
  sumw : c.sumw ≤ d.sumw
  sumw2 : c.sumw2 ≤ d.sumw2

structure Profile.Proper (p : Profile α) : Prop where
  sumw : Scalar.ofNat 0 ≤ p.sumw
  sumw2 : Scalar.ofNat 0 ≤ p.sumw2

structure Profile.GrowsTo (p q : Profile α) : Prop where
  sumw : p.sumw ≤ q.sumw
  sumw2 : p.sumw2 ≤ q.sumw2

/-- The part that passed is not negative, and no more than the whole. -/
structure Fraction.Proper (f : Fraction α) : Prop where
  nonneg : Scalar.ofNat 0 ≤ f.numerw
  part : f.numerw ≤ f.denomw

structure Fraction.GrowsTo (f g : Fraction α) : Prop where
  numerw : f.numerw ≤ g.numerw
  denomw : f.denomw ≤ g.denomw

namespace Scalar.Accumulates

variable (laws : Scalar.Accumulates α)

include laws

theorem add_nonneg {a : α} (ha : Scalar.ofNat 0 ≤ a) (hw : Scalar.ofNat 0 ≤ w) : Scalar.ofNat 0 ≤ a + w :=
  laws.le_trans ha (laws.le_add ha hw)

theorem count_fill {c : Count α} (h : c.Proper) (hw : Scalar.ofNat 0 ≤ w) :
    (c.fill w).Proper ∧ c.GrowsTo (c.fill w) :=
  have hw2 := laws.square_nonneg hw
  ⟨⟨laws.add_nonneg h.sumw hw, laws.add_nonneg h.sumw2 hw2⟩, laws.le_add h.sumw hw, laws.le_add h.sumw2 hw2⟩

theorem profile_fill {p : Profile α} (h : p.Proper) (hw : Scalar.ofNat 0 ≤ w) (x : α) :
    (p.fill w x).Proper ∧ p.GrowsTo (p.fill w x) :=
  have hw2 := laws.square_nonneg hw
  ⟨⟨laws.add_nonneg h.sumw hw, laws.add_nonneg h.sumw2 hw2⟩, laws.le_add h.sumw hw, laws.le_add h.sumw2 hw2⟩

/-- The whole always gets the weight, and the part gets it only with the whole. -/
theorem fraction_fill {f : Fraction α} (h : f.Proper) (hw : Scalar.ofNat 0 ≤ w) (passed : Bool) :
    (f.fill w passed).Proper ∧ f.GrowsTo (f.fill w passed) := by
  have whole : f.denomw ≤ f.denomw + w := laws.le_add (laws.le_trans h.nonneg h.part) hw
  cases passed with
  | true =>
    exact ⟨⟨laws.add_nonneg h.nonneg hw, laws.add_le_add h.nonneg h.part hw⟩, laws.le_add h.nonneg hw, whole⟩
  | false => exact ⟨⟨h.nonneg, laws.le_trans h.part whole⟩, laws.le_self h.nonneg, whole⟩

end Scalar.Accumulates

end

/-! ### Storages -/

namespace Storage

open Double

/-- Of the totals of weights none is negative, and the part that passed is no more than the whole. -/
def Proper : Storage → Prop
  | count c => c.Proper
  | sum _ _ => True
  | profile _ p => p.Proper
  | fraction _ f => f.Proper

/-- The second storage is of the same kind, and no total of weights is lower in it. -/
def GrowsTo : Storage → Storage → Prop
  | count c, count d => c.GrowsTo d
  | sum _ _, sum _ _ => True
  | profile _ p, profile _ q => p.GrowsTo q
  | fraction _ f, fraction _ g => f.GrowsTo g
  | _, _ => False

variable {s : Storage}

theorem proper_zero (s : Storage) : s.zero.Proper := by
  have zero := accumulates.zero_le_zero
  cases s with
  | sum => trivial
  | _ => exact ⟨zero, zero⟩

theorem GrowsTo.refl (h : s.Proper) : s.GrowsTo s := by
  cases s with
  | sum => trivial
  | fraction e f => exact ⟨le_self_of_nonneg h.nonneg, le_self_of_nonneg (le_trans_of_le h.nonneg h.part)⟩
  | _ => exact ⟨le_self_of_nonneg h.sumw, le_self_of_nonneg h.sumw2⟩

theorem GrowsTo.trans : ∀ {s t u : Storage}, s.GrowsTo t → t.GrowsTo u → s.GrowsTo u
  | count _, count _, count _, h, h' => ⟨le_trans_of_le h.sumw h'.sumw, le_trans_of_le h.sumw2 h'.sumw2⟩
  | sum _ _, sum _ _, sum _ _, _, _ => trivial
  | profile _ _, profile _ _, profile _ _, h, h' =>
    ⟨le_trans_of_le h.sumw h'.sumw, le_trans_of_le h.sumw2 h'.sumw2⟩
  | fraction _ _, fraction _ _, fraction _ _, h, h' =>
    ⟨le_trans_of_le h.numerw h'.numerw, le_trans_of_le h.denomw h'.denomw⟩

/-- An entry makes no total lower. What is not measured as the storage does is no entry. -/
theorem growsTo_fill (h : s.Proper) {w : Float} (hw : 0 ≤ w) (sample : Sample) :
    (s.fill w sample).Proper ∧ s.GrowsTo (s.fill w sample) := by
  cases s with
  | count c =>
    cases sample with
    | entry => exact accumulates.count_fill h hw
    | _ => exact ⟨h, .refl h⟩
  | sum e x => cases sample <;> exact ⟨trivial, trivial⟩
  | profile e p =>
    cases sample with
    | number x => exact accumulates.profile_fill h hw x
    | _ => exact ⟨h, .refl h⟩
  | fraction e f =>
    cases sample with
    | passed b => exact accumulates.fraction_fill h hw b
    | _ => exact ⟨h, .refl h⟩

end Storage

end RecordStats
