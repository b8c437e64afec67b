import RecordStats.Proofs.Record.Effect

/-! The slots of a binning. Each slot has one child, which can be exchanged for another one; an action in a slot
    changes that child alone, and so do the fills below the step that leads to it. -/

namespace RecordStats

open RecordStats.Part

namespace Node

variable {α : Type}

/-- The child of a binning in a slot. -/
def slotChild (slot : Slot) : Node → Outcome Node
  | binning _ _ _ values u o v => inSlot values u o v slot
  | _ => Outcome.fail (.noBin slot.text)

/-- A binning with another child in a slot. -/
def withSlot (node : Node) (slot : Slot) (child : Node) : Node :=
  match node, slot with
  | binning name bins axis values u o v, .bin i => binning name bins axis (values.set i child) u o v
  | binning name bins axis values _ o v, .underflow => binning name bins axis values child o v
  | binning name bins axis values u _ v, .overflow => binning name bins axis values u child v
  | binning name bins axis values u o _, .nanflow => binning name bins axis values u o child
  | node, _ => node

theorem nth_none (act : Action Node α) (slot : Slot) {i : Nat} {values : List Node} (h : values[i]? = none) :
    nth act slot i values = (Outcome.fail (.noBin slot.text), values) := by
  induction values generalizing i with
  | nil => cases i <;> rfl
  | cons node rest ih =>
    cases i with
    | zero => cases h
    | succ i =>
      rw [nth, ih h]

theorem nth_some (act : Action Node α) (slot : Slot) {i : Nat} {values : List Node} {node : Node}
    (h : values[i]? = some node) : nth act slot i values = ((act node).1, values.set i (act node).2) := by
  induction values generalizing i with
  | nil => cases h
  | cons first rest ih =>
    cases i with
    | zero =>
      cases h
      rfl
    | succ i =>
      rw [nth, ih h]
      rfl

theorem modifyNth_some (f : Storage → Storage) (path : Path) {i : Nat} {values : List Node} {node : Node}
    (h : values[i]? = some node) : modifyNth f i path values = values.set i (modifyAt f path node) := by
  induction values generalizing i with
  | nil => cases h
  | cons first rest ih =>
    cases i with
    | zero =>
      cases h
      simp only [modifyNth, List.set_cons_zero]
    | succ i =>
      rw [modifyNth, ih h]
      rfl

variable {node next : Node} {slot : Slot}

theorem slotChild_bin {name : Path} {bins : Bins Float} {axis : Expr} {values : List Node} {u o v : Node} {i : Nat} :
    (binning name bins axis values u o v).slotChild (.bin i) = .ok next ↔ values[i]? = some next := by
  rw [slotChild, inSlot]
  cases values[i]? with
  | none =>
    constructor
    · intro h
      cases h
    · intro h
      cases h
  | some child =>
    constructor
    · intro h
      exact congrArg some (Except.ok.inj h)
    · intro h
      exact congrArg Except.ok (Option.some.inj h)

theorem atSlot_error (act : Action Node α) {stop : Stop} (h : node.slotChild slot = .error stop) :
    atSlot act slot node = (.error stop, node) := by
  cases node with
  | binning name bins axis values u o v =>
    cases slot with
    | bin i =>
      rw [slotChild, inSlot] at h
      cases hi : values[i]? with
      | some node =>
        rw [hi] at h
        cases h
      | none =>
        rw [hi] at h
        cases h
        rw [atSlot]
        simp only [nth_none act _ hi]
        rfl
    | underflow => cases h
    | overflow => cases h
    | nanflow => cases h
  | storage name content =>
    cases h
    rfl
  | _ =>
    cases h
    rfl

theorem atSlot_ok (act : Action Node α) (h : node.slotChild slot = .ok next) :
    atSlot act slot node = ((act next).1, node.withSlot slot (act next).2) := by
  cases node with
  | binning name bins axis values u o v =>
    cases slot with
    | bin i =>
      rw [atSlot]
      simp only [nth_some act _ (slotChild_bin.mp h)]
      rfl
    | underflow =>
      cases h
      rfl
    | overflow =>
      cases h
      rfl
    | nanflow =>
      cases h
      rfl
  | _ => cases h

theorem slotChild_withSlot (child : Node) (h : node.slotChild slot = .ok next) :
    (node.withSlot slot child).slotChild slot = .ok child := by
  cases node with
  | binning name bins axis values u o v =>
    cases slot with
    | bin i =>
      obtain ⟨hlt, -⟩ := List.getElem?_eq_some_iff.mp (slotChild_bin.mp h)
      exact slotChild_bin.mpr (List.getElem?_set_self hlt)
    | underflow => rfl
    | overflow => rfl
    | nanflow => rfl
  | _ => cases h

theorem withSlot_self (h : node.slotChild slot = .ok next) : node.withSlot slot next = node := by
  cases node with
  | binning name bins axis values u o v =>
    cases slot with
    | bin i =>
      obtain ⟨hlt, rfl⟩ := List.getElem?_eq_some_iff.mp (slotChild_bin.mp h)
      rw [withSlot, List.set_getElem_self]
    | underflow =>
      cases h
      rfl
    | overflow =>
      cases h
      rfl
    | nanflow =>
      cases h
      rfl
  | _ => cases h

theorem withSlot_withSlot (node : Node) (slot : Slot) (a b : Node) :
    (node.withSlot slot a).withSlot slot b = node.withSlot slot b := by
  cases node with
  | binning name bins axis values u o v =>
    cases slot with
    | bin i =>
      simp only [withSlot, List.set_set]
    | underflow => rfl
    | overflow => rfl
    | nanflow => rfl
  | _ => rfl

theorem slotChild_emptied (node : Node) (slot : Slot) :
    node.emptied.slotChild slot = (node.slotChild slot).map emptied := by
  cases node with
  | binning name bins axis values u o v =>
    cases slot with
    | bin i =>
      rw [emptied, slotChild, slotChild, inSlot, inSlot, emptiedValues_eq_map, List.getElem?_map]
      cases values[i]? <;> rfl
    | underflow => rfl
    | overflow => rfl
    | nanflow => rfl
  | _ => rfl

theorem emptied_withSlot (node : Node) (slot : Slot) (child : Node) :
    (node.withSlot slot child).emptied = node.emptied.withSlot slot child.emptied := by
  cases node with
  | binning name bins axis values u o v =>
    cases slot with
    | bin i =>
      simp only [withSlot, emptied, emptiedValues_eq_map, List.map_set]
    | underflow => rfl
    | overflow => rfl
    | nanflow => rfl
  | _ => cases slot <;> rfl

/-- A child of a placed binning stands under its slot, and has an index if it is a bin. -/
theorem Placed.slotChild {name : Path} (hp : Placed name node) (h : node.slotChild slot = .ok next) :
    Placed (name ++ [slot.segment]) next := by
  cases node with
  | binning own bins axis values u o v =>
    obtain ⟨-, -, -, hvalues, hu, ho, hv⟩ := hp
    cases slot with
    | bin i =>
      have := placedValues_iff.mp hvalues i next (slotChild_bin.mp h)
      rwa [Nat.zero_add] at this
    | underflow =>
      cases h
      exact hu
    | overflow =>
      cases h
      exact ho
    | nanflow =>
      cases h
      exact hv
  | _ => cases h

/-- A change below the step of a slot is a change of the child in it. -/
theorem modifyAt_slot (f : Storage → Storage) (path : Path) {name : Path} (hp : Placed name node)
    (h : node.slotChild slot = .ok next) :
    modifyAt f (slot.segment :: path) node = node.withSlot slot (modifyAt f path next) := by
  cases node with
  | binning own bins axis values u o v =>
    cases slot with
    | bin i =>
      have hi := slotChild_bin.mp h
      obtain ⟨-, hlen, few, -⟩ := hp
      obtain ⟨hlt, -⟩ := List.getElem?_eq_some_iff.mp hi
      have index : (Int64.ofNat i).toInt = i := Slot.toInt_ofNat (by omega)
      rw [Slot.segment, modifyAt, index, if_neg (by omega), if_pos (by omega), Int.toNat_natCast,
        modifyNth_some f path hi, withSlot]
    | underflow =>
      cases h
      simp only [Slot.segment, modifyAt, withSlot]
    | overflow =>
      cases h
      simp only [Slot.segment, modifyAt, withSlot]
    | nanflow =>
      cases h
      simp only [Slot.segment, modifyAt, withSlot]
  | _ => cases h

end Node

open Node in
/-- Fills below a slot. -/
theorem Part.fillAll_below_slot {node next : Node} {slot : Slot} (fills : List Fill) (hi : Indexed node)
    (h : node.slotChild slot = .ok next) :
    fillAll node (fills.map (Fill.below [slot.segment])) = node.withSlot slot (fillAll next fills) := by
  induction fills generalizing node next with
  | nil => exact (withSlot_self h).symm
  | cons f more ih =>
    obtain ⟨name, hp⟩ := hi
    have step : fill node (f.below [slot.segment]) = node.withSlot slot (fill next f) :=
      modifyAt_slot _ f.path hp h
    have shape : emptied (fill node (f.below [slot.segment])) = emptied node := emptied_fill _ _
    rw [step] at shape
    have rest := ih ((indexed_congr shape).mpr ⟨name, hp⟩) (slotChild_withSlot _ h)
    rw [withSlot_withSlot] at rest
    exact (congrArg (fillAll · _) step).trans rest

end RecordStats
