import RecordStats.Record.Fill

/-!
Actions on the tree: a record is run by changing parts of the tree one after another. An action that
fails leaves what it has changed.
-/

namespace RecordStats

/-- What is done to a part of the tree: how it ends, and the part as it is left. -/
def Action (σ α : Type) : Type := σ → Outcome α × σ

namespace Action

variable {σ α β : Type}

def ofOutcome (o : Outcome α) : Action σ α := fun s => (o, s)

def bind (act : Action σ α) (next : α → Action σ β) : Action σ β := fun s =>
  match act s with
  | (.ok a, s) => next a s
  | (.error stop, s) => (.error stop, s)

instance : Monad (Action σ) where
  pure a := fun s => (.ok a, s)
  bind := bind

instance : MonadLift (Except Stop) (Action σ) := ⟨ofOutcome⟩

end Action

/-- An action on the child of a namespace that a statement works on. -/
def Namespace.within {α : Type} (name : Name) (act : Action Node α) : Action Namespace α
  | [] => (Outcome.failAt (.uninitialized name.text) name.span, [])
  | (key, node) :: rest =>
    if key = name.text then
      let (outcome, node) := act node
      (outcome, (key, node) :: rest)
    else
      let (outcome, rest) := within name act rest
      (outcome, (key, node) :: rest)

namespace Node

variable {α : Type}

/-- An action on the children of a node that has to be a namespace. -/
def opened (cause : Cause) (s : Span) (act : Action Namespace α) : Action Node α
  | .namespace name children =>
    let (outcome, children) := act children
    (outcome, .namespace name children)
  | node => (Outcome.failAt cause s, node)

/-- An action on one of some bins; `slot` is what they have been asked for. -/
def nth (act : Action Node α) (slot : Slot) : Nat → Action (List Node) α
  | _, [] => (Outcome.fail (.noBin slot.text), [])
  | 0, node :: rest =>
    let (outcome, node) := act node
    (outcome, node :: rest)
  | i + 1, node :: rest =>
    let (outcome, rest) := nth act slot i rest
    (outcome, node :: rest)

/-- An action on the child of a binning in a slot. -/
def atSlot (act : Action Node α) (slot : Slot) : Action Node α
  | binning name bins axis values u o v =>
    match slot with
    | .bin i =>
      let (outcome, values) := nth act slot i values
      (outcome, binning name bins axis values u o v)
    | .underflow =>
      let (outcome, u) := act u
      (outcome, binning name bins axis values u o v)
    | .overflow =>
      let (outcome, o) := act o
      (outcome, binning name bins axis values u o v)
    | .nanflow =>
      let (outcome, v) := act v
      (outcome, binning name bins axis values u o v)
  | node => (Outcome.fail (.noBin slot.text), node)

/-- An action on the namespace that a record reaches below a node through some binnings. -/
def routed (call : Caller) (scope : Scope) (blame : Span) (act : Action Namespace α) : Nat → Action Node α
  | 0, node => opened .regionNotNamespace blame act node
  | axes + 1, binning name bins axis values u o v =>
    match bins.slot call scope axis with
    | .error stop => (.error stop, binning name bins axis values u o v)
    | .ok slot => atSlot (routed call scope blame act axes) slot (binning name bins axis values u o v)
  | _ + 1, node => (Outcome.failAt .axisNotBinning blame, node)

mutual

/-- Adds an entry of the given weight to the storage that a record reaches below a node. -/
def enter (call : Caller) (scope : Scope) (w : Float) : Node → Outcome Unit × Node
  | storage name content =>
    match content.sample call scope with
    | .ok sample => (.ok (), storage name (content.fill w sample))
    | .error stop => (.error stop, storage name content)
  | binning name bins axis values u o v =>
    match bins.slot call scope axis with
    | .error stop => (.error stop, binning name bins axis values u o v)
    | .ok (.bin i) =>
      let (outcome, values) := enterNth call scope w (.bin i) i values
      (outcome, binning name bins axis values u o v)
    | .ok .underflow =>
      let (outcome, u) := enter call scope w u
      (outcome, binning name bins axis values u o v)
    | .ok .overflow =>
      let (outcome, o) := enter call scope w o
      (outcome, binning name bins axis values u o v)
    | .ok .nanflow =>
      let (outcome, v) := enter call scope w v
      (outcome, binning name bins axis values u o v)
  | .namespace name children => (Outcome.fail (.fillsNamespace name), .namespace name children)

/-- Adds an entry to the storage that a record reaches below one of some bins. -/
def enterNth (call : Caller) (scope : Scope) (w : Float) (slot : Slot) : Nat → List Node →
    Outcome Unit × List Node
  | _, [] => (Outcome.fail (.noBin slot.text), [])
  | 0, node :: rest =>
    let (outcome, node) := enter call scope w node
    (outcome, node :: rest)
  | i + 1, node :: rest =>
    let (outcome, rest) := enterNth call scope w slot i rest
    (outcome, node :: rest)

end

end Node

end RecordStats
