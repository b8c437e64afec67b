import RecordStats.Evaluation.Failure
import RecordStats.Value.Text

/-! The methods of lists and tuples. -/

namespace RecordStats

/-- How a value is called from within: on some arguments, at a place of the evaluation. -/
abbrev Caller := Origin → Value → List Value → Outcome Value

namespace ListMethod

/-- The results of a function on each item. Each call has a place of its own, counted from `i`. -/
def mapFrom (call : Caller) (origin : Origin) (f : Value) : Nat → List Value → Outcome (List Value)
  | _, [] => .ok []
  | i, item :: rest => do
    let v ← call (i :: origin) f [item]
    let vs ← mapFrom call origin f (i + 1) rest
    return v :: vs

/-- The items on which a function gives true; it has to give true or false on all. -/
def filterFrom (call : Caller) (origin : Origin) (f : Value) : Nat → List Value → Outcome (List Value)
  | _, [] => .ok []
  | i, item :: rest => do
    match ← call (i :: origin) f [item] with
    | .boolean keep =>
      let kept ← filterFrom call origin f (i + 1) rest
      return if keep then item :: kept else kept
    | other => Outcome.fail (.filterNotBoolean other.text)

def flattened : List Value → Except Cause (List Value)
  | [] => .ok []
  | item :: rest => match item.items? with
    | some inner => do return inner ++ (← flattened rest)
    | none => .error (.notNested item.text)

def joined (x y : Value) : Value :=
  match x with
  | .tuple items => .tuple (items ++ [y])
  | _ => .tuple [x, y]

/-- Each item of one list with each of another. -/
def product (xs ys : List Value) : List Value :=
  xs.flatMap fun x => ys.map fun y => joined x y

/-- Each item with each later one; with itself too when `self` says so. -/
def pairings (self : Bool) : List Value → List Value
  | [] => []
  | x :: rest =>
    (if self then x :: rest else rest).map (fun y => .tuple [x, y]) ++ pairings self rest

def improves (largest : Bool) (best : Option (Float × Value)) (x : Float) : Bool :=
  match best with
  | none => true
  | some (y, _) => if largest then x > y else x < y

/-- The item with the best number, beginning with the best so far; the first of equals. -/
def bestNumber (largest : Bool) : Option (Float × Value) → List Value →
    Except Cause (Option (Float × Value))
  | best, [] => .ok best
  | best, item :: rest => match item.number? with
    | some x => bestNumber largest (if improves largest best x then some (x, item) else best) rest
    | none => .error (.notNumber item.text)

/-- The item with the best key, beginning with the best so far; the first of equals. -/
def bestKey (call : Caller) (origin : Origin) (key : Value) (largest : Bool) :
    Nat → Option (Float × Value) → List Value → Outcome (Option (Float × Value))
  | _, best, [] => .ok best
  | i, best, item :: rest => do
    let v ← call (i :: origin) key [item]
    match v.number? with
    | some x =>
      bestKey call origin key largest (i + 1) (if improves largest best x then some (x, item) else best) rest
    | none => Outcome.fail (.keyNotNumber v.text)

/-- The best item, or what an empty list has instead: an infinity that every number is better than. -/
def extreme (largest : Bool) (items : List Value) : Except Cause Value := do
  match ← bestNumber largest none items with
  | some (_, item) => return item
  | none => return .float (if largest then -(1 / 0) else 1 / 0)

/-- The best item by a key, alone in a list. -/
def extremeBy (call : Caller) (origin : Origin) (key : Value) (largest : Bool) (items : List Value) :
    Outcome Value := do
  let best ← bestKey call origin key largest 0 none items
  return .list (best.map Prod.snd).toList

def run (call : Caller) (origin : Origin) (items : List Value) (argument : Value) :
    ListMethod → Outcome Value
  | map => do return .list (← mapFrom call origin argument 0 items)
  | filter => do return .list (← filterFrom call origin argument 0 items)
  | flatten => .ofCause do return .list (← flattened items)
  | cross => match argument.items? with
    | some others => .ok (.list (product items others))
    | none => .fail (.crossNotList argument.kind)
  | pairs => .ok (.list (pairings true items))
  | distincts => .ok (.list (pairings false items))
  | min => .ofCause (extreme false items)
  | max => .ofCause (extreme true items)
  | minby => extremeBy call origin argument false items
  | maxby => extremeBy call origin argument true items

def apply (call : Caller) (origin : Origin) (m : ListMethod) (receiver : Value) (arguments : List Value) :
    Outcome Value :=
  if arguments.length = m.arity then
    m.run call origin (receiver.items?.getD []) (arguments.headD .null)
  else .fail (.argumentCount m.name (m.arity, m.arity) arguments.length)

end ListMethod

end RecordStats
