import Mathlib
import RecordStats.Evaluation.Call
import RecordStats.Proofs.Double.Order

/-! The methods of lists that pick a best item, by the items' own numbers or by the numbers that a key gives. Both pass
    over the items once and keep the best one so far: the first of those that none of the items seen by then beats.
    What is no number is an error wherever it stands. -/

namespace RecordStats

/-! ### Calls of list methods -/

theorem ListMethod.ofName?_name (m : ListMethod) : ListMethod.ofName? m.name = some m := by
  cases m <;> rfl

theorem Operator.member_list {v : Value} {items : List Value} (h : v.items? = some items) (m : ListMethod)
    (origin : Origin) (s : Span) :
    Operator.member.apply origin [v, .string m.name] s = .ok (.function (.method origin v (.list m))) := by
  have accepted : Overload.sequence [v, .string m.name] = .ok true := by
    rw [Overload.sequence, h]
    rfl
  have made : Overload.listMember origin [v, .string m.name] = .ok (.function (.method origin v (.list m))) := by
    rw [Overload.listMember, Overload.memberName, m.ofName?_name]
  simp only [apply, overloads, applyFirst, accepted]
  exact congrArg (fun f => (Outcome.ofCause f).orAt s) made

namespace Expr

/-- The call of a list method: the member of this name, called with some arguments. The name, the member and the call
    have places of their own. -/
def send (receiver : Expr) (m : ListMethod) (arguments : List Expr) (name member place : Span) : Expr :=
  .call (.operator .member [receiver, .name m.name name] member) arguments place

variable {host : Host} {depth : Nat} {scope : Scope} {origin : Origin} {receiver : Expr} {v : Value}
  {items : List Value}

/-- A list method runs on the items of what its receiver gives. -/
theorem evaluate_send (hv : receiver.evaluate (host.caller (depth + 1)) scope (0 :: 0 :: origin) = .ok v)
    (hitems : v.items? = some items) {m : ListMethod} {arguments : List Expr} {vs : List Value}
    (hvs : evaluateAll (host.caller (depth + 1)) scope origin 2 arguments = .ok vs) (hlen : vs.length = m.arity)
    (name member place : Span) :
    (send receiver m arguments name member place).evaluate (host.caller (depth + 1)) scope origin =
      (m.run (host.caller depth) (1 :: origin) items (vs.headD .null)).orAt place := by
  have called : host.caller (depth + 1) (1 :: origin) (.function (.method (0 :: origin) v (.list m))) vs =
      m.run (host.caller depth) (1 :: origin) items (vs.headD .null) := by
    show m.apply (host.caller depth) (1 :: origin) v vs = _
    rw [ListMethod.apply, if_pos hlen, hitems, Option.getD_some]
  simp only [send, evaluate, name?, hvs, hv, ← called]
  exact congrArg (fun f => f >>= fun f => (host.caller (depth + 1) (1 :: origin) f vs).orAt place)
    (Operator.member_list hitems m (0 :: origin) member)

end Expr

namespace ListMethod

/-! ### The best of some numbers -/

/-- Whether a number is better than another: it is larger, or smaller. -/
def Beats (largest : Bool) (x y : Float) : Prop :=
  if largest = true then y < x else x < y

instance (largest : Bool) (x y : Float) : Decidable (Beats largest x y) :=
  inferInstanceAs (Decidable (if largest = true then y < x else x < y))

/-- The least of the indices of those numbers that no other one beats. -/
def FirstBest (largest : Bool) (scores : List Float) (i : Nat) : Prop :=
  IsLeast {i | ∃ x, scores[i]? = some x ∧ ∀ y ∈ scores, ¬ Beats largest y x} i

variable {largest : Bool}

section Order
variable {x y z : Float}

theorem not_beats_self (largest : Bool) (x : Float) : ¬ Beats largest x x := by
  cases largest with
  | true => exact Double.not_lt_self x
  | false => exact Double.not_lt_self x

theorem Beats.trans (h : Beats largest x y) (h' : Beats largest y z) : Beats largest x z := by
  cases largest with
  | true => exact Double.lt_of_lt_of_lt h' h
  | false => exact Double.lt_of_lt_of_lt h h'

theorem Beats.beats_or (h : Beats largest x z) (number : y.isNaN = false) : Beats largest x y ∨ Beats largest y z := by
  have number : ¬ y.isNaN = true := by rw [number]; exact Bool.false_ne_true
  cases largest with
  | true => exact (Double.lt_or_lt_of_lt h number).symm
  | false => exact Double.lt_or_lt_of_lt h number

end Order

/-- One more number is the best one if it beats the best so far, and otherwise that stays the first of the best. -/
theorem FirstBest.concat {scores : List Float} {i : Nat} {x y : Float} (h : FirstBest largest scores i)
    (hy : scores[i]? = some y) (numbers : ∀ z ∈ scores, z.isNaN = false) :
    FirstBest largest (scores ++ [x]) (if Beats largest x y then scores.length else i) := by
  obtain ⟨⟨y', hy', unbeaten⟩, least⟩ := h
  cases hy.symm.trans hy'
  have earlier {j : Nat} {z : Float} (hj : j < scores.length) (hz : (scores ++ [x])[j]? = some z) :
      scores[j]? = some z := by
    rwa [List.getElem?_append_left hj] at hz
  split
  · next beats =>
    refine ⟨⟨x, List.getElem?_concat_length, List.forall_mem_append.mpr ⟨fun z hz hbeats => ?_, ?_⟩⟩, ?_⟩
    · exact unbeaten z hz (hbeats.trans beats)
    · exact List.forall_mem_singleton.mpr (not_beats_self largest x)
    · rintro j ⟨z, hz, free⟩
      by_contra hj
      have hz := List.mem_of_getElem? (earlier (not_le.mp hj) hz)
      -- what the new number does not beat would have to beat the best one
      rcases beats.beats_or (numbers z hz) with hbeats | hbeats
      · exact free x (List.mem_append_right _ List.mem_cons_self) hbeats
      · exact unbeaten z hz hbeats
  · next beaten =>
    refine ⟨⟨y, ?_, List.forall_mem_append.mpr ⟨unbeaten, List.forall_mem_singleton.mpr beaten⟩⟩, ?_⟩
    · rw [List.getElem?_append_left (List.getElem?_eq_some_iff.mp hy).1, hy]
    · rintro j ⟨z, hz, free⟩
      rcases Nat.lt_or_ge j scores.length with hj | hj
      · exact least ⟨z, earlier hj hz, fun w hw => free w (List.mem_append_left _ hw)⟩
      · exact (List.getElem?_eq_some_iff.mp hy).1.le.trans hj

/-- What is kept after some items have been seen with their numbers: the first of the best, if there are any. -/
def Leads (largest : Bool) (seen : List (Float × Value)) : Option (Float × Value) → Prop
  | none => seen = []
  | some p => ∃ i, FirstBest largest (seen.map Prod.fst) i ∧ seen[i]? = some p

theorem improves_some (largest : Bool) (x y : Float) (v : Value) :
    improves largest (some (y, v)) x = decide (Beats largest x y) := by
  cases largest <;> rfl

/-- What is kept after one more item. -/
theorem Leads.step {seen : List (Float × Value)} {best : Option (Float × Value)} (h : Leads largest seen best)
    (numbers : ∀ p ∈ seen, p.1.isNaN = false) (p : Float × Value) :
    Leads largest (seen ++ [p]) (if improves largest best p.1 then some p else best) := by
  cases best with
  | none =>
    obtain rfl : seen = [] := h
    exact ⟨0, ⟨⟨p.1, rfl, List.forall_mem_singleton.mpr (not_beats_self largest p.1)⟩, fun _ _ => Nat.zero_le _⟩, rfl⟩
  | some q =>
    obtain ⟨i, hfirst, hq⟩ := h
    have hscore : (seen.map Prod.fst)[i]? = some q.1 := by rw [List.getElem?_map, hq, Option.map_some]
    have next := hfirst.concat (x := p.1) hscore (List.forall_mem_map.mpr numbers)
    rw [← List.map_singleton, ← List.map_append, List.length_map] at next
    have improved : improves largest (some q) p.1 = decide (Beats largest p.1 q.1) := improves_some largest p.1 q.1 q.2
    by_cases beats : Beats largest p.1 q.1
    · rw [if_pos beats] at next
      rw [improved, decide_eq_true beats]
      exact ⟨seen.length, next, List.getElem?_concat_length⟩
    · rw [if_neg beats] at next
      rw [improved, decide_eq_false beats]
      exact ⟨i, next, by rw [List.getElem?_append_left (List.getElem?_eq_some_iff.mp hq).1, hq]⟩

/-! ### One pass over the items -/

section Pass
variable {ε : Type} {items : List Value} {i : Nat} {best : Option (Float × Value)}

/-- A pass over some items, counted from `i`, that keeps the one with the best score. -/
def pass (score : Nat → Value → Except ε Float) (largest : Bool) : Nat → Option (Float × Value) → List Value →
    Except ε (Option (Float × Value))
  | _, best, [] => .ok best
  | i, best, item :: rest => do
    let x ← score i item
    pass score largest (i + 1) (if improves largest best x then some (x, item) else best) rest

variable (score : Nat → Value → Except ε Float) (largest : Bool)

/-- A pass ends with the first of the best items if all have scores. -/
theorem pass_leads {seen : List (Float × Value)} (h : Leads largest seen best)
    (numbers : ∀ p ∈ seen, p.1.isNaN = false) {scores : List Float}
    (scored : List.Forall₂ (fun p x => score p.2 p.1 = .ok x ∧ x.isNaN = false) (items.zipIdx i) scores) :
    ∃ found, pass score largest i best items = .ok found ∧ Leads largest (seen ++ scores.zip items) found := by
  induction items generalizing i best seen scores with
  | nil =>
    cases scored
    exact ⟨best, rfl, by rwa [List.zip_nil_left, List.append_nil]⟩
  | cons item rest ih =>
    rw [List.zipIdx_cons] at scored
    obtain _ | ⟨⟨hx, number⟩, others⟩ := scored
    next x scores =>
    have seen' : ∀ p ∈ seen ++ [(x, item)], p.1.isNaN = false :=
      List.forall_mem_append.mpr ⟨numbers, List.forall_mem_singleton.mpr number⟩
    obtain ⟨found, hfound, hleads⟩ := ih (h.step numbers (x, item)) seen' others
    refine ⟨found, ?_, by rwa [List.append_assoc, List.singleton_append, ← List.zip_cons_cons] at hleads⟩
    rw [pass, hx]
    exact hfound

/-- A pass fails as the first item that has no score. -/
theorem pass_error {before after : List Value} {item : Value} {e : ε}
    (scored : ∀ p ∈ before.zipIdx i, ∃ x, score p.2 p.1 = .ok x) (he : score (i + before.length) item = .error e) :
    pass score largest i best (before ++ item :: after) = .error e := by
  induction before generalizing i best with
  | nil =>
    rw [List.nil_append, pass, show score i item = .error e from he]
    rfl
  | cons first rest ih =>
    rw [List.zipIdx_cons, List.forall_mem_cons] at scored
    obtain ⟨⟨x, hx⟩, others⟩ := scored
    rw [List.cons_append, pass, hx]
    refine ih others ?_
    rwa [List.length_cons, Nat.add_comm rest.length 1, ← Nat.add_assoc] at he

/-- A pass fails as soon as any item has no score. -/
theorem pass_fails (h : ∃ p ∈ items.zipIdx i, ∃ e, score p.2 p.1 = .error e) :
    ∃ e, pass score largest i best items = .error e := by
  induction items generalizing i best with
  | nil => simp at h
  | cons item rest ih =>
    cases hscore : score i item with
    | error e => exact ⟨e, by rw [pass, hscore]; rfl⟩
    | ok x =>
      obtain ⟨p, hp, e, he⟩ := h
      rcases List.mem_cons.mp (List.zipIdx_cons ▸ hp) with rfl | hp
      · rw [hscore] at he
        cases he
      · rw [pass, hscore]
        exact ih ⟨p, hp, e, he⟩

/-- A pass from the start over items that all have scores, at least one. -/
theorem pass_best {scores : List Float} (nonempty : items ≠ [])
    (scored : List.Forall₂ (fun p x => score p.2 p.1 = .ok x ∧ x.isNaN = false) items.zipIdx scores) :
    ∃ i item x, FirstBest largest scores i ∧ items[i]? = some item ∧
      pass score largest 0 none items = .ok (some (x, item)) := by
  have hlen : items.length = scores.length := by rw [← scored.length_eq, List.length_zipIdx]
  have start : Leads largest [] none := rfl
  obtain ⟨found, hfound, hleads⟩ := pass_leads score largest start (List.forall_mem_nil _) scored
  rw [List.nil_append] at hleads
  cases found with
  | none =>
    rcases List.zip_eq_nil_iff.mp hleads with hnil | hnil
    · rw [hnil] at hlen
      exact absurd (List.length_eq_zero_iff.mp hlen) nonempty
    · exact absurd hnil nonempty
  | some p =>
    obtain ⟨i, hfirst, hp⟩ := hleads
    rw [List.map_fst_zip hlen.ge] at hfirst
    exact ⟨i, p.2, p.1, hfirst, (List.getElem?_zip_eq_some.mp hp).2, hfound⟩

end Pass

/-! ### By the items' own numbers -/

/-- The number that an item is. -/
def numberOf (item : Value) : Except Cause Float :=
  match item.number? with
  | some x => .ok x
  | none => .error (.notNumber item.text)

theorem bestNumber_eq_pass (i : Nat) (best : Option (Float × Value)) (items : List Value) :
    bestNumber largest best items = pass (fun _ => numberOf) largest i best items := by
  induction items generalizing i best with
  | nil => rfl
  | cons item rest ih =>
    rw [bestNumber, pass, numberOf]
    cases item.number? with
    | none => rfl
    | some x => exact ih (i + 1) _

/-- What the best item by its own number is, if the items are numbers; otherwise there is an error. -/
structure PicksNumber (largest : Bool) (items : List Value) (place : Span) (outcome : Outcome Value) : Prop where
  /-- Of numbers it is the first one that no other beats, as the item that it is. -/
  best : ∀ scores, List.Forall₂ (fun item x => item.number? = some x ∧ x.isNaN = false) items scores → items ≠ [] →
    ∃ i item, FirstBest largest scores i ∧ items[i]? = some item ∧ outcome = .ok item
  /-- If any of the items is no number, the first such item is refused. -/
  notNumber : (∃ item ∈ items, item.number? = none) →
    ∃ item, items.find? (fun v => v.number?.isNone) = some item ∧ outcome = Outcome.failAt (.notNumber item.text) place

theorem extreme_picks (largest : Bool) (items : List Value) (place : Span) :
    PicksNumber largest items place ((Outcome.ofCause (extreme largest items)).orAt place) where
  best scores scored nonempty := by
    rw [← List.zipIdx_map_fst 0 items, List.forall₂_map_left_iff] at scored
    obtain ⟨i, item, x, hfirst, hitem, hpass⟩ := pass_best (fun _ => numberOf) largest nonempty
      (scored.imp fun p x h => ⟨by rw [numberOf, h.1], h.2⟩)
    refine ⟨i, item, hfirst, hitem, ?_⟩
    rw [extreme, bestNumber_eq_pass 0, hpass]
    rfl
  notNumber := by
    rintro ⟨item, hmem, hitem⟩
    have found : (items.find? fun v => v.number?.isNone).isSome = true :=
      List.find?_isSome.mpr ⟨item, hmem, by rw [hitem]; rfl⟩
    -- The pass stops at the first item without a number, since all items before it have one.
    obtain ⟨first, hfirst⟩ := Option.isSome_iff_exists.mp found
    refine ⟨first, hfirst, ?_⟩
    obtain ⟨hnone, before, after, rfl, hbefore⟩ := List.find?_eq_some_iff_append.mp hfirst
    have numbers : ∀ p ∈ before.zipIdx, ∃ x, numberOf p.1 = .ok x := by
      intro p hp
      have hnumber := hbefore p.1 (List.fst_mem_of_mem_zipIdx hp)
      rw [Bool.not_eq_true', Option.isNone_eq_false_iff, Option.isSome_iff_exists] at hnumber
      obtain ⟨x, hx⟩ := hnumber
      exact ⟨x, by rw [numberOf, hx]⟩
    have refused : numberOf first = .error (.notNumber first.text) := by
      rw [numberOf, Option.isNone_iff_eq_none.mp hnone]
    rw [extreme, bestNumber_eq_pass 0, pass_error (fun _ => numberOf) largest numbers refused]
    rfl

/-! ### By the numbers that a key gives -/

/-- The number that a key gives on an item, called at a place of its own. -/
def keyOf (key : Nat → Value → Outcome Value) (i : Nat) (item : Value) : Outcome Float := do
  let v ← key i item
  match v.number? with
  | some x => return x
  | none => Outcome.fail (.keyNotNumber v.text)

theorem bestKey_eq_pass (call : Caller) (origin : Origin) (f : Value) (i : Nat) (best : Option (Float × Value))
    (items : List Value) : bestKey call origin f largest i best items =
      pass (keyOf fun i item => call (i :: origin) f [item]) largest i best items := by
  induction items generalizing i best with
  | nil => rfl
  | cons item rest ih =>
    rw [bestKey, pass, keyOf]
    cases call (i :: origin) f [item] with
    | error stop => rfl
    | ok v =>
      show (match v.number? with
        | some x => _
        | none => _) = _
      cases hv : v.number? with
      | none => simp only [bind, Except.bind, hv, Outcome.fail]
      | some x =>
        simp only [bind, Except.bind, hv]
        exact ih (i + 1) _

theorem keyOf_eq_ok (key : Nat → Value → Outcome Value) {i : Nat} {item v : Value} {x : Float} (hv : key i item = .ok v)
    (hx : v.number? = some x) : keyOf key i item = .ok x := by
  simp only [keyOf, hv, bind, Except.bind, hx]
  rfl

theorem keyOf_eq_error (key : Nat → Value → Outcome Value) {i : Nat} {item v : Value} (hv : key i item = .ok v)
    (hnone : v.number? = none) : keyOf key i item = Outcome.fail (.keyNotNumber v.text) := by
  simp only [keyOf, hv, bind, Except.bind, hnone]

/-- What the best item by a key is, alone in a list, if the key gives numbers; otherwise there is an error. The key is
    called on each item with the item's index. -/
structure PicksByKey (largest : Bool) (key : Nat → Value → Outcome Value) (items : List Value) (place : Span)
    (outcome : Outcome Value) : Prop where
  /-- If the keys are numbers it is the first item whose key no other one beats. -/
  best : ∀ scores, List.Forall₂ (fun p x => (∃ v, key p.2 p.1 = .ok v ∧ v.number? = some x) ∧ x.isNaN = false)
      items.zipIdx scores → items ≠ [] →
    ∃ i item, FirstBest largest scores i ∧ items[i]? = some item ∧ outcome = .ok (.list [item])
  empty : items = [] → outcome = .ok (.list [])
  /-- The first key that is no number is refused. -/
  notNumber : ∀ before item after v, items = before ++ item :: after →
    (∀ p ∈ before.zipIdx, ∃ w, key p.2 p.1 = .ok w ∧ w.number?.isSome = true) →
    key before.length item = .ok v → v.number? = none → outcome = Outcome.failAt (.keyNotNumber v.text) place
  /-- If any of the keys is no number there is an error, that one or an earlier one. -/
  fails : (∃ p ∈ items.zipIdx, ∃ v, key p.2 p.1 = .ok v ∧ v.number? = none) → ∃ stop, outcome = .error stop

theorem extremeBy_picks (call : Caller) (origin : Origin) (f : Value) (largest : Bool) (items : List Value)
    (place : Span) : PicksByKey largest (fun i item => call (i :: origin) f [item]) items place
      ((extremeBy call origin f largest items).orAt place) := by
  rw [extremeBy, bestKey_eq_pass]
  generalize (fun (i : Nat) item => call (i :: origin) f [item]) = key
  refine ⟨fun scores scored nonempty => ?_, ?_, ?_, ?_⟩
  · have numbers := scored.imp fun p x h => by
      obtain ⟨⟨v, hv, hx⟩, number⟩ := h
      exact And.intro (keyOf_eq_ok key hv hx) number
    obtain ⟨i, item, x, hfirst, hitem, hpass⟩ := pass_best (keyOf key) largest nonempty numbers
    refine ⟨i, item, hfirst, hitem, ?_⟩
    rw [hpass]
    rfl
  · rintro rfl
    rfl
  · rintro before item after v rfl numbers hv hnone
    have scored : ∀ p ∈ before.zipIdx, ∃ x, keyOf key p.2 p.1 = .ok x := by
      intro p hp
      obtain ⟨w, hw, hsome⟩ := numbers p hp
      obtain ⟨x, hx⟩ := Option.isSome_iff_exists.mp hsome
      exact ⟨x, keyOf_eq_ok key hw hx⟩
    rw [← Nat.zero_add before.length] at hv
    rw [pass_error (keyOf key) largest scored (keyOf_eq_error key hv hnone)]
    rfl
  · rintro ⟨p, hp, v, hv, hnone⟩
    obtain ⟨stop, hpass⟩ : ∃ stop, pass (keyOf key) largest 0 none items = .error stop :=
      pass_fails (keyOf key) largest ⟨p, hp, _, keyOf_eq_error key hv hnone⟩
    rw [hpass]
    cases stop with
    | failure failure => exact ⟨_, rfl⟩
    | tooDeep => exact ⟨_, rfl⟩

end ListMethod

namespace Expr

open ListMethod

variable {host : Host} {depth : Nat} {scope : Scope} {origin : Origin} {receiver : Expr} {v : Value}
  {items : List Value}

/-- In any expression that gives a list or a tuple, the methods pick the first of the best items by the items' own
    numbers, or by what a key gives on each of them. -/
theorem evaluate_extreme (hv : receiver.evaluate (host.caller (depth + 1)) scope (0 :: 0 :: origin) = .ok v)
    (hitems : v.items? = some items) (largest : Bool) (name member place : Span) :
    PicksNumber largest items place ((send receiver (if largest then .max else .min) [] name member place).evaluate
        (host.caller (depth + 1)) scope origin) ∧
      ∀ key f, key.evaluate (host.caller (depth + 1)) scope (2 :: origin) = .ok f →
        PicksByKey largest (fun i item => host.caller depth (i :: 1 :: origin) f [item]) items place
          ((send receiver (if largest then .maxby else .minby) [key] name member place).evaluate
            (host.caller (depth + 1)) scope origin) := by
  constructor
  · have run : (if largest then ListMethod.max else .min).run (host.caller depth) (1 :: origin) items .null =
        .ofCause (extreme largest items) := by
      cases largest <;> rfl
    have arguments : evaluateAll (host.caller (depth + 1)) scope origin 2 [] = .ok [] := rfl
    rw [evaluate_send hv hitems arguments (by cases largest <;> rfl), List.headD_nil, run]
    exact extreme_picks largest items place
  · intro key f hf
    have arguments : evaluateAll (host.caller (depth + 1)) scope origin 2 [key] = .ok [f] := by
      rw [evaluateAll, hf]
      rfl
    have run : (if largest then ListMethod.maxby else .minby).run (host.caller depth) (1 :: origin) items f =
        extremeBy (host.caller depth) (1 :: origin) f largest items := by
      cases largest <;> rfl
    rw [evaluate_send hv hitems arguments (by cases largest <;> rfl), List.headD_cons, run]
    exact extremeBy_picks (host.caller depth) (1 :: origin) f largest items place

/-- Of an integer and a float that are equal the first one is picked, as what it is. -/
theorem evaluate_extreme_of_equals :
    (∃ i item, FirstBest true [2, 3, 3, 1] i ∧
      [Value.integer 2, .float 3, .integer 3, .integer 1][i]? = some item ∧
      (send (.name "x" default) .max [] default default default).evaluate (Host.none.caller 2)
        (Scope.root [] [("x", .list [.integer 2, .float 3, .integer 3, .integer 1])]) [] = .ok item) ∧
    ∃ i item, FirstBest false [2, 1, 1] i ∧ [Value.integer (-2), .float (-1), .integer 1][i]? = some item ∧
      (send (.name "x" default) .minby [.name "abs" default] default default default).evaluate (Host.none.caller 2)
        (Scope.root [("abs", .function (.builtin .abs))] [("x", .tuple [.integer (-2), .float (-1), .integer 1])]) [] =
          .ok (.list [item]) := by
  constructor
  · have picks := (@evaluate_extreme Host.none 1
      (Scope.root [] [("x", .list [.integer 2, .float 3, .integer 3, .integer 1])]) [] (.name "x" default)
      (.list [.integer 2, .float 3, .integer 3, .integer 1]) _ rfl rfl true default default default).1
    exact picks.best [2, 3, 3, 1] (.cons ⟨rfl, rfl⟩ (.cons ⟨rfl, rfl⟩ (.cons ⟨rfl, rfl⟩ (.cons ⟨rfl, rfl⟩ .nil))))
      nofun
  · have picks := (@evaluate_extreme Host.none 1
      (Scope.root [("abs", .function (.builtin .abs))] [("x", .tuple [.integer (-2), .float (-1), .integer 1])]) []
      (.name "x" default) (.tuple [.integer (-2), .float (-1), .integer 1]) _ rfl rfl false default default default).2
      (.name "abs" default) (.function (.builtin .abs)) rfl
    exact picks.best [2, 1, 1] (.cons ⟨⟨.integer 2, by cbv, rfl⟩, rfl⟩ (.cons ⟨⟨.float 1, rfl, rfl⟩, rfl⟩
      (.cons ⟨⟨.integer 1, by cbv, rfl⟩, rfl⟩ .nil))) nofun

end Expr

end RecordStats
