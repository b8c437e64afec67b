import RecordStats.Json.Basic
import RecordStats.Kinematics.Vector

/-! Values as JSON documents and back. Nothing is lost of values that a document has a form of its own for: all but
    tuples, functions and the floats that are not finite. An integer is an integer again and a float is a float, also
    one without a fraction, and documents whose floats are finite are what they were. Where fields are lost, a record
    is a Lorentz vector as before as long as no number is. -/

namespace RecordStats

open Kinematics (Vector)

/-- The values that documents have a form of their own for. -/
inductive Value.IsDocument : Value → Prop
  | null : IsDocument null
  | boolean (b : Bool) : IsDocument (boolean b)
  | integer (n : Int64) : IsDocument (integer n)
  | float {x : Float} (finite : x.isFinite = true) : IsDocument (float x)
  | string (s : String) : IsDocument (string s)
  | list {items : List Value} (documents : ∀ v ∈ items, IsDocument v) : IsDocument (list items)
  | record {fields : List (String × Value)} (documents : ∀ p ∈ fields, IsDocument p.2) : IsDocument (record fields)

/-- The documents in which every float is finite. -/
inductive Json.IsFinite : Json → Prop
  | null : IsFinite null
  | boolean (b : Bool) : IsFinite (boolean b)
  | integer (n : Int64) : IsFinite (integer n)
  | float {x : Float} (finite : x.isFinite = true) : IsFinite (float x)
  | string (s : String) : IsFinite (string s)
  | array {items : List Json} (finite : ∀ j ∈ items, IsFinite j) : IsFinite (array items)
  | object {members : List (String × Json)} (finite : ∀ p ∈ members, IsFinite p.2) : IsFinite (object members)

namespace Json

/-- The form of a double: a number if it is finite, and otherwise a word. -/
theorem ofDouble_cases (x : Float) :
    x.isFinite = true ∧ ofDouble x = float x ∨ ¬ x.isFinite = true ∧ ∃ s, ofDouble x = string s := by
  by_cases finite : x.isFinite = true
  · exact .inl ⟨finite, if_pos finite⟩
  · refine .inr ⟨finite, ?_⟩
    rw [ofDouble, if_neg finite]
    split
    · exact ⟨_, rfl⟩
    · split
      · exact ⟨_, rfl⟩
      · exact ⟨_, rfl⟩

theorem ofDouble_eq_float_iff {x : Float} : ofDouble x = float x ↔ x.isFinite = true := by
  rcases ofDouble_cases x with ⟨finite, hx⟩ | ⟨infinite, s, hx⟩
  · exact iff_of_true hx finite
  · rw [hx]
    exact iff_of_false (fun h => by cases h) infinite

end Json

namespace Value

theorem isDocument_list {items : List Value} : (list items).IsDocument ↔ ∀ v ∈ items, v.IsDocument := by
  refine ⟨fun h => ?_, .list⟩
  cases h with
  | list documents => exact documents

theorem isDocument_record {fields : List (String × Value)} :
    (record fields).IsDocument ↔ ∀ p ∈ fields, p.2.IsDocument := by
  refine ⟨fun h => ?_, .record⟩
  cases h with
  | record documents => exact documents

theorem isDocument_float {x : Float} : (float x).IsDocument ↔ x.isFinite = true := by
  refine ⟨fun h => ?_, .float⟩
  cases h with
  | float finite => exact finite

theorem ofJson_ofDouble_iff {x : Float} : ofJson (.ofDouble x) = float x ↔ x.isFinite = true := by
  rcases Json.ofDouble_cases x with ⟨finite, hx⟩ | ⟨infinite, s, hx⟩
  · rw [hx, ofJson]
    exact iff_of_true rfl finite
  · rw [hx, ofJson]
    exact iff_of_false (fun h => by cases h) infinite

mutual

/-- A value comes back from its document if documents have a form for it, and only then. -/
theorem ofJson_toJson_iff : ∀ {v : Value}, ofJson v.toJson = v ↔ v.IsDocument
  | .null => iff_of_true rfl .null
  | .boolean b => iff_of_true rfl (.boolean b)
  | .integer n => iff_of_true rfl (.integer n)
  | .float x => by rw [toJson, ofJson_ofDouble_iff, isDocument_float]
  | .string s => iff_of_true rfl (.string s)
  | .list items => by rw [toJson, ofJson, list.injEq, itemsOfJson_itemsToJson_iff, isDocument_list]
  | .tuple items => by
    rw [toJson, ofJson]
    exact iff_of_false (fun h => by cases h) (fun h => by cases h)
  | .record fields => by rw [toJson, ofJson, record.injEq, fieldsOfJson_fieldsToJson_iff, isDocument_record]
  | .function f => by
    rw [toJson, ofJson]
    exact iff_of_false (fun h => by cases h) (fun h => by cases h)

theorem itemsOfJson_itemsToJson_iff : ∀ {items : List Value},
    itemsOfJson (itemsToJson items) = items ↔ ∀ v ∈ items, v.IsDocument
  | [] => iff_of_true rfl (List.forall_mem_nil _)
  | v :: rest => by
    rw [itemsToJson, itemsOfJson, List.cons.injEq, ofJson_toJson_iff, itemsOfJson_itemsToJson_iff, List.forall_mem_cons]

theorem fieldsOfJson_fieldsToJson_iff : ∀ {fields : List (String × Value)},
    fieldsOfJson (fieldsToJson fields) = fields ↔ ∀ p ∈ fields, p.2.IsDocument
  | [] => iff_of_true rfl (List.forall_mem_nil _)
  | (name, v) :: rest => by
    rw [fieldsToJson, fieldsOfJson, List.cons.injEq, Prod.mk.injEq, ofJson_toJson_iff, fieldsOfJson_fieldsToJson_iff,
      List.forall_mem_cons, and_iff_right rfl]

end

end Value

namespace Json

open Value (ofJson itemsOfJson fieldsOfJson itemsToJson fieldsToJson)

theorem isFinite_array {items : List Json} : (array items).IsFinite ↔ ∀ j ∈ items, j.IsFinite := by
  refine ⟨fun h => ?_, .array⟩
  cases h with
  | array finite => exact finite

theorem isFinite_object {members : List (String × Json)} : (object members).IsFinite ↔ ∀ p ∈ members, p.2.IsFinite := by
  refine ⟨fun h => ?_, .object⟩
  cases h with
  | object finite => exact finite

theorem isFinite_float {x : Float} : (float x).IsFinite ↔ x.isFinite = true := by
  refine ⟨fun h => ?_, .float⟩
  cases h with
  | float finite => exact finite

mutual

/-- A document comes back from its value if its floats are finite, and only then. -/
theorem toJson_ofJson_iff : ∀ {j : Json}, (ofJson j).toJson = j ↔ j.IsFinite
  | .null => iff_of_true rfl .null
  | .boolean b => iff_of_true rfl (.boolean b)
  | .integer n => iff_of_true rfl (.integer n)
  | .float x => by rw [ofJson, Value.toJson, ofDouble_eq_float_iff, isFinite_float]
  | .string s => iff_of_true rfl (.string s)
  | .array items => by rw [ofJson, Value.toJson, array.injEq, itemsToJson_itemsOfJson_iff, isFinite_array]
  | .object members => by rw [ofJson, Value.toJson, object.injEq, fieldsToJson_fieldsOfJson_iff, isFinite_object]

theorem itemsToJson_itemsOfJson_iff : ∀ {items : List Json},
    itemsToJson (itemsOfJson items) = items ↔ ∀ j ∈ items, j.IsFinite
  | [] => iff_of_true rfl (List.forall_mem_nil _)
  | j :: rest => by
    rw [itemsOfJson, itemsToJson, List.cons.injEq, toJson_ofJson_iff, itemsToJson_itemsOfJson_iff, List.forall_mem_cons]

theorem fieldsToJson_fieldsOfJson_iff : ∀ {members : List (String × Json)},
    fieldsToJson (fieldsOfJson members) = members ↔ ∀ p ∈ members, p.2.IsFinite
  | [] => iff_of_true rfl (List.forall_mem_nil _)
  | (name, j) :: rest => by
    rw [fieldsOfJson, fieldsToJson, List.cons.injEq, Prod.mk.injEq, toJson_ofJson_iff, fieldsToJson_fieldsOfJson_iff,
      List.forall_mem_cons, and_iff_right rfl]

end

end Json

namespace Value

/-! ### Lorentz vectors -/

theorem get?_fieldsOfJson (fields : List (String × Value)) (name : String) :
    Dict.get? (fieldsOfJson (fieldsToJson fields)) name = (Dict.get? fields name).map fun v => ofJson v.toJson := by
  induction fields with
  | nil => rfl
  | cons p rest ih =>
    obtain ⟨n, v⟩ := p
    rw [fieldsToJson, fieldsOfJson, Dict.get?_cons, Dict.get?_cons, ih]
    split
    · rfl
    · rfl

/-- What is a number stays this number, unless it is not finite, and nothing else becomes one. -/
theorem number?_ofJson {v : Value} (finite : ∀ x, v = float x → x.isFinite = true) :
    (ofJson v.toJson).number? = v.number? := by
  cases v with
  | float x => rw [toJson, ofJson_ofDouble_iff.mpr (finite x rfl)]
  | _ => rfl

/-- A record is the same Lorentz vector as before, or is none as before, if its own floats are finite. -/
theorem ofFields?_ofJson {fields : List (String × Value)}
    (finite : ∀ name x, (name, float x) ∈ fields → x.isFinite = true) :
    Vector.ofFields? (fieldsOfJson (fieldsToJson fields)) = Vector.ofFields? fields := by
  have number (name : String) : (Dict.get? (fieldsOfJson (fieldsToJson fields)) name).bind number? =
      (Dict.get? fields name).bind number? := by
    rw [get?_fieldsOfJson, Option.bind_map]
    cases hv : Dict.get? fields name with
    | none => rfl
    | some v =>
      refine number?_ofJson fun x hx => finite name x ?_
      rw [← hx]
      exact Dict.mem_of_get? hv
  simp only [Vector.ofFields?, number]

/-- The way to documents and back loses nothing exactly of the values that have a form there, nor the way from
    documents exactly of those whose floats are finite, and Lorentz vectors stay what they are. -/
theorem documents_lossless (v : Value) (j : Json) :
    (ofJson v.toJson = v ↔ v.IsDocument) ∧ ((ofJson j).toJson = j ↔ j.IsFinite) ∧
      ∀ fields, (∀ name x, (name, float x) ∈ fields → x.isFinite = true) →
        Vector.ofValue? (ofJson (record fields).toJson) = Vector.ofValue? (record fields) := by
  refine ⟨ofJson_toJson_iff, Json.toJson_ofJson_iff, fun fields finite => ?_⟩
  rw [toJson, ofJson]
  exact ofFields?_ofJson finite

/-- A particle with numbers of both kinds, one of them a negative zero. -/
theorem documents_lossless_particle :
    ofJson (record [("energy", integer 5), ("px", float (-0)), ("py", float 3), ("pz", float 0.5)]).toJson =
        record [("energy", integer 5), ("px", float (-0)), ("py", float 3), ("pz", float 0.5)] ∧
      Vector.ofValue? (ofJson (record [("energy", integer 5), ("px", float (-0)), ("py", float 3),
        ("pz", float 0.5)]).toJson) =
          some ⟨.cartesian (-0) 3 0.5, .energy 5⟩ := by
  have lossless := documents_lossless (record [("energy", integer 5), ("px", float (-0)), ("py", float 3),
    ("pz", float 0.5)]) .null
  constructor
  · refine lossless.1.mpr (.record fun p hp => ?_)
    simp only [List.mem_cons, List.not_mem_nil, or_false] at hp
    rcases hp with rfl | rfl | rfl | rfl
    · exact .integer 5
    · exact .float rfl
    · exact .float rfl
    · exact .float rfl
  · rw [lossless.2.2 _ fun name x hx => ?_]
    · rfl
    · simp only [List.mem_cons, List.not_mem_nil, or_false, Prod.mk.injEq, float.injEq, reduceCtorEq, and_false,
        false_or] at hx
      rcases hx with ⟨-, rfl⟩ | ⟨-, rfl⟩ | ⟨-, rfl⟩
      · rfl
      · rfl
      · rfl

end Value

end RecordStats
