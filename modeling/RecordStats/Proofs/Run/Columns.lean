import RecordStats.Run

/-! Columns of data as records. Columns whose data are sequences of one length are one record an index; other data
    are one record as they are; and columns of functions alone are no record. -/

namespace RecordStats

/-- There are data among some columns, and all of them are sequences of one length. -/
structure Aligned (columns : List (String × Value)) (n : Nat) : Prop where
  data : ∃ c ∈ columns, c.2.isFunction = false
  sequences : ∀ c ∈ columns, c.2.isFunction = false → ∃ items, c.2.items? = some items ∧ items.length = n

/-- The record of some columns at an index: the item of each sequence there, in the order of the columns, and then
    the functions. -/
def recordAt (columns : List (String × Value)) (i : Nat) : List (String × Value) :=
  (columns.filterMap fun c => (c.2.items?.bind fun items => items[i]?).map fun v => (c.1, v)) ++
    columns.filter fun c => c.2.isFunction

/-- A list has as many records as items. -/
theorem Aligned.list (name : String) (items : List Value) : Aligned [(name, .list items)] items.length where
  data := ⟨_, List.mem_singleton_self _, rfl⟩
  sequences := List.forall_mem_singleton.mpr fun _ => ⟨items, rfl, rfl⟩

namespace Value

theorem items?_of_isFunction {v : Value} (h : v.isFunction = true) : v.items? = none := by
  unfold isFunction at h
  split at h
  · rfl
  · cases h

end Value

/-- The names in a record are those of the data and then those of the functions. -/
theorem recordAt_names {columns : List (String × Value)} {n i : Nat} (h : Aligned columns n) (hi : i < n) :
    (recordAt columns i).map Prod.fst =
      (columns.filter fun c => !c.2.isFunction).map Prod.fst ++ (columns.filter fun c => c.2.isFunction).map Prod.fst := by
  rw [recordAt, List.map_append]
  congr 1
  obtain ⟨-, sequences⟩ := h
  induction columns with
  | nil => rfl
  | cons c rest ih =>
    obtain ⟨first, others⟩ := List.forall_mem_cons.mp sequences
    cases hc : c.2.isFunction with
    | true => simpa [hc, Value.items?_of_isFunction hc] using ih others
    | false =>
      obtain ⟨items, hitems, rfl⟩ := first hc
      simpa [hc, hitems, List.getElem?_eq_getElem hi] using ih others

/-! ### Rows -/

/-- Each row holds the items at its index. -/
theorem rows_eq_range (n : Nat) (columns : List (String × List Value)) :
    rows n columns = (List.range n).map fun i => columns.filterMap fun c => c.2[i]?.map fun v => (c.1, v) := by
  induction n generalizing columns with
  | zero => rfl
  | succ n ih =>
    rw [rows, ih, List.range_succ_eq_map, List.map_cons, List.map_map]
    congr 1
    · congr 1
      funext c
      rw [List.head?_eq_getElem?]
    · refine List.map_congr_left fun i _ => ?_
      rw [List.filterMap_map]
      show _ = columns.filterMap fun c => c.2[i + 1]?.map fun v => (c.1, v)
      congr 1
      funext c
      show c.2.tail[i]?.map _ = _
      rw [List.getElem?_tail]

/-- Choices that have to succeed on every item succeed together. -/
theorem mapM_eq_some_iff {α β : Type} {f : α → Option β} {l : List α} {r : List β} :
    l.mapM f = some r ↔ (∀ a ∈ l, (f a).isSome) ∧ l.filterMap f = r := by
  induction l generalizing r with
  | nil => simp
  | cons a rest ih =>
    cases ha : f a with
    | none => simp [List.mapM_cons, ha]
    | some b =>
      cases hrest : rest.mapM f with
      | none =>
        have missing : ¬ ∀ a ∈ rest, (f a).isSome := fun all => by
          cases hrest.symm.trans (ih.mpr ⟨all, rfl⟩)
        simp [List.mapM_cons, ha, hrest, missing]
      | some others =>
        obtain ⟨all, rfl⟩ := ih.mp hrest
        simp only [List.mapM_cons, ha, hrest, List.filterMap_cons, List.forall_mem_cons]
        exact ⟨fun h => ⟨⟨rfl, all⟩, Option.some.inj h⟩, fun h => congrArg some h.2⟩

namespace Plan

variable {columns : List (String × Value)} {n : Nat}

/-- The sequences among some data, as they are taken apart into records. -/
def sequenceOf (c : String × Value) : Option (String × List Value) := c.2.items?.map fun items => (c.1, items)

theorem ofColumns_eq (columns : List (String × Value)) :
    ofColumns columns =
      if (columns.filter fun c => !c.2.isFunction).isEmpty then .empty
      else match (columns.filter fun c => !c.2.isFunction).mapM sequenceOf with
        | some sequences =>
          if sequences.all fun s => s.2.length == (sequences.head?.map fun s => s.2.length).getD 0 then
            .batch ((rows ((sequences.head?.map fun s => s.2.length).getD 0) sequences).map
              fun row => row ++ columns.filter fun c => c.2.isFunction)
          else .single columns
        | none => .single columns := rfl

theorem ofColumns_of_functions (h : ∀ c ∈ columns, c.2.isFunction = true) : ofColumns columns = .empty := by
  have none : (columns.filter fun c => !c.2.isFunction) = [] := by
    simpa using h
  rw [ofColumns_eq, none]
  rfl

/-- What is left of aligned columns at an index does not depend on how the sequences have been gathered. -/
theorem recordAt_eq (columns : List (String × Value)) (i : Nat) :
    (((columns.filter fun c => !c.2.isFunction).filterMap sequenceOf).filterMap fun c =>
      c.2[i]?.map fun v => (c.1, v)) ++ columns.filter (fun c => c.2.isFunction) = recordAt columns i := by
  rw [recordAt, List.filterMap_filterMap, List.filterMap_filter]
  congr 2
  funext c
  cases hc : c.2.isFunction with
  | true => simp [Value.items?_of_isFunction hc]
  | false => cases hitems : c.2.items? <;> simp [sequenceOf, hitems]

theorem ofColumns_of_aligned (h : Aligned columns n) :
    ofColumns columns = .batch ((List.range n).map (recordAt columns)) := by
  obtain ⟨first, hfirst, hdata⟩ := h.data
  have lengths : ∀ c ∈ columns.filter (fun c => !c.2.isFunction), ∃ items, sequenceOf c = some (c.1, items) ∧
      items.length = n := by
    intro c hc
    obtain ⟨hmem, hplain⟩ := List.mem_filter.mp hc
    obtain ⟨items, hitems, hlength⟩ := h.sequences c hmem (by simpa using hplain)
    exact ⟨items, by rw [sequenceOf, hitems]; rfl, hlength⟩
  have mem : first ∈ columns.filter fun c => !c.2.isFunction := List.mem_filter.mpr ⟨hfirst, by simp [hdata]⟩
  have same : ∀ s ∈ (columns.filter fun c => !c.2.isFunction).filterMap sequenceOf, s.2.length = n := by
    intro s hs
    obtain ⟨c, hc, hcs⟩ := List.mem_filterMap.mp hs
    obtain ⟨items, hitems, hlength⟩ := lengths c hc
    cases hitems.symm.trans hcs
    exact hlength
  -- The first column gives the number of records, and all columns have it.
  have head : (((columns.filter fun c => !c.2.isFunction).filterMap sequenceOf).head?.map fun s =>
      s.2.length).getD 0 = n := by
    obtain ⟨items, hitems, -⟩ := lengths first mem
    have found := List.mem_filterMap.mpr ⟨first, mem, hitems⟩
    cases hseq : (columns.filter fun c => !c.2.isFunction).filterMap sequenceOf with
    | nil =>
      rw [hseq] at found
      cases found
    | cons s rest => exact same s (hseq ▸ List.mem_cons_self)
  have gathered : (columns.filter fun c => !c.2.isFunction).mapM sequenceOf =
      some ((columns.filter fun c => !c.2.isFunction).filterMap sequenceOf) := by
    refine mapM_eq_some_iff.mpr ⟨fun c hc => ?_, rfl⟩
    obtain ⟨items, hitems, -⟩ := lengths c hc
    rw [hitems]
    rfl
  rw [ofColumns_eq, if_neg (by simpa using List.ne_nil_of_mem mem), gathered]
  simp only [head]
  rw [if_pos (List.all_eq_true.mpr fun s hs => beq_iff_eq.mpr (same s hs)), rows_eq_range, List.map_map]
  congr 1
  exact List.map_congr_left fun i _ => recordAt_eq columns i

/-- Data that are not sequences of one length are one record as they are. -/
theorem ofColumns_of_not_aligned (hdata : ∃ c ∈ columns, c.2.isFunction = false) (h : ∀ n, ¬ Aligned columns n) :
    ofColumns columns = .single columns := by
  obtain ⟨first, hfirst, hplain⟩ := hdata
  have mem : first ∈ columns.filter fun c => !c.2.isFunction := List.mem_filter.mpr ⟨hfirst, by simp [hplain]⟩
  rw [ofColumns_eq, if_neg (by simpa using List.ne_nil_of_mem mem)]
  split
  · next sequences hsequences =>
    obtain ⟨all, rfl⟩ := mapM_eq_some_iff.mp hsequences
    generalize ((columns.filter fun c => !c.2.isFunction).filterMap sequenceOf).head? = head
    refine if_neg fun same => h ((head.map fun s => s.2.length).getD 0)
      ⟨⟨first, hfirst, hplain⟩, fun c hc hcplain => ?_⟩
    have hcmem : c ∈ columns.filter fun c => !c.2.isFunction := List.mem_filter.mpr ⟨hc, by simp [hcplain]⟩
    obtain ⟨s, hs⟩ := Option.isSome_iff_exists.mp (all c hcmem)
    obtain ⟨items, hitems, rfl⟩ := Option.map_eq_some_iff.mp hs
    have hlength := List.all_eq_true.mp same _ (List.mem_filterMap.mpr ⟨c, hcmem, hs⟩)
    exact ⟨items, hitems, eq_of_beq hlength⟩
  · rfl

end Plan
end RecordStats
