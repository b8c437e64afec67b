/-!
Dictionaries: values by name, as lists of pairs in the order of the names. An operation that is given
such a list gives such a list, so two dictionaries with the same look-ups are the same list.
-/

namespace RecordStats

/-- Values of type `α` by name, in the order of the names. -/
abbrev Dict (α : Type) := List (String × α)

namespace Dict

variable {α β : Type}

def get? (d : Dict α) (name : String) : Option α :=
  match d with
  | [] => none
  | (n, a) :: rest => if n = name then some a else get? rest name

def has (d : Dict α) (name : String) : Bool :=
  (d.get? name).isSome

def insert (d : Dict α) (name : String) (a : α) : Dict α :=
  match d with
  | [] => [(name, a)]
  | (n, b) :: rest =>
    if n = name then (name, a) :: rest
    else if name < n then (name, a) :: (n, b) :: rest
    else (n, b) :: insert rest name a

def erase (d : Dict α) (name : String) : Dict α :=
  d.filter fun p => p.1 ≠ name

/-- Changes a name's value, if it has one. -/
def modify (d : Dict α) (name : String) (f : α → α) : Dict α :=
  d.map fun p => if p.1 = name then (p.1, f p.2) else p

/-- The values of both; those of `upper` hide those of `d`. -/
def union (d upper : Dict α) : Dict α :=
  upper.foldl (fun d p => d.insert p.1 p.2) d

/-- The dictionary of some pairs; a later pair hides an earlier one. -/
def ofPairs (pairs : List (String × α)) : Dict α :=
  union [] pairs

def names (d : Dict α) : List String :=
  d.map Prod.fst

/-- Whether the names are in order and all different. -/
def Sorted (d : Dict α) : Prop :=
  d.Pairwise fun p q => p.1 < q.1

/-! ### Look-ups -/

@[simp] theorem get?_nil (name : String) : get? ([] : Dict α) name = none := rfl

theorem get?_cons (n : String) (a : α) (rest : Dict α) (name : String) :
    get? ((n, a) :: rest) name = if n = name then some a else get? rest name := rfl

theorem get?_insert (d : Dict α) (name other : String) (a : α) :
    (d.insert name a).get? other = if name = other then some a else d.get? other := by
  induction d with
  | nil => simp [insert, get?_cons]
  | cons p rest ih =>
    obtain ⟨n, b⟩ := p
    unfold insert
    split
    · next h => subst h; simp only [get?_cons]; split <;> rfl
    · split
      · simp only [get?_cons]
      · next h _ =>
        simp only [get?_cons, ih]
        split
        · next hn => rw [if_neg]; rintro rfl; exact h hn
        · rfl

/-- A choice of pairs by their names keeps or drops all values of a name. -/
theorem get?_filter (d : Dict α) (keep : String → Bool) (name : String) :
    get? (d.filter fun p => keep p.1) name = if keep name then d.get? name else none := by
  induction d with
  | nil => simp
  | cons p rest ih =>
    obtain ⟨n, a⟩ := p
    by_cases hn : n = name
    · subst hn
      cases hk : keep n <;> simp [hk, get?_cons, ih]
    · cases hk : keep n <;> simp [hk, hn, get?_cons, ih]

theorem get?_erase (d : Dict α) (name other : String) :
    (d.erase name).get? other = if name = other then none else d.get? other := by
  rw [erase, get?_filter d (fun n => n ≠ name) other]
  by_cases h : name = other <;> simp [h, eq_comm]

theorem mem_of_get? {d : Dict α} {name : String} {a : α} (h : d.get? name = some a) : (name, a) ∈ d := by
  induction d with
  | nil => cases h
  | cons p rest ih =>
    obtain ⟨n, b⟩ := p
    rw [get?_cons] at h
    split at h
    · next hn =>
      cases h
      rw [hn]
      exact List.mem_cons_self
    · exact List.mem_cons_of_mem _ (ih h)

theorem mem_insert {d : Dict α} {name : String} {a : α} {p : String × α} (h : p ∈ d.insert name a) :
    p = (name, a) ∨ p ∈ d := by
  induction d with
  | nil => exact Or.inl (List.mem_singleton.mp h)
  | cons q rest ih =>
    obtain ⟨n, b⟩ := q
    unfold insert at h
    split at h
    · rcases List.mem_cons.mp h with h | h
      · exact Or.inl h
      · exact Or.inr (List.mem_cons_of_mem _ h)
    · split at h
      · rcases List.mem_cons.mp h with h | h
        · exact Or.inl h
        · exact Or.inr h
      · rcases List.mem_cons.mp h with rfl | h
        · exact Or.inr List.mem_cons_self
        · rcases ih h with h | h
          · exact Or.inl h
          · exact Or.inr (List.mem_cons_of_mem _ h)

/-! ### Order -/

theorem sorted_nil : Sorted ([] : Dict α) := List.Pairwise.nil

theorem sorted_insert {d : Dict α} (h : d.Sorted) (name : String) (a : α) : (d.insert name a).Sorted := by
  induction d with
  | nil => exact List.pairwise_singleton _ _
  | cons q rest ih =>
    obtain ⟨n, b⟩ := q
    obtain ⟨first, others⟩ := List.pairwise_cons.mp h
    unfold insert
    split
    · next hn =>
      subst hn
      exact List.pairwise_cons.mpr ⟨first, others⟩
    · split
      · next hlt =>
        refine List.pairwise_cons.mpr ⟨fun p hp => ?_, h⟩
        rcases List.mem_cons.mp hp with rfl | hp
        · exact hlt
        · exact String.lt_trans hlt (first p hp)
      · next hne hnlt =>
        have hlt : n < name := by
          refine String.not_le.mp fun hle => hne ?_
          exact String.le_antisymm (String.not_lt.mp hnlt) hle
        refine List.pairwise_cons.mpr ⟨fun p hp => ?_, ih others⟩
        rcases mem_insert hp with rfl | hp
        · exact hlt
        · exact first p hp

theorem sorted_union {d : Dict α} (h : d.Sorted) (upper : Dict α) : (d.union upper).Sorted := by
  unfold union
  induction upper generalizing d with
  | nil => exact h
  | cons p rest ih => exact ih (sorted_insert h p.1 p.2)

/-- In a sorted dictionary every pair is found under its name. -/
theorem get?_of_mem {d : Dict α} (h : d.Sorted) {name : String} {a : α} (hm : (name, a) ∈ d) :
    d.get? name = some a := by
  induction d with
  | nil => cases hm
  | cons q rest ih =>
    obtain ⟨n, b⟩ := q
    obtain ⟨first, others⟩ := List.pairwise_cons.mp h
    rw [get?_cons]
    rcases List.mem_cons.mp hm with heq | hm
    · cases heq
      rw [if_pos rfl]
    · have hlt : n < name := first _ hm
      rw [if_neg (String.ne_of_lt hlt)]
      exact ih others hm

/-- In a sorted dictionary no name stands below the first one. -/
theorem get?_of_lt {n : String} {a : α} {rest : Dict α} (h : Sorted ((n, a) :: rest)) : rest.get? n = none := by
  cases hget : rest.get? n with
  | none => rfl
  | some b =>
    have hlt : n < n := (List.pairwise_cons.mp h).1 _ (mem_of_get? hget)
    exact absurd hlt (String.lt_irrefl n)

/-- The upper values hide the ones below them. -/
theorem get?_union {upper : Dict α} (h : upper.Sorted) (d : Dict α) (name : String) :
    (d.union upper).get? name = (upper.get? name).or (d.get? name) := by
  unfold union
  induction upper generalizing d with
  | nil => rfl
  | cons p rest ih =>
    obtain ⟨n, a⟩ := p
    rw [List.foldl_cons, ih (List.pairwise_cons.mp h).2, get?_insert, get?_cons]
    split
    · next heq =>
      subst heq
      rw [get?_of_lt h]
      rfl
    · rfl

/-- The order is one of the names alone. -/
theorem sorted_iff_names (d : Dict α) : d.Sorted ↔ d.names.Pairwise (· < ·) := by
  rw [names, List.pairwise_map]
  rfl

/-- Two sorted dictionaries with the same look-ups are the same. -/
theorem eq_of_get? {d e : Dict α} (hd : d.Sorted) (he : e.Sorted) (h : ∀ name, d.get? name = e.get? name) : d = e := by
  induction d generalizing e with
  | nil =>
    cases e with
    | nil => rfl
    | cons q rest =>
      have first := h q.1
      rw [get?_cons, if_pos rfl] at first
      cases first
  | cons p rest ih =>
    obtain ⟨n, a⟩ := p
    have found : e.get? n = some a := by rw [← h n, get?_cons, if_pos rfl]
    cases e with
    | nil => cases found
    | cons q others =>
      obtain ⟨m, b⟩ := q
      -- Neither first name stands below the other, as each is found in both.
      have same : m = n := by
        have other : get? ((n, a) :: rest) m = some b := by rw [h m, get?_cons, if_pos rfl]
        rcases List.mem_cons.mp (mem_of_get? found) with heq | hn
        · exact (congrArg Prod.fst heq).symm
        · rcases List.mem_cons.mp (mem_of_get? other) with heq | hm
          · exact congrArg Prod.fst heq
          · have above : n < m := (List.pairwise_cons.mp hd).1 _ hm
            have below : m < n := (List.pairwise_cons.mp he).1 _ hn
            exact absurd (String.lt_trans above below) (String.lt_irrefl n)
      subst same
      rw [get?_cons, if_pos rfl] at found
      cases found
      congr 1
      refine ih (List.pairwise_cons.mp hd).2 (List.pairwise_cons.mp he).2 fun name => ?_
      by_cases hname : m = name
      · subst hname
        rw [get?_of_lt hd, get?_of_lt he]
      · have later := h name
        rwa [get?_cons, get?_cons, if_neg hname, if_neg hname] at later

/-! ### Dictionaries without common names -/

/-- No name stands in both. -/
def Apart (d e : Dict α) : Prop :=
  ∀ name, d.get? name = none ∨ e.get? name = none

theorem Apart.symm {d e : Dict α} (h : Apart d e) : Apart e d := fun name => (h name).symm

/-- A dictionary is apart from a union when it is apart from both, whichever is the upper one. -/
theorem apart_union {d e upper : Dict α} (h : upper.Sorted) :
    Apart d (e.union upper) ↔ Apart d e ∧ Apart d upper := by
  have none_iff : ∀ name, (e.union upper).get? name = none ↔ e.get? name = none ∧ upper.get? name = none := by
    intro name
    rw [get?_union h]
    cases upper.get? name <;> simp
  constructor
  · intro hd
    refine ⟨fun name => ?_, fun name => ?_⟩
    · exact (hd name).imp id fun hn => ((none_iff name).mp hn).1
    · exact (hd name).imp id fun hn => ((none_iff name).mp hn).2
  · rintro ⟨he, hu⟩ name
    rcases he name with hn | hn
    · exact .inl hn
    · exact (hu name).imp id fun hn' => (none_iff name).mpr ⟨hn, hn'⟩

theorem union_apart {d lower upper : Dict α} (h : upper.Sorted) :
    Apart (lower.union upper) d ↔ Apart lower d ∧ Apart upper d :=
  ⟨fun hd => ((apart_union h).mp hd.symm).imp Apart.symm Apart.symm,
    fun hd => ((apart_union h).mpr ⟨hd.1.symm, hd.2.symm⟩).symm⟩

theorem union_assoc {d a b : Dict α} (hd : d.Sorted) (ha : a.Sorted) (hb : b.Sorted) :
    (d.union a).union b = d.union (a.union b) := by
  refine eq_of_get? (sorted_union (sorted_union hd a) b) (sorted_union hd _) fun name => ?_
  rw [get?_union hb, get?_union ha, get?_union (sorted_union ha b), get?_union hb]
  cases b.get? name <;> rfl

theorem union_comm {a b : Dict α} (ha : a.Sorted) (hb : b.Sorted) (h : Apart a b) : a.union b = b.union a := by
  refine eq_of_get? (sorted_union ha b) (sorted_union hb a) fun name => ?_
  rw [get?_union hb, get?_union ha]
  rcases h name with hn | hn
  · rw [hn, Option.or_none, Option.none_or]
  · rw [hn, Option.or_none, Option.none_or]

theorem nil_union {d : Dict α} (hd : d.Sorted) : union [] d = d := by
  refine eq_of_get? (sorted_union sorted_nil d) hd fun name => ?_
  rw [get?_union hd, get?_nil, Option.or_none]

/-- A new name is put among the others. -/
theorem insert_perm {d : Dict α} {name : String} (a : α) (h : d.get? name = none) :
    (d.insert name a).Perm ((name, a) :: d) := by
  induction d with
  | nil => exact .refl _
  | cons q rest ih =>
    obtain ⟨n, b⟩ := q
    rw [get?_cons] at h
    split at h
    · cases h
    · next hn =>
      rw [insert, if_neg hn]
      split
      · exact .refl _
      · exact ((ih h).cons _).trans (.swap _ _ _)

/-- The pairs of a union without common names. -/
theorem union_perm {upper : Dict α} (h : upper.Sorted) {d : Dict α} (apart : Apart d upper) :
    (d.union upper).Perm (upper ++ d) := by
  unfold union
  induction upper generalizing d with
  | nil => exact .refl _
  | cons p rest ih =>
    obtain ⟨n, a⟩ := p
    have fresh : d.get? n = none := (apart n).resolve_right (by rw [get?_cons, if_pos rfl]; exact nofun)
    have later : Apart (d.insert n a) rest := by
      intro name
      rw [get?_insert]
      split
      · next heq =>
        subst heq
        exact .inr (get?_of_lt h)
      · next hne => exact (apart name).imp id fun hn => by rwa [get?_cons, if_neg hne] at hn
    rw [List.foldl_cons]
    refine (ih (List.pairwise_cons.mp h).2 later).trans ?_
    exact ((insert_perm a fresh).append_left rest).trans List.perm_middle

end Dict

end RecordStats
