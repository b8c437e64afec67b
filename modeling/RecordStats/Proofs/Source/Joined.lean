import RecordStats.Proofs.Source.Places

/-! Joining spans. The join of two spans begins where the earlier one begins and ends where the later one ends. Which of
    two is taken at a tie matters only if they are not of one text: joining spans of one line table gives the smallest
    span of the table that encloses both. -/

namespace RecordStats.Span

/-! ### What a join encloses -/

theorem offset_first_join (s t : Span) : (s.join t).first.offset = min s.first.offset t.first.offset := by
  show Place.offset (if _ then _ else _) = _
  split <;> omega

theorem offset_last_join (s t : Span) : (s.join t).last.offset = max s.last.offset t.last.offset := by
  show Place.offset (if _ then _ else _) = _
  split <;> omega

theorem encloses_iff {s t : Span} :
    s.encloses t = true ↔ s.first.offset ≤ t.first.offset ∧ t.last.offset ≤ s.last.offset := by
  rw [encloses, Bool.and_eq_true, decide_eq_true_iff, decide_eq_true_iff]

theorem encloses_refl (s : Span) : s.encloses s = true :=
  encloses_iff.mpr ⟨Nat.le_refl _, Nat.le_refl _⟩

theorem encloses_trans {s t u : Span} (h : s.encloses t = true) (h' : t.encloses u = true) : s.encloses u = true := by
  rw [encloses_iff] at h h' ⊢
  exact ⟨Nat.le_trans h.1 h'.1, Nat.le_trans h'.2 h.2⟩

/-- What encloses a join is what encloses both parts. -/
theorem encloses_join_iff {s t v : Span} :
    v.encloses (s.join t) = true ↔ v.encloses s = true ∧ v.encloses t = true := by
  simp only [encloses_iff, offset_first_join, offset_last_join]
  omega

theorem encloses_join_left (s t : Span) : (s.join t).encloses s = true :=
  (encloses_join_iff.mp (encloses_refl _)).1

theorem encloses_join_right (s t : Span) : (s.join t).encloses t = true :=
  (encloses_join_iff.mp (encloses_refl _)).2

/-! ### The laws of joining -/

theorem join_self (s : Span) : s.join s = s := by
  simp [join]

theorem join_assoc (s t u : Span) : (s.join t).join u = s.join (t.join u) := by
  unfold join
  -- Each end by itself: at a tie the span that is named first wins, on either side.
  congr 1
  · grind
  · grind

/-- The order of two spans matters where they begin or end at one offset, but not at one place. -/
theorem join_comm_iff {s t : Span} : s.join t = t.join s ↔
    (s.first.offset = t.first.offset → s.first = t.first) ∧ (s.last.offset = t.last.offset → s.last = t.last) := by
  rw [join, join, mk.injEq]
  -- Each end by itself: away from a tie the offsets decide, whichever span is named first.
  refine and_congr ?_ ?_
  · grind
  · grind

example : (default : Span).join ((LineTable.ofChars []).span 0 0) ≠ ((LineTable.ofChars []).span 0 0).join default := by
  decide

namespace LocatedBy

variable {table : LineTable} {s t : Span}

theorem join_comm (hs : s.LocatedBy table) (ht : t.LocatedBy table) : s.join t = t.join s := by
  rw [join_comm_iff, hs.first, ht.first, hs.last, ht.last]
  exact ⟨fun h => congrArg table.locate h, fun h => congrArg table.locate h⟩

/-- Spans of a table that enclose each other are one. -/
theorem encloses_antisymm (hs : s.LocatedBy table) (ht : t.LocatedBy table) (h : s.encloses t = true)
    (h' : t.encloses s = true) : s = t := by
  rw [encloses_iff] at h h'
  rw [hs.places, ht.places, Nat.le_antisymm h.1 h'.1, Nat.le_antisymm h'.2 h.2]

end LocatedBy

/-- Of the spans of a table that enclose both `s` and `t`, `u` is the smallest. -/
structure Smallest (table : LineTable) (s t u : Span) : Prop where
  located : u.LocatedBy table
  encloses_left : u.encloses s = true
  encloses_right : u.encloses t = true
  least : ∀ v : Span, v.LocatedBy table → v.encloses s = true → v.encloses t = true →
    v.encloses u = true ∧ (u.encloses v = true → v = u)

theorem LocatedBy.smallest_join {table : LineTable} {s t : Span} (hs : s.LocatedBy table) (ht : t.LocatedBy table) :
    Smallest table s t (s.join t) where
  located := hs.join ht
  encloses_left := encloses_join_left s t
  encloses_right := encloses_join_right s t
  least v hv left right := by
    have outer := encloses_join_iff.mpr ⟨left, right⟩
    exact ⟨outer, fun inner => hv.encloses_antisymm (hs.join ht) outer inner⟩

/-! ### Spans between two offsets -/

/-- The span begins and ends between two offsets. -/
structure Inside (a b : Nat) (s : Span) : Prop where
  first_le : a ≤ s.first.offset
  ordered : s.first.offset ≤ s.last.offset
  last_le : s.last.offset ≤ b

theorem Inside.mono {a b a' b' : Nat} {s : Span} (h : s.Inside a b) (ha : a' ≤ a) (hb : b ≤ b') : s.Inside a' b' :=
  ⟨Nat.le_trans ha h.first_le, h.ordered, Nat.le_trans h.last_le hb⟩

theorem Inside.join {a b : Nat} {s t : Span} (hs : s.Inside a b) (ht : t.Inside a b) : (s.join t).Inside a b := by
  obtain ⟨first, ordered, last⟩ := hs
  obtain ⟨first', ordered', last'⟩ := ht
  constructor
  · rw [offset_first_join]
    omega
  · rw [offset_first_join, offset_last_join]
    omega
  · rw [offset_last_join]
    omega

variable {α : Type} {f : α → Span} {as : List α}

/-- A span that is joined with those of some parts. -/
theorem encloses_foldl (s : Span) : (as.foldl (fun s a => s.join (f a)) s).encloses s = true ∧
    ∀ a ∈ as, (as.foldl (fun s a => s.join (f a)) s).encloses (f a) = true := by
  induction as generalizing s with
  | nil => exact ⟨encloses_refl s, nofun⟩
  | cons a rest ih =>
    obtain ⟨joined, later⟩ := ih (s.join (f a))
    exact ⟨encloses_trans joined (encloses_join_left _ _),
      List.forall_mem_cons.mpr ⟨encloses_trans joined (encloses_join_right _ _), later⟩⟩

theorem Inside.foldl {a b : Nat} {s : Span} (hs : s.Inside a b) (has : ∀ x ∈ as, (f x).Inside a b) :
    (as.foldl (fun s x => s.join (f x)) s).Inside a b := by
  induction as generalizing s with
  | nil => exact hs
  | cons x rest ih =>
    obtain ⟨hx, hrest⟩ := List.forall_mem_cons.mp has
    exact ih (hs.join hx) hrest

end RecordStats.Span
