import RecordStats.Proofs.Record.Faultless
import RecordStats.Proofs.Run.Replay

/-! Runs without internal errors. The parser, the declaration of the tree, the execution of records and the
    evaluation of expressions agree: on sound values, a run of a text never has to do what it has no way to do. -/

namespace RecordStats

/-- The values bound by a whole scope that are kept when the record ends. -/
theorem Scope.Sound.dropFunctions {s : Scope} (h : s.Sound) : Value.SoundFields s.dropFunctions.own.bindings :=
  fun b hb => h.own b (List.mem_filter.mp hb).1

namespace Plan

theorem sequences_sound : ∀ {data : List (String × Value)} {sequences : List (String × List Value)},
    Value.SoundFields data → (data.mapM fun c => c.2.items?.map fun items => (c.1, items)) = some sequences →
      ∀ c ∈ sequences, ∀ v ∈ c.2, v.Sound
  | [], sequences, _, h => by
    cases h
    exact nofun
  | c :: rest, sequences, hd, h => by
    obtain ⟨hc, hrest⟩ := List.forall_mem_cons.mp hd
    rw [List.mapM_cons] at h
    obtain ⟨first, hfirst, h⟩ := Option.bind_eq_some_iff.mp h
    obtain ⟨others, hothers, h⟩ := Option.bind_eq_some_iff.mp h
    cases h
    obtain ⟨items, hitems, rfl⟩ := Option.map_eq_some_iff.mp hfirst
    exact List.forall_mem_cons.mpr ⟨hc.of_mem_items hitems, sequences_sound hrest hothers⟩

/-- The records of sound columns are sound. -/
theorem ofColumns_sound {columns : List (String × Value)} (h : Value.SoundFields columns) :
    ∀ record ∈ (ofColumns columns).records, Value.SoundFields record := by
  have kept : ∀ keep : String × Value → Bool, Value.SoundFields (columns.filter keep) :=
    fun keep b hb => h b (List.mem_filter.mp hb).1
  unfold ofColumns
  extract_lets functions data
  split
  · exact nofun
  split
  · next sequences hsequences =>
    extract_lets length
    split
    · intro record hrecord
      obtain ⟨row, hrow, rfl⟩ := List.mem_map.mp hrecord
      have hsound := forall_mem_rows length (sequences_sound (kept _) hsequences) row hrow
      exact List.forall_mem_append.mpr ⟨hsound, kept _⟩
    · exact List.forall_mem_singleton.mpr h
  · exact List.forall_mem_singleton.mpr h

end Plan

namespace Run

variable {text : String} {standing : Dict Value} {run a : Run} {call : Caller}

/-- A record in any state of a run. Its symbols are sound again. -/
theorem Alike.single_faultless (h : ofText text standing = .ok run) (ha : Alike a run) (hs : Value.SoundFields standing)
    (hcall : Caller.Sound call) (tag : Option String) {record : List (String × Value)} (hr : Value.SoundFields record) :
    Faultless Value.SoundFields (a.single call tag record).1 := by
  obtain ⟨hprogram, htree, hstanding⟩ := ofText_eq_ok h
  have wf := Program.wellFormed_of_ofText hprogram
  rw [single_outcome, ha.performs, trace, hstanding]
  refine (runBlock_faultless hcall [] wf (Program.fits_tree wf htree) (.root hs hr)).map fun scope hscope => ?_
  exact hscope.dropFunctions

theorem Alike.batch_faultless (h : ofText text standing = .ok run) (hs : Value.SoundFields standing)
    (hcall : Caller.Sound call) (tag : Option String) :
    ∀ {records : List (List (String × Value))} {a : Run} (columns : Dict (List Value)),
      Alike a run → (∀ record ∈ records, Value.SoundFields record) →
        Faultless (fun _ => True) (a.batch call tag columns records).1
  | [], _, columns, _, _ => .ok trivial
  | record :: rest, a, columns, ha, hr => by
    obtain ⟨hrecord, hrest⟩ := List.forall_mem_cons.mp hr
    have outcome : Faultless Value.SoundFields (a.single call tag record).1 :=
      ha.single_faultless h hs hcall tag hrecord
    have next : Alike (a.single call tag record).2 run := (single_alike a record).trans ha
    rw [batch]
    rcases hsingle : a.single call tag record with ⟨result, after⟩
    rw [hsingle] at outcome next
    cases outcome with
    | ok _ => exact batch_faultless h hs hcall tag _ next hrest
    | error hstop => exact .error hstop

theorem Alike.evaluate_faultless (h : ofText text standing = .ok run) (ha : Alike a run)
    (hs : Value.SoundFields standing) (hcall : Caller.Sound call) (tag : Option String)
    {columns : List (String × Value)} (hc : Value.SoundFields columns) :
    Faultless (fun _ => True) (a.evaluate call tag columns).1 := by
  have records := Plan.ofColumns_sound hc
  rw [evaluate]
  split
  · exact .ok trivial
  · next record hplan =>
    rw [hplan] at records
    exact (ha.single_faultless h hs hcall tag (records record List.mem_cons_self)).map fun _ _ => trivial
  · next rows hplan =>
    rw [hplan] at records
    exact (Alike.batch_faultless h hs hcall tag [] ha records).map fun _ _ => trivial

end Run
end RecordStats
