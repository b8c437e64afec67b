import Mathlib.Data.List.Nodup
import RecordStats.Program.Basic

/-! The names that a program declares. A collector declares its name, a region its own and a varied block its labels;
    loops and source blocks declare in the namespace around them, while the block of a region and a varied block have
    each a namespace of their own. -/

namespace RecordStats

mutual

/-- The names that a statement declares in the namespace that it stands in. -/
def Statement.declaredNames : Statement → List String
  | .collect c _ => [c.name.text]
  | .region n _ _ _ _ => [n.text]
  | .vary variations _ _ => variations.map fun v => v.name.text
  | .loop _ block _ => declaredNamesOf block
  | .source _ _ block _ => declaredNamesOf block
  | .define _ _ _ => []
  | .function _ _ _ _ => []
  | .result _ _ => []

/-- The names that the statements of a block declare in the namespace that it stands in. -/
def declaredNamesOf : List Statement → List String
  | [] => []
  | s :: rest => s.declaredNames ++ declaredNamesOf rest

end

mutual

/-- The blocks with a namespace of their own within a statement, at any depth. -/
def Statement.ownBlocks : Statement → List (List Statement)
  | .region _ _ _ block _ => block :: ownBlocksOf block
  | .vary _ block _ => block :: ownBlocksOf block
  | .loop _ block _ => ownBlocksOf block
  | .source _ _ block _ => ownBlocksOf block
  | .collect _ _ => []
  | .define _ _ _ => []
  | .function _ _ _ _ => []
  | .result _ _ => []

/-- The blocks with a namespace of their own within the statements of a block, at any depth. -/
def ownBlocksOf : List Statement → List (List Statement)
  | [] => []
  | s :: rest => s.ownBlocks ++ ownBlocksOf rest

end

/-- In every namespace that it declares something in, the statement declares each name once. -/
def Statement.WellNamed (s : Statement) : Prop :=
  s.declaredNames.Nodup ∧ ∀ b ∈ s.ownBlocks, (declaredNamesOf b).Nodup

/-- In its namespace, and in that of every block within it, a block declares each name once. -/
def WellNamed (block : List Statement) : Prop :=
  ∀ b ∈ block :: ownBlocksOf block, (declaredNamesOf b).Nodup

/-- What is declared beside a statement does not share its names. -/
theorem wellNamed_cons {s : Statement} {rest : List Statement} :
    WellNamed (s :: rest) ↔ s.WellNamed ∧ WellNamed rest ∧ s.declaredNames.Disjoint (declaredNamesOf rest) := by
  simp only [WellNamed, Statement.WellNamed, ownBlocksOf, declaredNamesOf, List.forall_mem_cons,
    List.forall_mem_append, List.nodup_append']
  constructor
  · rintro ⟨⟨hs, hrest, apart⟩, inner, others⟩
    exact ⟨⟨hs, inner⟩, ⟨hrest, others⟩, apart⟩
  · rintro ⟨⟨hs, inner⟩, ⟨hrest, others⟩, apart⟩
    exact ⟨⟨hs, hrest, apart⟩, inner, others⟩

end RecordStats
