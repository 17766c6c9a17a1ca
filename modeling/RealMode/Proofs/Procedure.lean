import Mathlib.Data.List.Nodup
import RealMode.Procedure
import RealMode.Proofs.Collection.Cut
import RealMode.Proofs.Place

/-! Tables of procedures.

A table that is built from nothing lists procedures by ascending entry, so it has one for an entry at
most, and a procedure is found where it was entered, whatever has been entered since. -/

set_option autoImplicit false

namespace RealMode

theorem CallType.isSome_ofKind? (kind : Reference.Kind) :
    (CallType.ofKind? kind).isSome = kind.isCall := by
  cases kind <;> rfl

namespace ProcedureTable

variable {table grown : ProcedureTable} {procedure : Procedure} {entry : Place}

theorem contains_iff_mem_entries : table.contains entry = true ↔ entry ∈ table.entries := by
  simp [contains, find?, entries]

theorem find?_eq_none_iff : table.find? entry = none ↔ entry ∉ table.entries := by
  simp [← contains_iff_mem_entries, contains]

theorem entry_of_find? (found : table.find? entry = some procedure) : procedure.entry = entry := by
  simpa using List.find?_some found

section Add

theorem add_eq_ok_iff :
    table.add procedure = .ok grown ↔ procedure.entry ∉ table.entries ∧
      grown = { table with
        procedures := table.procedures.takeWhile (·.entry < procedure.entry) ++
          procedure :: table.procedures.dropWhile (·.entry < procedure.entry) } := by
  unfold add
  by_cases present : procedure.entry ∈ table.entries
  · simp [contains_iff_mem_entries.mpr present, present]
  · rw [if_neg (mt contains_iff_mem_entries.mp present)]
    simp [present, eq_comm]

theorem exists_add (absent : procedure.entry ∉ table.entries) :
    ∃ grown, table.add procedure = .ok grown :=
  ⟨_, add_eq_ok_iff.mpr ⟨absent, rfl⟩⟩

/-- A new procedure is found at its entry, and nothing else changes. -/
theorem find?_add (added : table.add procedure = .ok grown) (entry : Place) :
    grown.find? entry =
      (table.find? entry).or (if procedure.entry = entry then some procedure else none) := by
  obtain ⟨absent, rfl⟩ := add_eq_ok_iff.mp added
  have parts : table.find? entry =
      ((table.procedures.takeWhile (·.entry < procedure.entry)).find? (·.entry = entry)).or
        ((table.procedures.dropWhile (·.entry < procedure.entry)).find? (·.entry = entry)) := by
    rw [find?, ← List.find?_append, List.takeWhile_append_dropWhile]
  by_cases same : procedure.entry = entry
  · subst same
    have missing := find?_eq_none_iff.mpr absent
    rw [missing, eq_comm, Option.or_eq_none_iff] at parts
    rw [missing, find?, List.find?_append, parts.1, List.find?_cons]
    simp
  · rw [find?, List.find?_append, List.find?_cons, parts]
    simp [same]

/-- Whether a procedure is entered or not, the calls stay as they are. -/
theorem calls_add (table : ProcedureTable) (procedure : Procedure) :
    (table.add procedure).state.calls = table.calls := by
  unfold add
  split <;> rfl

theorem mem_entries_of_add (added : table.add procedure = .ok grown) (entry : Place) :
    entry ∈ grown.entries ↔ entry = procedure.entry ∨ entry ∈ table.entries := by
  rw [← not_iff_not, not_or, ← find?_eq_none_iff, ← find?_eq_none_iff, find?_add added,
    Option.or_eq_none_iff, and_comm, eq_comm (a := entry)]
  simp

/-- Procedures stand by ascending entry. -/
def Ascending (table : ProcedureTable) : Prop :=
  table.procedures.Pairwise fun left right => left.entry < right.entry

theorem Ascending.add (ascending : table.Ascending) (added : table.add procedure = .ok grown) :
    grown.Ascending := by
  obtain ⟨absent, rfl⟩ := add_eq_ok_iff.mp added
  let before := table.procedures.takeWhile (·.entry < procedure.entry)
  let behind := table.procedures.dropWhile (·.entry < procedure.entry)
  have earlier : ∀ other ∈ before, other.entry < procedure.entry := by
    intro other member
    simpa using List.mem_takeWhile_imp member
  have later : ∀ other ∈ behind, procedure.entry < other.entry := by
    intro other member
    have parts : Cut.Parts (·.entry < procedure.entry) table.procedures :=
      ascending.imp fun less passed => by
        simp only [decide_eq_true_eq] at passed ⊢
        exact Place.lt_trans less passed
    have failed := parts.not_of_mem_dropWhile member
    refine Place.lt_of_not_lt (of_decide_eq_false failed) fun same => absent ?_
    rw [same]
    exact List.mem_map_of_mem ((List.dropWhile_sublist _).subset member)
  exact Cut.pairwise_insert ascending List.takeWhile_append_dropWhile earlier later

end Add

theorem Ascending.nodup_entries (ascending : table.Ascending) : table.entries.Nodup := by
  refine List.pairwise_map.mpr (ascending.imp fun less same => ?_)
  rw [same] at less
  exact Place.not_lt_of_lt less less

/-- In a table with an order, looking up an entry finds the one procedure there. -/
theorem Ascending.find?_eq_some_iff (ascending : table.Ascending) :
    table.find? entry = some procedure ↔
      procedure ∈ table.procedures ∧ procedure.entry = entry := by
  constructor
  · intro found
    exact ⟨List.mem_of_find?_eq_some found, entry_of_find? found⟩
  · rintro ⟨member, rfl⟩
    cases found : table.find? procedure.entry with
    | none => exact absurd (List.mem_map_of_mem member) (find?_eq_none_iff.mp found)
    | some other =>
        rw [List.inj_on_of_nodup_map ascending.nodup_entries (List.mem_of_find?_eq_some found) member
          (entry_of_find? found)]

section Blocks

variable (table) (blocks : Procedure → List Place)

theorem entries_mapBlocks : (table.mapBlocks blocks).entries = table.entries := by
  simp [entries, mapBlocks]

theorem find?_mapBlocks (entry : Place) :
    (table.mapBlocks blocks).find? entry =
      (table.find? entry).map fun procedure => { procedure with blocks := blocks procedure } := by
  rw [find?, mapBlocks, List.find?_map]
  rfl

variable {table blocks}

theorem mapBlocks_eq_self
    (same : ∀ procedure ∈ table.procedures, blocks procedure = procedure.blocks) :
    table.mapBlocks blocks = table := by
  have kept : table.procedures.map (fun procedure => { procedure with blocks := blocks procedure }) =
      table.procedures.map id := by
    apply List.map_congr_left
    intro procedure member
    rw [same procedure member]
    rfl
  rw [mapBlocks, kept, List.map_id]

end Blocks

end ProcedureTable

end RealMode
