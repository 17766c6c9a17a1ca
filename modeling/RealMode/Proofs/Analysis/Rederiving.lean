import RealMode.Proofs.Analysis.Draining
import RealMode.Proofs.Analysis.Reruns

/-! Analyses that find nothing new.

The edges, procedures and data items of an analysis are those to which its blocks, its references and
its slots give rise. A further analysis without entry points finds no other blocks, so it derives the
same results again. Only the calls between procedures are entered once more, and the findings about
procedures and segments are repeated. -/

set_option autoImplicit false

namespace RealMode

theorem Outcome.state_done (state : Analysis) : (Outcome.done state).state = state := rfl

namespace Analysis

def itemOf (state : Analysis) (slot : ConsumedSlot) : DataItem :=
  ⟨slot.place, slot.location, JumpTable.slotSize, state.slotOwner? slot⟩

/-- The results of an analysis are those to which its blocks, references and slots give rise. -/
structure UpToDate (state : Analysis) : Prop where
  edges : ∀ edge, state.Justifies edge → edge ∈ state.flow.edges
  entered : ∀ entry ∈ state.entries, ∀ place ∈ state.program.resolve entry.address,
    place ∈ state.procedures.entries
  called : ∀ reference ∈ state.references.toList, ∀ place ∈ callee? state.program reference,
    place ∈ state.procedures.entries
  blocks : ∀ procedure ∈ state.procedures.procedures,
    state.blocksOf procedure.entry = procedure.blocks
  items : state.slots.map state.itemOf = state.items

/-- Which blocks a procedure has does not depend on the blocks that it had before. -/
theorem blocksOf_assignBlocks (state : Analysis) (entry : Place) :
    state.assignBlocks.blocksOf entry = state.blocksOf entry := by
  have entries : state.assignBlocks.procedures.entries = state.procedures.entries :=
    state.procedures.entries_mapBlocks _
  unfold blocksOf
  rw [entries]
  rfl

/-- `after` has the procedures of `state`. The two differ in calls and findings only. -/
def Recalled (state after : Analysis) : Prop :=
  ∃ calls findings, after = { state with
    procedures := { state.procedures with calls }
    diagnostics := state.diagnostics ++ findings }

namespace Recalled

variable {state middle after : Analysis}

theorem refl (state : Analysis) : state.Recalled state :=
  ⟨state.procedures.calls, [], by rw [List.append_nil]⟩

theorem reports (state : Analysis) (location : Option Address) (code : Diagnostic.Code)
    (message : String) : state.Recalled (state.report location code message) :=
  ⟨state.procedures.calls, _, rfl⟩

theorem calls (state : Analysis) (calls : ReferenceGraph) :
    state.Recalled { state with procedures := { state.procedures with calls } } :=
  ⟨calls, [], by rw [List.append_nil]⟩

theorem trans (first : state.Recalled middle) (second : middle.Recalled after) :
    state.Recalled after := by
  obtain ⟨_, findings, rfl⟩ := first
  obtain ⟨calls, others, rfl⟩ := second
  exact ⟨calls, findings ++ others, by simp only [List.append_assoc]⟩

theorem entries (recalled : state.Recalled after) :
    after.procedures.entries = state.procedures.entries := by
  obtain ⟨_, _, rfl⟩ := recalled
  rfl

theorem program (recalled : state.Recalled after) : after.program = state.program := by
  obtain ⟨_, _, rfl⟩ := recalled
  rfl

end Recalled

section Declarations

variable {state : Analysis}

theorem declareEntry_recalled {entry : EntryPoint}
    (entered : ∀ place ∈ state.program.resolve entry.address, place ∈ state.procedures.entries) :
    state.Recalled (state.declareEntry entry).state := by
  unfold declareEntry
  split
  · exact .refl state
  · rename_i place located
    rw [if_pos (ProcedureTable.contains_iff_mem_entries.mpr (entered place located))]
    exact .refl state

theorem declareCallee_recalled {reference : Reference} {target : Address} {entry : Place}
    {callType : CallType} (known : entry ∈ state.procedures.entries) :
    state.Recalled (state.declareCallee reference target entry callType).state := by
  unfold declareCallee
  split
  · rename_i missing
    have present := ProcedureTable.contains_iff_mem_entries.mpr known
    simp [ProcedureTable.contains, missing] at present
  · split
    · exact .refl state
    · exact .reports ..

theorem declareCall_recalled {reference : Reference}
    (called : ∀ place ∈ callee? state.program reference, place ∈ state.procedures.entries) :
    state.Recalled (state.declareCall reference).state := by
  rcases state.declareCall_cases reference with
    ⟨-, same⟩ | ⟨target, entry, callType, -, -, reached, done⟩
  · rw [same]
    exact .refl state
  · rw [done]
    exact (declareCallee_recalled (called entry reached)).trans (.calls ..)

theorem forEach_recalled {α : Type} {step : Analysis → α → Outcome} {items : List α}
    (recalled : ∀ item ∈ items, ∀ after, state.Recalled after →
      after.Recalled (step after item).state) :
    state.Recalled (forEach step items state).state := by
  induction items generalizing state with
  | nil => exact .refl state
  | cons item rest ih =>
      have first := recalled item List.mem_cons_self state (.refl state)
      rw [forEach]
      split
      · refine first.trans (ih fun other member after later => ?_)
        exact recalled other (List.mem_cons_of_mem item member) after (first.trans later)
      · exact first

end Declarations

namespace UpToDate

variable {state : Analysis} (upToDate : state.UpToDate)

include upToDate

theorem reports (findings : List Diagnostic) :
    UpToDate { state with diagnostics := state.diagnostics ++ findings } := by
  have justified := (Derived.reports state findings).justifies_iff
  exact ⟨fun edge justifies => upToDate.edges edge ((justified edge).mp justifies), upToDate.entered,
    upToDate.called, upToDate.blocks, upToDate.items⟩

theorem linkBlocks_eq (faultless : state.linkBlocks.fault = none) :
    state.linkBlocks = .done state := by
  obtain ⟨flow, done, -, members⟩ := Analysis.linkBlocks_eq faultless
  obtain ⟨edges, added⟩ := state.flow_linkBlocks
  rw [done] at added
  obtain rfl : flow = state.flow.addAll edges := added
  -- Whatever is entered is justified, so it is there already.
  have known : edges ⊆ state.flow.edges := by
    intro edge member
    rcases (members edge).mp (FlowGraph.mem_edges_addAll.mpr (.inr member)) with earlier | justifies
    · exact earlier
    · exact upToDate.edges edge justifies
  rw [done, FlowGraph.addAll_of_subset known]

theorem declareAll_recalled : state.Recalled state.declareAll := by
  have entered : state.Recalled (forEach declareEntry state.entries state).state := by
    apply forEach_recalled
    intro entry member after recalled
    apply declareEntry_recalled
    rw [recalled.program, recalled.entries]
    exact upToDate.entered entry member
  refine entered.trans (forEach_recalled fun reference member after recalled => ?_)
  have all := entered.trans recalled
  apply declareCall_recalled
  rw [all.program, all.entries]
  exact upToDate.called reference (List.mem_filter.mp member).1

theorem findProcedures_eq : ∃ after, state.findProcedures = .done after ∧ state.Recalled after := by
  obtain ⟨-, -, -, result⟩ := state.findProcedures_eq
  obtain ⟨calls, findings, same⟩ := upToDate.declareAll_recalled
  refine ⟨_, result, calls, findings, ?_⟩
  have kept : state.declareAll.assignBlocks = state.declareAll := by
    have blocks : state.declareAll.procedures.mapBlocks
        (fun procedure => state.declareAll.blocksOf procedure.entry) = state.declareAll.procedures := by
      apply ProcedureTable.mapBlocks_eq_self
      rw [same]
      exact upToDate.blocks
    rw [assignBlocks, blocks]
  have items : state.declareAll.slots.map state.declareAll.itemOf = state.declareAll.items := by
    rw [same]
    exact upToDate.items
  have assigned : state.declareAll.assignItems =
      { state.declareAll with items := state.declareAll.slots.map state.declareAll.itemOf } := rfl
  rw [kept, assigned, items]
  exact same

end UpToDate

/-- Procedures are found with all that follows from the edges. -/
theorem findProcedures_upToDate {state : Analysis}
    (edges : ∀ edge, state.Justifies edge → edge ∈ state.flow.edges) :
    state.findProcedures.state.UpToDate := by
  have justified := state.findProcedures_derives.derived.justifies_iff
  obtain ⟨declared, atEntries, atCallees, result⟩ := state.findProcedures_eq
  rw [result] at justified ⊢
  generalize state.declareAll = called at declared atEntries atCallees justified ⊢
  have listed : called.assignBlocks.procedures.entries = called.procedures.entries :=
    called.procedures.entries_mapBlocks _
  have blocks : ∀ procedure ∈ called.assignBlocks.procedures.procedures,
      called.assignBlocks.blocksOf procedure.entry = procedure.blocks := by
    intro procedure member
    obtain ⟨bare, -, rfl⟩ := List.mem_map.mp member
    exact called.blocksOf_assignBlocks bare.entry
  rw [← listed] at atEntries atCallees
  obtain ⟨procedures, findings, -, rfl⟩ := declared
  exact ⟨fun edge justifies => edges edge ((justified edge).mp justifies), atEntries, atCallees, blocks,
    rfl⟩

section Run

variable {program : Program} {decoder : Decoder} {settings : Settings} {state : Analysis}
  (regular : program.Regular) (placed : decoder.Placed)
  (reached : Reached decoder program settings state)

include regular placed reached

/-- A whole analysis leaves nothing to derive. -/
theorem run_upToDate (entries : List EntryPoint) : (run decoder state entries).state.UpToDate := by
  have found := (reached.findBlocks regular placed entries).reached
  obtain ⟨flow, linked, -, edges⟩ := linkBlocks_eq (found.linkBlocks regular placed).faultless
  obtain ⟨findings, finished⟩ := run_eq regular placed reached entries
  rw [linked] at finished
  rw [finished]
  apply UpToDate.reports
  apply findProcedures_upToDate
  intro edge justifies
  apply (edges edge).mpr
  right
  exact (Derived.silent _ _ flow _).justifies_iff edge |>.mp justifies

/-- Where nothing is left to derive, an analysis without entry points enters calls and repeats
findings, and it does nothing else. -/
theorem UpToDate.run_eq (upToDate : state.UpToDate) :
    ∃ calls findings, run decoder state [] = .done { state with
      pending := .empty
      procedures := { state.procedures with calls }
      diagnostics := state.diagnostics ++ findings } := by
  let idle : Analysis := { state with pending := .empty }
  have found : findBlocks decoder state [] = .done idle := by
    rw [findBlocks, enter_eq, List.append_nil]
    exact drain_of_empty rfl
  have current : idle.UpToDate := by
    refine ⟨fun edge justifies => upToDate.edges edge ?_, upToDate.entered, upToDate.called,
      upToDate.blocks, upToDate.items⟩
    cases justifies with
    | reference recorded found => exact .reference recorded found
    | neighbour member found => exact .neighbour member found
  have idleReached := (reached.findBlocks regular placed []).reached
  rw [found] at idleReached
  have linked := current.linkBlocks_eq (idleReached.linkBlocks regular placed).faultless
  obtain ⟨after, finished, calls, findings, rfl⟩ := current.findProcedures_eq
  obtain ⟨others, result⟩ := Analysis.run_eq regular placed reached []
  rw [found, Outcome.state_done, linked, Outcome.state_done, finished, Outcome.state_done] at result
  refine ⟨calls, findings ++ others, ?_⟩
  rw [result, List.append_assoc]

end Run

/-- A further analysis without entry points repeats the results of a first one: the blocks, the
procedures with their blocks, the references, the edges and the data items are the same lists, and no
byte is marked anew. -/
theorem rerun_repeats_results {program : Program} {decoder : Decoder} (built : program.Built)
    (placed : decoder.Placed) (settings : Settings) (entries : List EntryPoint) :
    let first := run decoder (.fresh program settings) entries
    let second := run decoder first.state []
    first.fault = none ∧ second.fault = none ∧
    second.state.program = first.state.program ∧
    second.state.toReport.blocks = first.state.toReport.blocks ∧
    second.state.toReport.procedures = first.state.toReport.procedures ∧
    second.state.toReport.references = first.state.toReport.references ∧
    second.state.toReport.flow = first.state.toReport.flow ∧
    second.state.toReport.items = first.state.toReport.items ∧
    first.state.toReport.diagnostics <+: second.state.toReport.diagnostics := by
  intro first second
  have start : Reached decoder program settings (.fresh program settings) := .refl
  obtain ⟨faultless, reached⟩ := start.run built.regular placed entries
  have upToDate := run_upToDate built.regular placed start entries
  obtain ⟨calls, findings, again⟩ := upToDate.run_eq built.regular placed reached
  have result : second = _ := again
  rw [result]
  exact ⟨faultless, rfl, rfl, rfl, rfl, rfl, rfl, rfl, List.prefix_append ..⟩

/-- A near call to an entry point that is far. The finding about it is made again, and the results stay
the same. -/
theorem sample_rerun_repeats_results :
    let call : Script.Answer := .instruction 2 "call 000c" (.call false) [.plain (.relative 12)]
    let decoder := Script.decoder (⟨0, 2, call⟩ :: sampleRows)
    let first := run decoder (.fresh sample {}) [sampleEntry, ⟨⟨.segment 0, 12⟩, none, .far⟩]
    let second := run decoder first.state []
    sample.Built ∧ decoder.Placed ∧ first.state.procedures.procedures.length = 2 ∧
      first.state.items.length = 2 ∧
      second.state.diagnostics.length = first.state.diagnostics.length + 1 ∧
      second.state.program = first.state.program ∧
      second.state.toReport.blocks = first.state.toReport.blocks ∧
      second.state.toReport.procedures = first.state.toReport.procedures ∧
      second.state.toReport.references = first.state.toReport.references ∧
      second.state.toReport.flow = first.state.toReport.flow ∧
      second.state.toReport.items = first.state.toReport.items ∧
      first.state.toReport.diagnostics <+: second.state.toReport.diagnostics := by
  intro call decoder first second
  have placed : decoder.Placed := Script.decoder_placed (by decide)
  have two : first.state.procedures.procedures.length = 2 := by decide +kernel
  have items : first.state.items.length = 2 := by decide +kernel
  have repeated : second.state.diagnostics.length = first.state.diagnostics.length + 1 := by
    decide +kernel
  obtain ⟨-, -, again⟩ := rerun_repeats_results sample_built placed {}
    [sampleEntry, ⟨⟨.segment 0, 12⟩, none, .far⟩]
  refine ⟨sample_built, placed, two, items, repeated, ?_⟩
  -- The two analyses need not be run again to compare the statements.
  clear_value decoder
  exact again

end Analysis

end RealMode
