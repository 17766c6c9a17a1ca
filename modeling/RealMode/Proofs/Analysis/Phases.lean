import RealMode.Analysis
import RealMode.Proofs.Analysis.Step
import RealMode.Proofs.Procedure

/-! The phases behind the search: control flow and procedures.

They read what the search has found and change nothing of it. Finding procedures never fails;
linking blocks fails only at a reference whose source lies in no block. -/

set_option autoImplicit false

namespace RealMode

/-- `after` differs from `state` only in results that are derived from what the search has found. -/
def Analysis.Derived (state after : Analysis) : Prop :=
  ∃ procedures flow items findings,
    after = { state with procedures, flow, items, diagnostics := state.diagnostics ++ findings }

namespace Analysis.Derived

variable {state middle after : Analysis}

theorem refl (state : Analysis) : state.Derived state :=
  ⟨state.procedures, state.flow, state.items, [], by rw [List.append_nil]⟩

/-- Results can be derived without a finding. -/
theorem silent (state : Analysis) (procedures : ProcedureTable) (flow : FlowGraph)
    (items : List DataItem) : state.Derived { state with procedures, flow, items } :=
  ⟨procedures, flow, items, [], by rw [List.append_nil]⟩

theorem reports (state : Analysis) (findings : List Diagnostic) :
    state.Derived { state with diagnostics := state.diagnostics ++ findings } :=
  ⟨state.procedures, state.flow, state.items, findings, rfl⟩

theorem trans (first : state.Derived middle) (second : middle.Derived after) :
    state.Derived after := by
  obtain ⟨_, _, _, findings, rfl⟩ := first
  obtain ⟨procedures, flow, items, others, rfl⟩ := second
  exact ⟨procedures, flow, items, findings ++ others, by simp only [List.append_assoc]⟩

theorem program (derived : state.Derived after) : after.program = state.program := by
  obtain ⟨_, _, _, _, rfl⟩ := derived
  rfl

theorem settings (derived : state.Derived after) : after.settings = state.settings := by
  obtain ⟨_, _, _, _, rfl⟩ := derived
  rfl

theorem references (derived : state.Derived after) : after.references = state.references := by
  obtain ⟨_, _, _, _, rfl⟩ := derived
  rfl

theorem blocks (derived : state.Derived after) : after.blocks = state.blocks := by
  obtain ⟨_, _, _, _, rfl⟩ := derived
  rfl

theorem slots (derived : state.Derived after) : after.slots = state.slots := by
  obtain ⟨_, _, _, _, rfl⟩ := derived
  rfl

theorem instructions (derived : state.Derived after) : after.instructions = state.instructions := by
  obtain ⟨_, _, _, _, rfl⟩ := derived
  rfl

theorem pending (derived : state.Derived after) : after.pending = state.pending := by
  obtain ⟨_, _, _, _, rfl⟩ := derived
  rfl

theorem step {decoder : Decoder} (derived : state.Derived after) :
    Step decoder ⟨state, .idle⟩ ⟨after, .idle⟩ := by
  obtain ⟨procedures, flow, items, findings, rfl⟩ := derived
  exact .derive procedures flow items findings

end Analysis.Derived

/-- A phase ends without a fault and changes nothing but derived results. -/
structure Outcome.Derives (outcome : Outcome) (state : Analysis) : Prop where
  faultless : outcome.fault = none
  derived : state.Derived outcome.state

namespace Outcome

theorem Derives.andThen_eq {outcome : Outcome} {state : Analysis} (derives : outcome.Derives state)
    (next : Analysis → Outcome) : outcome.andThen next = next outcome.state := by
  rw [Outcome.andThen, derives.faultless]

theorem Derives.andThen {outcome : Outcome} {state : Analysis} {next : Analysis → Outcome}
    (first : outcome.Derives state)
    (second : ∀ after, state.Derived after → (next after).Derives after) :
    (outcome.andThen next).Derives state := by
  have others := second outcome.state first.derived
  rw [first.andThen_eq]
  exact ⟨others.faultless, first.derived.trans others.derived⟩

end Outcome

namespace Analysis

/-- `after` has all procedures of `state`. The two differ in procedures and findings only. -/
def Declared (state after : Analysis) : Prop :=
  ∃ procedures findings, state.procedures.entries ⊆ procedures.entries ∧
    after = { state with procedures, diagnostics := state.diagnostics ++ findings }

namespace Declared

variable {state middle after : Analysis}

theorem silent {procedures : ProcedureTable} (more : state.procedures.entries ⊆ procedures.entries) :
    state.Declared { state with procedures } :=
  ⟨procedures, [], more, by rw [List.append_nil]⟩

theorem refl (state : Analysis) : state.Declared state := silent (List.Subset.refl _)

theorem trans (first : state.Declared middle) (second : middle.Declared after) :
    state.Declared after := by
  obtain ⟨_, findings, more, rfl⟩ := first
  obtain ⟨procedures, others, evenMore, rfl⟩ := second
  exact ⟨procedures, findings ++ others, List.Subset.trans more evenMore,
    by simp only [List.append_assoc]⟩

theorem derived (declared : state.Declared after) : state.Derived after := by
  obtain ⟨procedures, findings, -, rfl⟩ := declared
  exact ⟨procedures, state.flow, state.items, findings, rfl⟩

theorem entries_subset (declared : state.Declared after) :
    state.procedures.entries ⊆ after.procedures.entries := by
  obtain ⟨_, _, more, rfl⟩ := declared
  exact more

theorem program (declared : state.Declared after) : after.program = state.program := by
  obtain ⟨_, _, -, rfl⟩ := declared
  rfl

theorem blocks (declared : state.Declared after) : after.blocks = state.blocks := by
  obtain ⟨_, _, -, rfl⟩ := declared
  rfl

theorem flow (declared : state.Declared after) : after.flow = state.flow := by
  obtain ⟨_, _, -, rfl⟩ := declared
  rfl

theorem references (declared : state.Declared after) : after.references = state.references := by
  obtain ⟨_, _, -, rfl⟩ := declared
  rfl

end Declared

/-- A declaration ends without a fault, and there is a procedure at the place that it is about. -/
structure Declares (state : Analysis) (outcome : Outcome) (wanted : Option Place) : Prop where
  faultless : outcome.fault = none
  declared : state.Declared outcome.state
  entered : ∀ place ∈ wanted, place ∈ outcome.state.procedures.entries

theorem Declares.nothing (state : Analysis) : state.Declares (.done state) none :=
  ⟨rfl, .refl state, nofun⟩

theorem forEach_declares {α : Type} {step : Analysis → α → Outcome} {wanted : α → Option Place}
    {items : List α} {state : Analysis}
    (declares : ∀ item ∈ items, ∀ after, state.Declared after →
      after.Declares (step after item) (wanted item)) :
    (forEach step items state).fault = none ∧ state.Declared (forEach step items state).state ∧
      ∀ item ∈ items, ∀ place ∈ wanted item,
        place ∈ (forEach step items state).state.procedures.entries := by
  induction items generalizing state with
  | nil => exact ⟨rfl, .refl state, nofun⟩
  | cons item rest ih =>
      have first := declares item List.mem_cons_self state (.refl state)
      obtain ⟨faultless, declared, entered⟩ := ih fun other member after declared =>
        declares other (List.mem_cons_of_mem item member) after (first.declared.trans declared)
      simp only [forEach, first.faultless]
      refine ⟨faultless, first.declared.trans declared, fun other member place aimed => ?_⟩
      rcases List.mem_cons.mp member with rfl | later
      · exact declared.entries_subset (first.entered place aimed)
      · exact entered other later place aimed

section Procedures

variable {state : Analysis} {entry : Place}

theorem addProcedure_declares (absent : state.procedures.contains entry = false) (address : Address)
    (name : String) (callType : CallType) :
    state.Declares (state.addProcedure entry address name callType) (some entry) := by
  unfold addProcedure
  split
  · rename_i procedures added
    have entries := ProcedureTable.mem_entries_of_add added
    refine ⟨rfl, .silent fun other known => (entries other).mpr (.inr known), ?_⟩
    rintro place ⟨⟩
    exact (entries entry).mpr (.inl rfl)
  · rename_i fault failed
    simp [ProcedureTable.add, absent] at failed

theorem declareEntry_declares (state : Analysis) (entry : EntryPoint) :
    state.Declares (state.declareEntry entry) (state.program.resolve entry.address) := by
  unfold declareEntry
  cases state.program.resolve entry.address with
  | none => exact .nothing state
  | some place =>
      dsimp only
      split
      · rename_i present
        refine ⟨rfl, .refl state, ?_⟩
        rintro place ⟨⟩
        exact ProcedureTable.contains_iff_mem_entries.mp present
      · rename_i absent
        exact addProcedure_declares (Bool.eq_false_iff.mpr absent) ..

theorem declareEntries_declares (state : Analysis) :
    let outcome := forEach declareEntry state.entries state
    outcome.fault = none ∧ state.Declared outcome.state ∧
      ∀ entry ∈ state.entries, ∀ place ∈ state.program.resolve entry.address,
        place ∈ outcome.state.procedures.entries :=
  forEach_declares fun entry _ after declared => declared.program ▸ declareEntry_declares after entry

theorem declareCallee_declares (state : Analysis) (reference : Reference) (target : Address)
    (entry : Place) (callType : CallType) :
    state.Declares (state.declareCallee reference target entry callType) (some entry) := by
  unfold declareCallee
  split
  · rename_i missing
    exact addProcedure_declares (by rw [ProcedureTable.contains, missing]; rfl) ..
  · rename_i procedure found
    have present : entry ∈ state.procedures.entries :=
      ProcedureTable.contains_iff_mem_entries.mp (by rw [ProcedureTable.contains, found]; rfl)
    split
    · exact ⟨rfl, .refl state, by rintro place ⟨⟩; exact present⟩
    · exact ⟨rfl, ⟨_, _, List.Subset.refl _, rfl⟩, by rintro place ⟨⟩; exact present⟩

theorem addCall_eq_ok {table : ProcedureTable} {reference : Reference} {target : Address}
    {callType : CallType} (points : reference.target = some target)
    (call : CallType.ofKind? reference.kind = some callType) :
    table.addCall reference = .ok { table with calls := table.calls.add reference } := by
  have isCall : reference.kind.isCall = true := by
    rw [← CallType.isSome_ofKind?, call, Option.isSome_some]
  have hasEnd : reference.hasEnd = true := by simp [Reference.hasEnd, points]
  simp [ProcedureTable.addCall, ReferenceGraph.enter, isCall, hasEnd, Attempt.within]

/-- The place that a call reaches. -/
def callee? (program : Program) (reference : Reference) : Option Place :=
  if reference.kind.isCall then reference.target.bind program.resolve else none

theorem callee?_eq_resolve {program : Program} {reference : Reference} {target : Address}
    {callType : CallType} (points : reference.target = some target)
    (call : CallType.ofKind? reference.kind = some callType) :
    callee? program reference = program.resolve target := by
  rw [callee?, points, ← CallType.isSome_ofKind?, call]
  rfl

/-- A call that reaches a place is entered behind the declaration of its callee. Any other reference
changes nothing. -/
theorem declareCall_cases (state : Analysis) (reference : Reference) :
    callee? state.program reference = none ∧ state.declareCall reference = .done state ∨
      ∃ target entry callType, reference.target = some target ∧
        CallType.ofKind? reference.kind = some callType ∧
        callee? state.program reference = some entry ∧
        let callee := (state.declareCallee reference target entry callType).state
        state.declareCall reference = .done { callee with
          procedures := { callee.procedures with calls := callee.procedures.calls.add reference } } := by
  unfold declareCall
  split
  · rename_i target callType points call
    rw [callee?_eq_resolve points call]
    split
    · rename_i nowhere
      exact .inl ⟨nowhere, rfl⟩
    · rename_i entry reached
      have callee := declareCallee_declares state reference target entry callType
      refine .inr ⟨target, entry, callType, points, call, reached, ?_⟩
      rw [Outcome.andThen, callee.faultless]
      simp only [addCall_eq_ok points call]
  · rename_i noCall
    refine .inl ⟨?_, rfl⟩
    unfold callee?
    cases points : reference.target with
    | none => simp
    | some target =>
        cases call : CallType.ofKind? reference.kind with
        | none => simp [← CallType.isSome_ofKind?, call]
        | some callType => exact absurd call (noCall target callType points)

theorem declareCall_declares (state : Analysis) (reference : Reference) :
    state.Declares (state.declareCall reference) (callee? state.program reference) := by
  rcases state.declareCall_cases reference with
    ⟨nowhere, same⟩ | ⟨target, entry, callType, -, -, reached, called⟩
  · rw [nowhere, same]
    exact .nothing state
  · have callee := declareCallee_declares state reference target entry callType
    rw [reached, called]
    -- Entering the call itself changes no procedure.
    exact ⟨rfl, callee.declared.trans (.silent (List.Subset.refl _)), callee.entered⟩

/-- The state with procedures at entry points and call targets, before any blocks are given to them. -/
def declareAll (state : Analysis) : Analysis :=
  (forEach declareCall (state.references.toList.filter (·.kind.isCall))
    (forEach declareEntry state.entries state).state).state

/-- Procedures are declared first, at all entry points and callees. Blocks and items are given to
them afterwards. -/
theorem findProcedures_eq (state : Analysis) :
    state.Declared state.declareAll ∧
      (∀ entry ∈ state.entries, ∀ place ∈ state.program.resolve entry.address,
        place ∈ state.declareAll.procedures.entries) ∧
      (∀ reference ∈ state.references.toList, ∀ place ∈ callee? state.program reference,
        place ∈ state.declareAll.procedures.entries) ∧
      state.findProcedures = .done state.declareAll.assignBlocks.assignItems := by
  let entered := (forEach declareEntry state.entries state).state
  let calls := state.references.toList.filter (·.kind.isCall)
  have second : (forEach declareCall calls entered).fault = none ∧
      entered.Declared state.declareAll ∧
      ∀ call ∈ calls, ∀ place ∈ callee? entered.program call,
        place ∈ state.declareAll.procedures.entries :=
    forEach_declares fun call _ after declared => declared.program ▸ declareCall_declares after call
  obtain ⟨faultless, declared, atEntries⟩ := state.declareEntries_declares
  obtain ⟨callsFaultless, called, atCallees⟩ := second
  rw [declared.program] at atCallees
  refine ⟨declared.trans called, fun entry member place aimed => ?_,
    fun reference member place aimed => ?_, ?_⟩
  · exact called.entries_subset (atEntries entry member place aimed)
  · refine atCallees reference (List.mem_filter.mpr ⟨member, ?_⟩) place aimed
    by_contra noCall
    simp [callee?, noCall] at aimed
  · have recorded : entered.references = state.references := declared.references
    rw [findProcedures, Outcome.andThen, faultless]
    dsimp only
    rw [recorded, Outcome.andThen, callsFaultless]
    rfl

/-- Finding procedures never fails. -/
theorem findProcedures_derives (state : Analysis) : state.findProcedures.Derives state := by
  obtain ⟨declared, -, -, result⟩ := state.findProcedures_eq
  rw [result]
  exact ⟨rfl, declared.derived.trans (.silent _ _ state.declareAll.flow _)⟩

theorem findProcedures_items (state : Analysis) :
    state.findProcedures.state.items.map (fun item => (item.place, item.location, item.size)) =
      state.slots.map fun slot => (slot.place, slot.location, JumpTable.slotSize) := by
  obtain ⟨declared, -, -, result⟩ := state.findProcedures_eq
  rw [result, ← declared.derived.slots]
  simp [Outcome.done, assignItems, assignBlocks, JumpTable.slotSize]

theorem findProcedures_flow (state : Analysis) : state.findProcedures.state.flow = state.flow := by
  obtain ⟨declared, -, -, result⟩ := state.findProcedures_eq
  rw [result]
  exact declared.flow

end Procedures

section Linking

variable {state : Analysis}

theorem linkReferences_derives {references : List Reference}
    (owned : ∀ reference ∈ references, ∀ source, reference.source = some source →
      ∀ place, state.program.resolve source = some place → (state.blocks.find? place).isSome = true) :
    (linkReferences state references).Derives state := by
  induction references generalizing state with
  | nil => exact ⟨rfl, .refl state⟩
  | cons reference rest ih =>
      -- The source of the reference is the one lookup that could fail.
      have found : ∃ edge, state.referenceEdge reference = .ok edge := by
        unfold referenceEdge
        split
        · rename_i place target reached _
          obtain ⟨source, known, resolved⟩ := Option.bind_eq_some_iff.mp reached
          obtain ⟨block, holds⟩ := Option.isSome_iff_exists.mp
            (owned reference List.mem_cons_self source known place resolved)
          rw [holds]
          dsimp only
          split <;> exact ⟨_, rfl⟩
        · exact ⟨none, rfl⟩
      obtain ⟨edge, found⟩ := found
      have others : (linkReferences { state with flow := state.flow.addAll edge.toList } rest).Derives
          { state with flow := state.flow.addAll edge.toList } :=
        ih fun other member => owned other (List.mem_cons_of_mem reference member)
      simp only [linkReferences, found]
      exact ⟨others.faultless,
        .trans (.silent state state.procedures _ state.items) others.derived⟩

/-- Linking fails at no reference whose source lies in a block. -/
theorem linkBlocks_derives
    (owned : ∀ reference ∈ state.references.toList, ∀ source, reference.source = some source →
      ∀ place, state.program.resolve source = some place → (state.blocks.find? place).isSome = true) :
    state.linkBlocks.Derives state :=
  (linkReferences_derives owned).andThen fun linked _ =>
    ⟨rfl, .silent linked linked.procedures _ linked.items⟩

end Linking

end Analysis

end RealMode
