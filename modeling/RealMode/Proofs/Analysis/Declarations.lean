import RealMode.Proofs.Analysis.Phases

/-! What makes a procedure.

Entry points and calls ask for a procedure where they resolve. The first to ask for one at a place
describes it, and entry points ask before calls. Every call that asks for a procedure of the other
distance is a finding, however often that happens. -/

set_option autoImplicit false

namespace RealMode

/-- What is found when a call of some distance goes to a procedure. -/
def Procedure.objection? (procedure : Procedure) (reference : Reference) (callType : CallType) :
    Option Diagnostic :=
  if procedure.callType = callType then none
  else some (.found reference.source .inconsistentCall
    (Analysis.inconsistencyMessage procedure callType))

namespace Analysis

/-- The procedure for which an entry point asks. -/
def entryRequest? (state : Analysis) (entry : EntryPoint) : Option Procedure :=
  (state.program.resolve entry.address).map fun place =>
    ⟨place, entry.address, entry.name.getD (state.procedureName entry.address place),
      entry.callType, []⟩

/-- The procedure for which a call asks. -/
def callRequest? (state : Analysis) (reference : Reference) : Option Procedure := do
  let target ← reference.target
  let callType ← CallType.ofKind? reference.kind
  let place ← state.program.resolve target
  some ⟨place, target, state.procedureName target place, callType, []⟩

/-- All procedures that are asked for, by entry points first. -/
def requests (state : Analysis) : List Procedure :=
  state.entries.filterMap state.entryRequest? ++ state.references.toList.filterMap state.callRequest?

/-- What is found when a call is compared with the procedure of a table that it reaches. -/
def inconsistency? (state : Analysis) (table : ProcedureTable) (reference : Reference) :
    Option Diagnostic := do
  let request ← state.callRequest? reference
  let procedure ← table.find? request.entry
  procedure.objection? reference request.callType

/-- A table has the first procedure that was asked for at each entry, and no other. -/
structure Answers (table : ProcedureTable) (requests : List Procedure) : Prop where
  ascending : table.Ascending
  first : ∀ entry, table.find? entry = requests.find? (·.entry = entry)

namespace Answers

variable {table grown : ProcedureTable} {earlier later : List Procedure} {request : Procedure}

theorem nothing (bare : table.procedures = []) : Answers table [] :=
  ⟨by simp [ProcedureTable.Ascending, bare], by simp [ProcedureTable.find?, bare]⟩

/-- A request for what is there changes nothing. -/
theorem known (answers : Answers table earlier) (present : request.entry ∈ table.entries) :
    Answers table (earlier ++ [request]) where
  ascending := answers.ascending
  first entry := by
    rw [List.find?_append, ← answers.first]
    by_cases same : request.entry = entry
    · obtain ⟨procedure, found⟩ : ∃ procedure, table.find? entry = some procedure := by
        rw [← Option.ne_none_iff_exists', Ne, ProcedureTable.find?_eq_none_iff, not_not]
        exact same ▸ present
      rw [found, Option.some_or]
    · simp [same]

theorem add (answers : Answers table earlier) (added : table.add request = .ok grown) :
    Answers grown (earlier ++ [request]) where
  ascending := answers.ascending.add added
  first entry := by
    rw [ProcedureTable.find?_add added, List.find?_append, ← answers.first]
    by_cases same : request.entry = entry <;> simp [same]

/-- What was asked for once is found as before, whatever is asked for later. -/
theorem find?_eq (answers : Answers table earlier) (others : Answers grown (earlier ++ later))
    (asked : request ∈ earlier) : grown.find? request.entry = table.find? request.entry := by
  obtain ⟨procedure, found⟩ : ∃ procedure,
      earlier.find? (·.entry = request.entry) = some procedure :=
    Option.isSome_iff_exists.mp (List.find?_isSome.mpr ⟨request, asked, by simp⟩)
  rw [others.first, answers.first, List.find?_append, found, Option.some_or]

theorem mem_entries_iff (answers : Answers table earlier) {entry : Place} :
    entry ∈ table.entries ↔ ∃ request ∈ earlier, request.entry = entry := by
  rw [← not_iff_not, ← ProcedureTable.find?_eq_none_iff, answers.first, List.find?_eq_none]
  simp

end Answers

section Steps

variable {state : Analysis} {earlier : List Procedure}

theorem addProcedure_answers (answers : Answers state.procedures earlier) {entry : Place}
    (absent : entry ∉ state.procedures.entries) (address : Address) (name : String)
    (callType : CallType) :
    ∃ table, state.addProcedure entry address name callType = .done { state with procedures := table } ∧
      Answers table (earlier ++ [⟨entry, address, name, callType, []⟩]) := by
  obtain ⟨grown, added⟩ :
      ∃ grown, state.procedures.add ⟨entry, address, name, callType, []⟩ = .ok grown :=
    ProcedureTable.exists_add absent
  exact ⟨grown, by rw [addProcedure, added], answers.add added⟩

theorem declareEntry_answers (answers : Answers state.procedures earlier) (entry : EntryPoint) :
    ∃ table, state.declareEntry entry = .done { state with procedures := table } ∧
      Answers table (earlier ++ (state.entryRequest? entry).toList) := by
  unfold declareEntry entryRequest?
  cases state.program.resolve entry.address with
  | none => exact ⟨state.procedures, rfl, by simpa using answers⟩
  | some place =>
      dsimp only
      split
      · rename_i present
        exact ⟨state.procedures, rfl, answers.known (ProcedureTable.contains_iff_mem_entries.mp present)⟩
      · rename_i absent
        exact addProcedure_answers answers (mt ProcedureTable.contains_iff_mem_entries.mpr absent) ..

theorem declareCallee_answers (answers : Answers state.procedures earlier) (reference : Reference)
    (target : Address) (entry : Place) (callType : CallType) :
    ∃ table, state.declareCallee reference target entry callType = .done { state with
        procedures := table
        diagnostics := state.diagnostics ++
          ((table.find? entry).bind (·.objection? reference callType)).toList } ∧
      Answers table (earlier ++ [⟨entry, target, state.procedureName target entry, callType, []⟩]) := by
  unfold declareCallee
  cases found : state.procedures.find? entry with
  | none =>
      obtain ⟨table, added, grown⟩ := addProcedure_answers answers
        (ProcedureTable.find?_eq_none_iff.mp found) target (state.procedureName target entry) callType
      refine ⟨table, ?_, grown⟩
      -- A new procedure has the distance of the call, which therefore does not contradict it.
      rw [grown.first, List.find?_append, ← answers.first, found]
      simp [Procedure.objection?, added]
  | some procedure =>
      have present : entry ∈ state.procedures.entries :=
        ProcedureTable.contains_iff_mem_entries.mp (by rw [ProcedureTable.contains, found]; rfl)
      refine ⟨state.procedures, ?_, answers.known present⟩
      by_cases same : procedure.callType = callType
      · simp [found, same, Procedure.objection?]
      · simp [found, same, Procedure.objection?, report]

theorem map_entry_callRequest? (state : Analysis) (reference : Reference) :
    (state.callRequest? reference).map Procedure.entry = callee? state.program reference := by
  unfold callRequest?
  cases points : reference.target with
  | none => simp [callee?, points]
  | some target =>
      cases call : CallType.ofKind? reference.kind with
      | none => simp [callee?, ← CallType.isSome_ofKind?, call]
      | some callType =>
          rw [callee?_eq_resolve points call]
          cases reached : state.program.resolve target <;> simp [reached]

theorem declareCall_answers (answers : Answers state.procedures earlier) (reference : Reference) :
    ∃ table, state.declareCall reference = .done { state with
        procedures := table
        diagnostics := state.diagnostics ++ (state.inconsistency? table reference).toList } ∧
      Answers table (earlier ++ (state.callRequest? reference).toList) := by
  rcases state.declareCall_cases reference with
    ⟨nowhere, same⟩ | ⟨target, entry, callType, points, call, reached, called⟩
  · have silent : state.callRequest? reference = none := by
      rwa [← map_entry_callRequest?, Option.map_eq_none_iff] at nowhere
    refine ⟨state.procedures, ?_, by simpa [silent] using answers⟩
    simp [same, inconsistency?, silent]
  · obtain ⟨table, declared, grown⟩ := declareCallee_answers answers reference target entry callType
    have request : state.callRequest? reference =
        some ⟨entry, target, state.procedureName target entry, callType, []⟩ := by
      rw [callee?_eq_resolve points call] at reached
      simp [callRequest?, points, call, reached]
    rw [called, declared]
    -- Entering the call itself changes no procedure.
    refine ⟨{ table with calls := table.calls.add reference }, ?_, ?_⟩
    · rw [inconsistency?, request]
      rfl
    · rw [request]
      exact ⟨grown.ascending, grown.first⟩

end Steps

section Runs

variable {state : Analysis} {earlier : List Procedure}

theorem forEach_declareEntry_answers (answers : Answers state.procedures earlier)
    (entries : List EntryPoint) :
    ∃ table, forEach declareEntry entries state = .done { state with procedures := table } ∧
      Answers table (earlier ++ entries.filterMap state.entryRequest?) := by
  induction entries generalizing state earlier with
  | nil => exact ⟨state.procedures, rfl, by simpa using answers⟩
  | cons entry rest ih =>
      obtain ⟨middle, declared, grown⟩ := declareEntry_answers answers entry
      let after : Analysis := { state with procedures := middle }
      obtain ⟨table, others, answered⟩ : ∃ table,
          forEach declareEntry rest after = .done { after with procedures := table } ∧
            Answers table (_ ++ rest.filterMap state.entryRequest?) := ih grown
      refine ⟨table, ?_, ?_⟩
      · rw [forEach, declared]
        exact others
      · cases asked : state.entryRequest? entry <;> simpa [asked] using answered

/-- The procedure at an entry is never replaced, so a finding about a call stays right whatever is asked
for later. -/
theorem inconsistency?_eq {table grown : ProcedureTable} {reference : Reference} {later : List Procedure}
    (answers : Answers table (earlier ++ (state.callRequest? reference).toList))
    (others : Answers grown (earlier ++ (state.callRequest? reference).toList ++ later)) :
    state.inconsistency? grown reference = state.inconsistency? table reference := by
  unfold inconsistency?
  cases asked : state.callRequest? reference with
  | none => rfl
  | some request =>
      have member : request ∈ earlier ++ (state.callRequest? reference).toList := by simp [asked]
      simp [answers.find?_eq others member]

theorem forEach_declareCall_answers (answers : Answers state.procedures earlier)
    (references : List Reference) :
    ∃ table, forEach declareCall references state = .done { state with
        procedures := table
        diagnostics := state.diagnostics ++ references.filterMap (state.inconsistency? table) } ∧
      Answers table (earlier ++ references.filterMap state.callRequest?) := by
  induction references generalizing state earlier with
  | nil => exact ⟨state.procedures, by simp [forEach], by simpa using answers⟩
  | cons reference rest ih =>
      obtain ⟨middle, declared, grown⟩ := declareCall_answers answers reference
      let after : Analysis := { state with
        procedures := middle
        diagnostics := state.diagnostics ++ (state.inconsistency? middle reference).toList }
      obtain ⟨table, others, answered⟩ : ∃ table,
          forEach declareCall rest after = .done { after with
            procedures := table
            diagnostics := after.diagnostics ++ rest.filterMap (state.inconsistency? table) } ∧
          Answers table (_ ++ rest.filterMap state.callRequest?) := ih grown
      have settled := inconsistency?_eq grown answered
      refine ⟨table, ?_, ?_⟩
      · rw [forEach, declared]
        refine others.trans ?_
        cases found : state.inconsistency? middle reference <;> simp [after, settled, found]
      · cases asked : state.callRequest? reference <;> simpa [asked] using answered

end Runs

theorem callRequest?_eq_none {state : Analysis} {reference : Reference}
    (noCall : reference.kind.isCall = false) : state.callRequest? reference = none := by
  rw [← Option.map_eq_none_iff, map_entry_callRequest?, callee?, noCall]
  rfl

theorem filterMap_calls {β : Type} {f : Reference → Option β}
    (silent : ∀ reference, reference.kind.isCall = false → f reference = none)
    (references : List Reference) :
    (references.filter (·.kind.isCall)).filterMap f = references.filterMap f := by
  rw [List.filterMap_filter]
  congr 1
  funext reference
  cases call : reference.kind.isCall with
  | true => rfl
  | false => exact (silent reference call).symm

/-- All that is asked for is declared, and all inconsistent calls are reported. -/
theorem declareAll_answers {state : Analysis} (bare : state.procedures.procedures = []) :
    Answers state.declareAll.procedures state.requests ∧
      state.declareAll.diagnostics = state.diagnostics ++
        state.references.toList.filterMap (state.inconsistency? state.declareAll.procedures) := by
  let calls := state.references.toList.filter (·.kind.isCall)
  obtain ⟨entered, declared, answers⟩ := forEach_declareEntry_answers (.nothing bare) state.entries
  let after : Analysis := { state with procedures := entered }
  obtain ⟨table, called, answered⟩ : ∃ table,
      forEach declareCall calls after = .done { after with
        procedures := table
        diagnostics := state.diagnostics ++ calls.filterMap (state.inconsistency? table) } ∧
      Answers table (state.entries.filterMap state.entryRequest? ++ calls.filterMap state.callRequest?) :=
    forEach_declareCall_answers answers calls
  -- The references that are no calls ask for nothing, so it makes no difference that they are left out.
  have asked : calls.filterMap state.callRequest? =
      state.references.toList.filterMap state.callRequest? :=
    filterMap_calls (fun _ => callRequest?_eq_none) _
  have found : calls.filterMap (state.inconsistency? table) =
      state.references.toList.filterMap (state.inconsistency? table) :=
    filterMap_calls (fun _ noCall => by simp [inconsistency?, callRequest?_eq_none noCall]) _
  rw [asked] at answered
  rw [found] at called
  have all : state.declareAll = { after with
      procedures := table
      diagnostics := state.diagnostics ++
        state.references.toList.filterMap (state.inconsistency? table) } := by
    rw [declareAll, declared]
    exact congrArg Outcome.state called
  rw [all]
  exact ⟨answered, rfl⟩

theorem inconsistency?_mapBlocks (state : Analysis) (table : ProcedureTable)
    (blocks : Procedure → List Place) :
    state.inconsistency? (table.mapBlocks blocks) = state.inconsistency? table := by
  funext reference
  simp only [inconsistency?, ProcedureTable.find?_mapBlocks, Option.bind_eq_bind, Option.bind_map]
  rfl

theorem exists_mem_requests_iff {state : Analysis} {place : Place} :
    (∃ request ∈ state.requests, request.entry = place) ↔
      (∃ entry ∈ state.entries, state.program.resolve entry.address = some place) ∨
        ∃ reference ∈ state.references.toList, callee? state.program reference = some place := by
  have entered (entry : EntryPoint) :
      (state.entryRequest? entry).map Procedure.entry = state.program.resolve entry.address := by
    rw [entryRequest?, Option.map_map]
    exact Option.map_id'
  simp only [← entered, ← map_entry_callRequest?, requests, List.mem_append, List.mem_filterMap,
    Option.map_eq_some_iff]
  grind

/-- Where nothing has been declared, there is one procedure at each place to which an entry point or a
call resolves, and no other. It is the one for which the first of them asked, entry points before calls,
with blocks of its own. In their order, exactly those calls are findings whose distance is not that of the
procedure that they reach. -/
theorem findProcedures_keeps_first (state : Analysis) (bare : state.procedures.procedures = []) :
    let outcome := state.findProcedures
    let table := outcome.state.procedures
    outcome.fault = none ∧ table.entries.Pairwise (· < ·) ∧
    (∀ place, place ∈ table.entries ↔
      (∃ entry ∈ state.entries, state.program.resolve entry.address = some place) ∨
        ∃ reference ∈ state.references.toList, callee? state.program reference = some place) ∧
    (∀ procedure ∈ table.procedures, ∃ request,
      state.requests.find? (·.entry = procedure.entry) = some request ∧
        procedure = { request with blocks := procedure.blocks }) ∧
    outcome.state.diagnostics = state.diagnostics ++
      state.references.toList.filterMap (state.inconsistency? table) := by
  intro outcome table
  obtain ⟨answers, findings⟩ := declareAll_answers bare
  obtain ⟨-, -, -, result⟩ := state.findProcedures_eq
  have linked : table = state.declareAll.procedures.mapBlocks
      fun procedure => state.declareAll.blocksOf procedure.entry :=
    congrArg (·.state.procedures) result
  have reported : outcome.state.diagnostics = state.declareAll.diagnostics :=
    congrArg (·.state.diagnostics) result
  rw [linked, reported, inconsistency?_mapBlocks, ProcedureTable.entries_mapBlocks]
  refine ⟨state.findProcedures_derives.faultless, List.pairwise_map.mpr answers.ascending,
    fun place => ?_, fun procedure member => ?_, findings⟩
  · rw [answers.mem_entries_iff, exists_mem_requests_iff]
  · obtain ⟨request, listed, rfl⟩ := List.mem_map.mp member
    refine ⟨request, ?_, rfl⟩
    rw [← answers.first, answers.ascending.find?_eq_some_iff]
    exact ⟨listed, rfl⟩

/-- Two segments of one image, of which the second starts within the first, and a group of both. -/
def nested : Program where
  images := #[.fresh 0 "code" #[0xC3]]
  segments := [⟨0, "outer", "CODE", 0, 0, 0x20⟩, ⟨1, "inner", "CODE", 0, 8, 0x10⟩]
  groups := [⟨0, "both", [1, 0]⟩]
  externals := [⟨0, "missing"⟩]
  publics := [⟨"callee", ⟨.segment 1, 0⟩⟩]
  frameBase := none

/-- Two entry points for one place and one for none. Calls of both distances go to each of two places,
under three addresses. A jump, a call to nowhere and a call to an unknown target ask for nothing. -/
def aliased : Analysis :=
  { Analysis.fresh nested {} with
    entries := [⟨⟨.segment 0, 0⟩, some "start", .near⟩, ⟨⟨.group 0, 0⟩, some "again", .far⟩,
      ⟨⟨.external 0, 0⟩, none, .near⟩]
    references := [
      ⟨some ⟨.segment 0, 2⟩, some ⟨.group 0, 8⟩, .farCall, none⟩,
      ⟨some ⟨.segment 0, 4⟩, some ⟨.segment 0, 12⟩, .nearJump, none⟩,
      ⟨some ⟨.segment 0, 5⟩, some ⟨.segment 1, 0⟩, .nearCall, none⟩,
      ⟨some ⟨.segment 0, 6⟩, none, .nearCall, none⟩,
      ⟨some ⟨.segment 0, 7⟩, some ⟨.external 0, 0⟩, .farCall, none⟩,
      ⟨none, some ⟨.segment 0, 0⟩, .farCall, none⟩,
      ⟨some ⟨.segment 0, 9⟩, some ⟨.segment 0, 8⟩, .farCall, none⟩].foldl Graph.add (.empty none) }

theorem aliased_findProcedures_keeps_first :
    let outcome := aliased.findProcedures
    aliased.procedures.procedures = [] ∧ outcome.fault = none ∧
    outcome.state.procedures.procedures =
      [⟨⟨0, 0⟩, ⟨.segment 0, 0⟩, "start", .near, []⟩, ⟨⟨0, 8⟩, ⟨.group 0, 8⟩, "callee", .far, []⟩] ∧
    outcome.state.diagnostics =
      [.found (some ⟨.segment 0, 5⟩) .inconsistentCall "callee is called near but was first seen as far",
        .found none .inconsistentCall "start is called far but was first seen as near"] ∧
    ∀ reference ∈ aliased.references.toList, callee? nested reference ≠ some ⟨0, 12⟩ := by
  intro outcome
  obtain ⟨faultless, -, declared, -, findings⟩ := findProcedures_keeps_first aliased rfl
  have listed : outcome.state.procedures.procedures =
      [⟨⟨0, 0⟩, ⟨.segment 0, 0⟩, "start", .near, []⟩,
        ⟨⟨0, 8⟩, ⟨.group 0, 8⟩, "callee", .far, []⟩] := by
    decide +kernel
  refine ⟨rfl, faultless, listed, findings.trans ?_, fun reference member reached => ?_⟩
  · decide +kernel
  · have entered : (⟨0, 12⟩ : Place) ∈ outcome.state.procedures.entries :=
      (declared _).mpr (.inr ⟨reference, member, reached⟩)
    rw [ProcedureTable.entries, listed] at entered
    exact absurd entered (by decide)

end Analysis

end RealMode
