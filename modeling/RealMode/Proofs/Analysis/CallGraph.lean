import Mathlib.Data.List.Induction
import RealMode.Proofs.Analysis.Reruns

/-! The calls between procedures.

Finding procedures enters every recorded call whose target resolves, the calls of earlier analyses
among them, and no call is ever taken out again. So the calls of the first of several analyses are
entered once for each of them. -/

set_option autoImplicit false

namespace RealMode.Analysis

/-- The recorded calls whose targets resolve. -/
def resolvedCalls (state : Analysis) : List Reference :=
  state.references.toList.filter fun reference => (callee? state.program reference).isSome

theorem Grows.resolvedCalls {before after : Analysis} (grows : before.Grows after) :
    before.resolvedCalls <+: after.resolvedCalls := by
  have resolve : after.program.resolve = before.program.resolve := funext grows.remarked.resolve
  unfold Analysis.resolvedCalls callee?
  rw [resolve]
  exact grows.references.filter _

theorem Derived.resolvedCalls {state after : Analysis} (derived : state.Derived after) :
    after.resolvedCalls = state.resolvedCalls := by
  obtain ⟨_, _, _, _, rfl⟩ := derived
  rfl

section Declarations

variable (state : Analysis)

theorem calls_addProcedure (entry : Place) (address : Address) (name : String) (callType : CallType) :
    (state.addProcedure entry address name callType).state.procedures.calls =
      state.procedures.calls := by
  have kept := state.procedures.calls_add ⟨entry, address, name, callType, []⟩
  unfold addProcedure
  split <;>
    · rename_i outcome
      rw [outcome] at kept
      exact kept

theorem calls_declareEntry (entry : EntryPoint) :
    (state.declareEntry entry).state.procedures.calls = state.procedures.calls := by
  unfold declareEntry
  split
  · rfl
  · split
    · rfl
    · exact state.calls_addProcedure ..

theorem calls_declareCallee (reference : Reference) (target : Address) (entry : Place)
    (callType : CallType) :
    (state.declareCallee reference target entry callType).state.procedures.calls =
      state.procedures.calls := by
  unfold declareCallee
  split
  · exact state.calls_addProcedure ..
  · split <;> rfl

theorem calls_declareCall (reference : Reference) :
    (state.declareCall reference).state.procedures.calls.toList = state.procedures.calls.toList ++
      [reference].filter fun call => (callee? state.program call).isSome := by
  rcases state.declareCall_cases reference with
    ⟨nowhere, same⟩ | ⟨target, entry, callType, -, -, reached, called⟩
  · rw [same]
    simp [nowhere, Outcome.done]
  · have kept := state.calls_declareCallee reference target entry callType
    rw [called]
    simp [reached, kept, Outcome.done, Graph.toList_add]

theorem calls_forEach_declareEntry (entries : List EntryPoint) :
    (forEach declareEntry entries state).state.procedures.calls = state.procedures.calls := by
  induction entries generalizing state with
  | nil => rfl
  | cons entry rest ih =>
      simp only [forEach, (declareEntry_declares state entry).faultless]
      exact (ih _).trans (state.calls_declareEntry entry)

theorem calls_forEach_declareCall (references : List Reference) :
    (forEach declareCall references state).state.procedures.calls.toList =
      state.procedures.calls.toList ++
        references.filter fun call => (callee? state.program call).isSome := by
  induction references generalizing state with
  | nil => rw [List.filter_nil, List.append_nil]; rfl
  | cons reference rest ih =>
      have declares := declareCall_declares state reference
      simp only [forEach, declares.faultless]
      rw [ih, declares.declared.program, calls_declareCall, List.append_assoc, ← List.filter_append,
        List.singleton_append]

end Declarations

/-- All recorded calls are entered behind those that are there, whether they are among them or not. -/
theorem calls_findProcedures (state : Analysis) :
    state.findProcedures.state.procedures.calls.toList =
      state.procedures.calls.toList ++ state.resolvedCalls := by
  obtain ⟨-, -, -, result⟩ := state.findProcedures_eq
  obtain ⟨-, entered, -⟩ := state.declareEntries_declares
  have onlyCalls : (state.references.toList.filter (·.kind.isCall)).filter
      (fun call => (callee? state.program call).isSome) = state.resolvedCalls := by
    rw [List.filter_filter]
    apply List.filter_congr
    intro reference _
    cases isCall : reference.kind.isCall <;> simp [callee?, isCall]
  calc state.findProcedures.state.procedures.calls.toList
      = state.declareAll.procedures.calls.toList := by rw [result]; rfl
    _ = state.procedures.calls.toList ++ state.resolvedCalls := by
        rw [declareAll, calls_forEach_declareCall, calls_forEach_declareEntry, entered.program, onlyCalls]

section Run

variable {program : Program} {decoder : Decoder} {settings : Settings} {state : Analysis}
  (regular : program.Regular) (placed : decoder.Placed)

include regular placed

theorem run_calls (reached : Reached decoder program settings state) (entries : List EntryPoint) :
    (run decoder state entries).state.procedures.calls.toList =
      state.procedures.calls.toList ++ (run decoder state entries).state.resolvedCalls := by
  let found := (findBlocks decoder state entries).state
  have foundReached : Reached decoder program settings found :=
    (reached.findBlocks regular placed entries).reached
  have kept : found.procedures = state.procedures :=
    congrArg (·.2.2.1) (standing_findBlocks decoder state entries)
  obtain ⟨flow, linked, -⟩ := linkBlocks_eq (foundReached.linkBlocks regular placed).faultless
  obtain ⟨findings, finished⟩ := run_eq regular placed reached entries
  have derived := (run_derived regular placed reached entries).resolvedCalls
  calc (run decoder state entries).state.procedures.calls.toList
      = found.linkBlocks.state.findProcedures.state.procedures.calls.toList := by rw [finished]; rfl
    _ = found.procedures.calls.toList ++ found.resolvedCalls := by
        rw [calls_findProcedures, linked]
        rfl
    _ = _ := by rw [kept, derived]

end Run

/-- The states in which analyses in a row end, each of them started where the one before ends. -/
def stages (decoder : Decoder) (state : Analysis) : List (List EntryPoint) → List Analysis
  | [] => []
  | entries :: rest =>
      let next := (run decoder state entries).state
      next :: stages decoder next rest

theorem stages_concat (decoder : Decoder) (state : Analysis) (runs : List (List EntryPoint))
    (entries : List EntryPoint) :
    stages decoder state (runs ++ [entries]) = stages decoder state runs ++
      [after decoder state ((runs ++ [entries]).map .analyze)] := by
  induction runs generalizing state with
  | nil => rfl
  | cons first rest ih => exact congrArg (List.cons _) (ih _)

/-- Each analysis enters the calls that are recorded when it ends, and none of these is ever lost. -/
theorem analyses_calls {program : Program} {decoder : Decoder} (regular : program.Regular)
    (placed : decoder.Placed) (settings : Settings) (runs : List (List EntryPoint)) :
    let final := after decoder (.fresh program settings) (runs.map .analyze)
    final.procedures.calls.toList =
        (stages decoder (.fresh program settings) runs).flatMap resolvedCalls ∧
      ∀ state ∈ stages decoder (.fresh program settings) runs,
        state.resolvedCalls <+: final.resolvedCalls := by
  -- Each analysis starts from the end of those before it, so the induction takes off the last one.
  induction runs using List.reverseRecOn with
  | nil => exact ⟨rfl, nofun⟩
  | append_singleton runs entries ih =>
      obtain ⟨calls, kept⟩ := ih
      intro final
      let before := after decoder (.fresh program settings) (runs.map .analyze)
      have start : Reached decoder program settings (.fresh program settings) := .refl
      have reached : Reached decoder program settings before := start.after regular placed _
      have last : final = (run decoder before entries).state := by
        unfold final before
        rw [List.map_append, List.map_singleton, after_concat]
        rfl
      have grows : before.Grows final := last ▸ reached.run_grows regular placed entries
      rw [stages_concat]
      constructor
      · rw [List.flatMap_append, List.flatMap_singleton, ← calls]
        change final.procedures.calls.toList = before.procedures.calls.toList ++ final.resolvedCalls
        rw [last]
        exact run_calls regular placed reached entries
      · intro state member
        rcases List.mem_append.mp member with earlier | latest
        · exact (kept state earlier).trans grows.resolvedCalls
        · obtain rfl := List.mem_singleton.mp latest
          exact List.prefix_rfl

/-- The calls after some analyses in a row are those recorded at the end of the first one, then those
at the end of the second one, and so on. So they are calls that are recorded with a target that
resolves, and each of these is among them at least as often as it is recorded. It is so exactly as
often if and only if no analysis but the last one leaves such a call. -/
theorem analyses_repeat_calls {program : Program} {decoder : Decoder} (built : program.Built)
    (placed : decoder.Placed) (settings : Settings) (runs : List (List EntryPoint)) :
    let ends := stages decoder (.fresh program settings) runs
    let final := after decoder (.fresh program settings) (runs.map .analyze)
    let calls := final.procedures.calls.toList
    calls = ends.flatMap resolvedCalls ∧
    (∀ call ∈ calls, call ∈ final.resolvedCalls) ∧
    (∀ call, final.resolvedCalls.count call ≤ calls.count call) ∧
    ((∀ call, calls.count call = final.resolvedCalls.count call) ↔
      ∀ state ∈ ends.dropLast, state.resolvedCalls = []) := by
  intro ends final calls
  obtain ⟨listed, kept⟩ : calls = ends.flatMap resolvedCalls ∧
      ∀ state ∈ ends, state.resolvedCalls <+: final.resolvedCalls :=
    analyses_calls built.regular placed settings runs
  have recorded : ∀ call ∈ calls, call ∈ final.resolvedCalls := by
    intro call member
    rw [listed, List.mem_flatMap] at member
    obtain ⟨state, stage, resolved⟩ := member
    exact (kept state stage).subset resolved
  have parted : calls = ends.dropLast.flatMap resolvedCalls ++ final.resolvedCalls := by
    rw [listed]
    unfold ends final
    rcases List.eq_nil_or_concat runs with rfl | ⟨rest, entries, rfl⟩
    · rfl
    · rw [List.concat_eq_append, stages_concat, List.dropLast_concat, List.flatMap_append,
        List.flatMap_singleton]
  refine ⟨listed, recorded, fun call => ?_, ?_⟩
  · rw [parted, List.count_append]
    exact Nat.le_add_left ..
  · rw [← List.flatMap_eq_nil_iff, parted]
    constructor
    · intro once
      apply List.eq_nil_iff_forall_not_mem.mpr
      intro call member
      have occurs := List.count_pos_iff.mpr member
      have counted := once call
      rw [List.count_append] at counted
      omega
    · intro nothing call
      rw [nothing, List.nil_append]

/-- A call of the procedure behind a return. -/
def caller : Program where
  images := #[Image.fresh 0 "code" #[0xe8, 1, 0, 0xc3, 0xc3]]
  segments := [⟨0, "text", "CODE", 0, 0, 5⟩]
  groups := []
  externals := []
  publics := []
  frameBase := none

theorem caller_built : caller.Built := by
  have image := Program.Built.empty.addImage "code" #[0xe8, 1, 0, 0xc3, 0xc3]
  exact image.addSegment "text" "CODE" 0 0 5

def callerDecoder : Decoder :=
  Script.decoder [⟨0, 0, .instruction 3 "call 0004" (.call false) [.plain (.relative 4)]⟩,
    ⟨0, 3, .instruction 1 "ret" .ret []⟩, ⟨0, 4, .instruction 1 "ret" .ret []⟩]

/-- The state after an analysis of the caller and one without entry points. -/
def calledAgain : Analysis :=
  after callerDecoder (.fresh caller {}) ([[sampleEntry], []].map .analyze)

/-- The second analysis without entry points enters the call once more, since the first one leaves
it. -/
theorem caller_analyses_repeat_calls :
    caller.Built ∧ callerDecoder.Placed ∧ calledAgain.procedures.calls.toList.length = 2 ∧
      (∀ call ∈ calledAgain.procedures.calls.toList, call ∈ calledAgain.resolvedCalls) ∧
      ¬∀ state ∈ (stages callerDecoder (.fresh caller {}) [[sampleEntry], []]).dropLast,
        state.resolvedCalls = [] := by
  have placed : callerDecoder.Placed := Script.decoder_placed (by decide)
  obtain ⟨-, recorded, -, once⟩ := analyses_repeat_calls caller_built placed {} [[sampleEntry], []]
  have twice : ¬∀ call, calledAgain.procedures.calls.toList.count call =
      calledAgain.resolvedCalls.count call := by
    intro same
    have call := same ⟨some ⟨.segment 0, 0⟩, some ⟨.segment 0, 4⟩, .nearCall, none⟩
    revert call
    decide +kernel
  exact ⟨caller_built, placed, by decide +kernel, recorded, mt once.mpr twice⟩

/-- A call that is recorded once is among the calls twice. -/
theorem caller_call_counted_twice :
    ∃ call ∈ calledAgain.resolvedCalls, calledAgain.references.toList.count call = 1 ∧
      calledAgain.procedures.calls.toList.count call = 2 := by
  decide +kernel

end RealMode.Analysis
