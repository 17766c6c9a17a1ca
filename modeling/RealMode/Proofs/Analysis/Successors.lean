import RealMode.Proofs.Analysis.Procedures
import RealMode.Proofs.Analysis.Settings
import RealMode.Proofs.Place

/-! What the procedures of an analysis depend on.

They are declared at entry points and at calls; other references, the edges, the settings and the
tasks do not matter there. The blocks of a procedure depend on the blocks between which control passes,
and not on the kind of the edges that say so, calls apart. -/

set_option autoImplicit false

namespace RealMode

/-- Both edges are calls between the same blocks, or neither is a call. -/
def FlowEdge.Alike (left right : FlowEdge) : Prop :=
  left.source = right.source ∧ left.target = right.target ∧
    decide (left.kind = .call) = decide (right.kind = .call)

theorem FlowEdge.Alike.refl (edge : FlowEdge) : edge.Alike edge := ⟨rfl, rfl, rfl⟩

namespace FlowGraph

/-- Control passes from one block to another, by a call or without one. -/
def Passes (flow : FlowGraph) (call : Bool) (source target : Place) : Prop :=
  ∃ edge ∈ flow.edges, edge.source = source ∧ edge.target = target ∧
    decide (edge.kind = .call) = call

/-- Control passes between the same blocks in both graphs. -/
def Agrees (left right : FlowGraph) : Prop :=
  ∀ call source target, left.Passes call source target ↔ right.Passes call source target

theorem Passes.of_alike {left right : FlowGraph}
    (alike : ∀ edge ∈ left.edges, ∃ other ∈ right.edges, other.Alike edge) {call : Bool}
    {source target : Place} (passes : left.Passes call source target) :
    right.Passes call source target := by
  obtain ⟨edge, member, leaves, arrives, kind⟩ := passes
  obtain ⟨other, otherMember, sources, targets, kinds⟩ := alike edge member
  exact ⟨other, otherMember, sources.trans leaves, targets.trans arrives, kinds.trans kind⟩

theorem Agrees.of_alike {left right : FlowGraph}
    (forth : ∀ edge ∈ left.edges, ∃ other ∈ right.edges, other.Alike edge)
    (back : ∀ edge ∈ right.edges, ∃ other ∈ left.edges, other.Alike edge) : left.Agrees right :=
  fun _ _ _ => ⟨.of_alike forth, .of_alike back⟩

theorem Adjacent.mem_successors_iff {flow : FlowGraph} (adjacent : flow.Adjacent)
    {source target : Place} :
    target ∈ flow.successors source ↔ ∃ call, flow.Passes call source target := by
  simp only [successors, mem_distinctFrom, List.mem_map, adjacent.mem_outgoing_iff,
    List.not_mem_nil, not_false_eq_true, and_true]
  constructor
  · rintro ⟨edge, ⟨member, leaves⟩, arrives⟩
    exact ⟨_, edge, member, leaves, arrives, rfl⟩
  · rintro ⟨_, edge, member, leaves, arrives, -⟩
    exact ⟨edge, ⟨member, leaves⟩, arrives⟩

theorem Agrees.successors_perm {left right : FlowGraph} (agrees : left.Agrees right)
    (leftAdjacent : left.Adjacent) (rightAdjacent : right.Adjacent) (place : Place) :
    (left.successors place).Perm (right.successors place) := by
  have members (target : Place) :
      target ∈ left.successors place ↔ target ∈ right.successors place := by
    rw [leftAdjacent.mem_successors_iff, rightAdjacent.mem_successors_iff]
    exact exists_congr fun call => agrees call place target
  exact (List.perm_ext_iff_of_nodup (nodup_distinctFrom _ _) (nodup_distinctFrom _ _)).mpr members

end FlowGraph

namespace Analysis

section Blocks

theorem nodup_reach {next : Place → List Place} {rounds : Nat} {frontier seen : List Place}
    (nodup : seen.Nodup) : (reach next rounds frontier seen).Nodup := by
  induction rounds generalizing frontier seen with
  | zero => exact nodup
  | succ rounds ih =>
      cases frontier with
      | nil => exact nodup
      | cons first rest =>
          refine ih (nodup.append (FlowGraph.nodup_distinctFrom _ _) fun place earlier new => ?_)
          exact (FlowGraph.mem_distinctFrom.mp new).2 earlier

theorem nodup_blocksOf (state : Analysis) (entry : Place) : (state.blocksOf entry).Nodup := by
  unfold blocksOf
  split
  · exact List.nodup_nil
  · exact (List.mergeSort_perm _ _).nodup_iff.mpr (nodup_reach (List.nodup_singleton entry))

theorem ascending_blocksOf (state : Analysis) (entry : Place) :
    (state.blocksOf entry).Pairwise fun left right => ¬right < left := by
  unfold blocksOf
  split
  · exact .nil
  · refine (List.pairwise_mergeSort ?_ ?_ _).imp fun ordered => by simpa using ordered
    · intro left middle right first second
      simp only [Bool.not_eq_true', decide_eq_false_iff_not, Place.lt_iff] at first second ⊢
      omega
    · intro left right
      simp only [Bool.or_eq_true, Bool.not_eq_true', decide_eq_false_iff_not, Place.lt_iff]
      omega

theorem stays_iff {state : Analysis} (adjacent : state.flow.Adjacent) {source target : Place} :
    state.Stays source target ↔
      state.flow.Passes false source target ∧ target ∉ state.procedures.entries := by
  unfold Stays FlowGraph.Passes
  rw [mem_inside_iff adjacent]
  simp only [decide_eq_false_iff_not]
  constructor
  · rintro ⟨edge, member, leaves, arrives, kind, other⟩
    exact ⟨⟨edge, member, leaves, arrives, kind⟩, other⟩
  · rintro ⟨⟨edge, member, leaves, arrives, kind⟩, other⟩
    exact ⟨edge, member, leaves, arrives, kind, other⟩

/-- A procedure has the same blocks in two states between whose blocks control passes alike. -/
theorem blocksOf_congr {left right : Analysis} (blocks : left.blocks = right.blocks)
    (entries : left.procedures.entries = right.procedures.entries) (ordered : right.blocks.Ordered)
    (leftAdjacent : left.flow.Adjacent) (rightAdjacent : right.flow.Adjacent)
    (agrees : left.flow.Agrees right.flow) (entry : Place) :
    left.blocksOf entry = right.blocksOf entry := by
  have stays : left.Stays = right.Stays := by
    funext source target
    rw [eq_iff_iff, stays_iff leftAdjacent, stays_iff rightAdjacent, entries, agrees]
  have members (place : Place) : place ∈ left.blocksOf entry ↔ place ∈ right.blocksOf entry := by
    rw [mem_blocksOf_iff (blocks ▸ ordered) leftAdjacent, mem_blocksOf_iff ordered rightAdjacent,
      blocks, stays]
  -- Both lists are sorted and have no place twice, so the same places make the same list.
  exact List.Perm.eq_of_pairwise (fun _ _ _ _ low high => Place.eq_of_not_lt high low)
    (ascending_blocksOf left entry) (ascending_blocksOf right entry)
    ((List.perm_ext_iff_of_nodup (nodup_blocksOf _ _) (nodup_blocksOf _ _)).mpr members)

end Blocks

section Declarations

variable (state : Analysis) (guise : Guise)

theorem addProcedure_recast (entry : Place) (address : Address) (name : String)
    (callType : CallType) :
    (state.recast guise).addProcedure entry address name callType =
      (state.addProcedure entry address name callType).recast guise := by
  simp only [addProcedure, recast]
  split <;> rfl

theorem declareEntry_recast (entry : EntryPoint) :
    (state.recast guise).declareEntry entry = (state.declareEntry entry).recast guise := by
  have program : (state.recast guise).program = state.program := rfl
  have procedures : (state.recast guise).procedures = state.procedures := rfl
  simp only [declareEntry, program, procedures, addProcedure_recast]
  split
  · rfl
  · split <;> rfl

theorem declareCallee_recast (reference : Reference) (target : Address) (entry : Place)
    (callType : CallType) :
    (state.recast guise).declareCallee reference target entry callType =
      (state.declareCallee reference target entry callType).recast guise := by
  have procedures : (state.recast guise).procedures = state.procedures := rfl
  simp only [declareCallee, procedures, addProcedure_recast]
  split
  · rfl
  · split <;> rfl

theorem declareCall_recast (reference : Reference) :
    (state.recast guise).declareCall reference = (state.declareCall reference).recast guise := by
  have program : (state.recast guise).program = state.program := rfl
  simp only [declareCall, program, declareCallee_recast]
  split
  · split
    · rfl
    · refine Outcome.andThen_recast (fun state => ?_) _
      have procedures : (state.recast guise).procedures = state.procedures := rfl
      simp only [procedures]
      split <;> rfl
  · rfl

theorem forEach_recast {α : Type} {step : Analysis → α → Outcome}
    (kept : ∀ state item, step (state.recast guise) item = (step state item).recast guise)
    (items : List α) :
    forEach step items (state.recast guise) = (forEach step items state).recast guise := by
  induction items generalizing state with
  | nil => rfl
  | cons item rest ih =>
      have fault : ((step state item).recast guise).fault = (step state item).fault := rfl
      simp only [forEach, kept, fault]
      split
      · exact ih _
      · rfl

variable {state guise}

/-- Of the references, only calls matter to the declarations. -/
theorem declareAll_recast
    (calls : (guise.references state.references).toList.filter (·.kind.isCall) =
      state.references.toList.filter (·.kind.isCall)) :
    (state.recast guise).declareAll = state.declareAll.recast guise := by
  have entries : (state.recast guise).entries = state.entries := rfl
  have references : (state.recast guise).references = guise.references state.references := rfl
  unfold declareAll
  rw [entries, references, calls, forEach_recast _ _ fun state => declareEntry_recast state guise]
  exact congrArg Outcome.state
    (forEach_recast _ _ (fun state => declareCall_recast state guise) _)

section Procedures

variable (calls : (guise.references state.references).toList.filter (·.kind.isCall) =
  state.references.toList.filter (·.kind.isCall))

include calls

theorem findProcedures_recast_diagnostics :
    (state.recast guise).findProcedures.state.diagnostics =
      state.findProcedures.state.diagnostics := by
  obtain ⟨-, -, -, result⟩ := state.findProcedures_eq
  obtain ⟨-, -, -, otherResult⟩ := (state.recast guise).findProcedures_eq
  rw [result, otherResult, declareAll_recast calls]
  rfl

/-- Where control passes between the same blocks, the same procedures and data items are found. -/
theorem findProcedures_recast (ordered : state.blocks.Ordered) (adjacent : state.flow.Adjacent)
    (otherAdjacent : (guise.flow state.flow).Adjacent)
    (agrees : (guise.flow state.flow).Agrees state.flow) :
    (state.recast guise).findProcedures = state.findProcedures.recast guise := by
  obtain ⟨declared, -, -, result⟩ := state.findProcedures_eq
  obtain ⟨-, -, -, otherResult⟩ := (state.recast guise).findProcedures_eq
  rw [result, otherResult, declareAll_recast calls]
  rw [← declared.flow] at adjacent otherAdjacent agrees
  rw [← declared.blocks] at ordered
  generalize state.declareAll = called at ordered adjacent otherAdjacent agrees
  have blocks : (called.recast guise).blocks = called.blocks := rfl
  have entries : (called.recast guise).procedures.entries = called.procedures.entries := rfl
  have members := blocksOf_congr blocks entries ordered otherAdjacent adjacent agrees
  have assigned : (called.recast guise).assignBlocks = called.assignBlocks.recast guise := by
    simp only [assignBlocks, members]
    rfl
  rw [assigned]
  rfl

end Procedures

end Declarations

end Analysis

end RealMode
