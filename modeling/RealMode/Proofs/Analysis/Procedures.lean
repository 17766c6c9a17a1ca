import Mathlib.Data.List.Perm.Subperm
import RealMode.Proofs.Analysis.Connection

/-! The procedures to which blocks and data belong.

The blocks of a procedure are those that control reaches from its entry without a call and without
passing another entry. Every edge that leads out of a procedure leads to an entry, so no block that
an entry point reaches is left out. -/

set_option autoImplicit false

namespace RealMode.Analysis

section Search

variable {next : Place → List Place} {rounds : Nat} {frontier : List Place}

theorem mem_reach_of_mem {seen : List Place} {place : Place} (known : place ∈ seen) :
    place ∈ reach next rounds frontier seen := by
  induction rounds generalizing frontier seen with
  | zero => exact known
  | succ rounds ih =>
      cases frontier with
      | nil => exact known
      | cons first rest => exact ih (List.mem_append_left _ known)

/-- A search finds only what it can step to from what it has seen. -/
theorem exists_path_of_mem_reach {seen : List Place} {place : Place} (known : frontier ⊆ seen)
    (found : place ∈ reach next rounds frontier seen) :
    ∃ root ∈ seen, Relation.ReflTransGen (fun source target => target ∈ next source) root place := by
  induction rounds generalizing frontier seen with
  | zero => exact ⟨place, found, .refl⟩
  | succ rounds ih =>
      cases frontier with
      | nil => exact ⟨place, found, .refl⟩
      | cons first rest =>
          obtain ⟨firstKnown, restKnown⟩ := List.cons_subset.mp known
          have wider : rest ++ unseen seen (next first) ⊆ seen ++ unseen seen (next first) :=
            List.append_subset.mpr ⟨List.Subset.trans restKnown (List.subset_append_left _ _),
              List.subset_append_right _ _⟩
          obtain ⟨root, rootKnown, path⟩ := ih wider found
          rcases List.mem_append.mp rootKnown with earlier | new
          · exact ⟨root, earlier, path⟩
          · exact ⟨first, firstKnown, .head (FlowGraph.mem_distinctFrom.mp new).1 path⟩

/-- A search that never leaves a list of places, and has a round for each of them, ends with a set
that is closed. -/
theorem reach_closed {places visited : List Place} (bounded : ∀ place ∈ places, next place ⊆ places)
    (nodup : (visited ++ frontier).Nodup) (known : visited ++ frontier ⊆ places)
    (closed : ∀ place ∈ visited, next place ⊆ visited ++ frontier)
    (enough : places.length ≤ visited.length + rounds) :
    ∀ place ∈ reach next rounds frontier (visited ++ frontier),
      next place ⊆ reach next rounds frontier (visited ++ frontier) := by
  -- What has been seen is what has been visited, followed by the frontier. Each round moves the
  -- first place of the frontier to the other side.
  induction rounds generalizing frontier visited with
  | zero =>
      have few := (nodup.subperm known).length_le
      rw [List.length_append] at few
      have done : frontier = [] := List.eq_nil_of_length_eq_zero (by omega)
      subst done
      rw [List.append_nil] at closed
      simpa [reach] using closed
  | succ rounds ih =>
      cases frontier with
      | nil =>
          rw [List.append_nil] at closed
          simpa [reach] using closed
      | cons first rest =>
          let fresh := unseen (visited ++ first :: rest) (next first)
          have moved : (visited ++ [first]) ++ (rest ++ fresh) = (visited ++ first :: rest) ++ fresh := by
            simp
          have firstKnown : first ∈ places := known (by simp)
          rw [reach]
          rw [← moved]
          apply ih
          · rw [moved]
            refine nodup.append (FlowGraph.nodup_distinctFrom _ _) fun place earlier new => ?_
            exact (FlowGraph.mem_distinctFrom.mp new).2 earlier
          · rw [moved]
            refine List.append_subset.mpr ⟨known, fun place new => ?_⟩
            exact bounded first firstKnown (FlowGraph.mem_distinctFrom.mp new).1
          · rw [moved]
            intro place member
            rcases List.mem_append.mp member with earlier | last
            · exact List.Subset.trans (closed place earlier) (List.subset_append_left _ _)
            · rw [List.mem_singleton.mp last]
              intro target arrives
              by_cases seen : target ∈ visited ++ first :: rest
              · exact List.mem_append_left _ seen
              · exact List.mem_append_right _ (FlowGraph.mem_distinctFrom.mpr ⟨arrives, seen⟩)
          · rw [List.length_append, List.length_singleton]
            omega

end Search

theorem mem_inside_iff {flow : FlowGraph} (adjacent : flow.Adjacent) {entries : List Place}
    {source target : Place} :
    target ∈ inside flow entries source ↔
      ∃ edge ∈ flow.edges, edge.source = source ∧ edge.target = target ∧ edge.kind ≠ .call ∧
        target ∉ entries := by
  simp only [inside, List.mem_map, List.mem_filter, adjacent.mem_outgoing_iff, Bool.and_eq_true,
    decide_eq_true_eq, Bool.not_eq_true', List.contains_eq_mem, decide_eq_false_iff_not]
  constructor
  · rintro ⟨edge, ⟨⟨member, source⟩, kind, other⟩, rfl⟩
    exact ⟨edge, member, source, rfl, kind, other⟩
  · rintro ⟨edge, member, source, rfl, kind, other⟩
    exact ⟨edge, ⟨⟨member, source⟩, kind, other⟩, rfl⟩

/-- Control passes between two places without a call and without entering a procedure. -/
def Stays (state : Analysis) (source target : Place) : Prop :=
  target ∈ inside state.flow state.procedures.entries source

/-- The blocks of a procedure are those that control reaches from its entry without leaving it. -/
theorem mem_blocksOf_iff {state : Analysis} (ordered : state.blocks.Ordered)
    (adjacent : state.flow.Adjacent) {entry place : Place} :
    place ∈ state.blocksOf entry ↔ (∃ block ∈ state.blocks.blocks, block.first = entry) ∧
      Relation.ReflTransGen state.Stays entry place := by
  have starts : (∃ block ∈ state.blocks.blocks, block.first = entry) ↔
      (state.blocks.startingAt? entry).isSome = true := by
    simp only [Option.isSome_iff_exists, ordered.startingAt?_eq_some_iff]
  rw [starts, blocksOf]
  cases state.blocks.startingAt? entry with
  | none => simp
  | some block =>
      simp only [List.mem_mergeSort, Option.isSome_some, true_and]
      constructor
      · intro found
        obtain ⟨root, member, path⟩ := exists_path_of_mem_reach (List.Subset.refl _) found
        rw [List.mem_singleton.mp member] at path
        exact path
      · intro path
        -- Besides the entry itself, only targets of edges can be reached.
        have bounded : ∀ place ∈ entry :: state.flow.edges.map FlowEdge.target,
            inside state.flow state.procedures.entries place ⊆
              entry :: state.flow.edges.map FlowEdge.target := by
          intro place _ target arrives
          obtain ⟨edge, member, -, rfl, -⟩ := (mem_inside_iff adjacent).mp arrives
          exact List.mem_cons_of_mem _ (List.mem_map_of_mem member)
        let next := inside state.flow state.procedures.entries
        let found := reach next (state.flow.edges.length + 1) [entry] ([] ++ [entry])
        have closed : ∀ place ∈ found, next place ⊆ found :=
          reach_closed bounded (by simp) (by simp) nofun (by simp)
        induction path with
        | refl => exact mem_reach_of_mem List.mem_cons_self
        | tail _ stays ih => exact closed _ ih stays

section Owners

variable {state : Analysis}

/-- Along edges control comes to no block that has no procedure: an edge that leaves a procedure
leads to an entry. -/
theorem exists_entry_of_path (ordered : state.blocks.Ordered) (adjacent : state.flow.Adjacent)
    (targets : ∀ edge ∈ state.flow.edges,
      (∃ block ∈ state.blocks.blocks, block.first = edge.target) ∧
        (edge.kind = .call → edge.target ∈ state.procedures.entries))
    {root place : Place} (starts : ∃ block ∈ state.blocks.blocks, block.first = root)
    (listed : root ∈ state.procedures.entries)
    (path : Relation.ReflTransGen state.flow.Follows root place) :
    ∃ entry ∈ state.procedures.entries, place ∈ state.blocksOf entry := by
  induction path with
  | refl => exact ⟨root, listed, (mem_blocksOf_iff ordered adjacent).mpr ⟨starts, .refl⟩⟩
  | @tail middle place _ follows ih =>
      obtain ⟨edge, member, leaves, rfl⟩ := follows
      obtain ⟨leads, call⟩ := targets edge member
      by_cases isEntry : edge.target ∈ state.procedures.entries
      · exact ⟨edge.target, isEntry, (mem_blocksOf_iff ordered adjacent).mpr ⟨leads, .refl⟩⟩
      · obtain ⟨entry, entryListed, found⟩ := ih
        obtain ⟨entryStarts, stays⟩ := (mem_blocksOf_iff ordered adjacent).mp found
        refine ⟨entry, entryListed, (mem_blocksOf_iff ordered adjacent).mpr
          ⟨entryStarts, stays.tail ?_⟩⟩
        exact (mem_inside_iff adjacent).mpr ⟨edge, member, leaves, rfl, mt call isEntry, isEntry⟩

theorem exists_procedure_of_mem {entry place : Place} (listed : entry ∈ state.procedures.entries)
    (found : place ∈ state.blocksOf entry) :
    ∃ procedure ∈ state.assignBlocks.procedures.procedures, place ∈ procedure.blocks := by
  obtain ⟨procedure, member, rfl⟩ := List.mem_map.mp listed
  exact ⟨_, List.mem_map_of_mem member, found⟩

/-- A slot has an owner if the block with its jump has one. -/
theorem exists_slotOwner? (ordered : state.blocks.Ordered) {slot : ConsumedSlot} {place : Place}
    {block : Block} (located : state.program.resolve slot.jump = some place)
    (member : block ∈ state.blocks.blocks) (holds : block.contains place = true)
    (owned : ∃ procedure ∈ state.procedures.procedures, block.first ∈ procedure.blocks) :
    ∃ procedure ∈ state.procedures.procedures, block.first ∈ procedure.blocks ∧
      state.slotOwner? slot = some procedure.entry := by
  have isSome : (state.procedures.containing? block.first).isSome = true := by
    simpa [ProcedureTable.containing?] using owned
  obtain ⟨procedure, found⟩ := Option.isSome_iff_exists.mp isSome
  refine ⟨procedure, List.mem_of_find?_eq_some found, ?_, ?_⟩
  · simpa using List.find?_some found
  · simp [slotOwner?, located, ordered.find?_eq_some_iff.mpr ⟨member, holds⟩, found]

end Owners

/-- A block that is tied has a procedure once the blocks are linked and procedures are declared at
the entry points and callees. -/
theorem Tied.exists_procedure {state called : Analysis} {flow : FlowGraph} {block : Block}
    (tied : Tied state block) (ordered : state.blocks.Ordered) (adjacent : flow.Adjacent)
    (edges : ∀ edge, edge ∈ flow.edges ↔ state.Justifies edge)
    (declared : Declared { state with flow } called)
    (atEntries : ∀ entry ∈ state.entries, ∀ place ∈ state.program.resolve entry.address,
      place ∈ called.procedures.entries)
    (atCallees : ∀ reference ∈ state.references.toList, ∀ place ∈ callee? state.program reference,
      place ∈ called.procedures.entries) :
    ∃ procedure ∈ called.assignBlocks.procedures.procedures, block.first ∈ procedure.blocks := by
  have sameBlocks : state.blocks = called.blocks := declared.blocks.symm
  have sameFlow : flow = called.flow := declared.flow.symm
  obtain ⟨root, ⟨entry, listed, located, starts⟩, path⟩ :=
    tied.path ordered fun edge justifies => (edges edge).mpr justifies
  have targets : ∀ edge ∈ flow.edges,
      (∃ block ∈ state.blocks.blocks, block.first = edge.target) ∧
        (edge.kind = .call → edge.target ∈ called.procedures.entries) := by
    intro edge member
    obtain ⟨leads, call⟩ := ((edges edge).mp member).target ordered
    refine ⟨leads, fun kind => ?_⟩
    obtain ⟨reference, recorded, target, isCall, points, reached⟩ := call kind
    exact atCallees reference recorded _ (by simp [callee?, isCall, points, reached])
  rw [sameBlocks] at ordered starts targets
  rw [sameFlow] at adjacent targets path
  obtain ⟨owner, ownerListed, found⟩ :=
    exists_entry_of_path ordered adjacent targets starts (atEntries entry listed root located) path
  exact exists_procedure_of_mem ownerListed found

/-- A whole analysis ends by giving blocks and items to procedures that have been declared, and among
them there is one for every block. -/
theorem run_fresh_eq {program : Program} {decoder : Decoder} (built : program.Built)
    (placed : decoder.Placed) (settings : Settings) (entries : List EntryPoint) :
    let found := (findBlocks decoder (.fresh program settings) entries).state
    ∃ called flow findings, Declared { found with flow } called ∧
      (∀ block ∈ found.blocks.blocks,
        ∃ procedure ∈ called.assignBlocks.procedures.procedures, block.first ∈ procedure.blocks) ∧
      run decoder (.fresh program settings) entries = .done { called.assignBlocks.assignItems with
        diagnostics := called.diagnostics ++ findings } := by
  intro found
  have start : Reached decoder program settings (.fresh program settings) := .refl
  have reached : Reached decoder program settings found :=
    (start.findBlocks built.regular placed entries).reached
  have connected : Connected ⟨found, .idle⟩ := Connected.steps built.regular placed reached
  obtain ⟨flow, adjacent, edges, done⟩ := run_fresh_linked built.regular placed settings entries
  obtain ⟨declared, atEntries, atCallees, result⟩ := findProcedures_eq { found with flow }
  rw [result] at done
  refine ⟨_, flow, _, declared, fun block member => ?_, done⟩
  exact (connected.tied_idle member).exists_procedure
    (reached.sound built.regular placed).owned.ordered adjacent edges declared atEntries atCallees

/-- After a whole analysis every block belongs to a procedure, and every data item is owned by a
procedure that the block with the jump through its slot belongs to. -/
theorem run_gives_owners {program : Program} {decoder : Decoder} (built : program.Built)
    (placed : decoder.Placed) (settings : Settings) (entries : List EntryPoint) :
    let outcome := run decoder (.fresh program settings) entries
    outcome.fault = none ∧
    (∀ block ∈ outcome.state.blocks.blocks,
      ∃ procedure ∈ outcome.state.procedures.procedures, block.first ∈ procedure.blocks) ∧
    ∀ item ∈ outcome.state.items, ∃ slot ∈ outcome.state.slots,
      item.place = slot.place ∧ item.location = slot.location ∧
      Indexes decoder program slot.jump slot.location ∧
      ∃ place block procedure, program.resolve slot.jump = some place ∧
        block ∈ outcome.state.blocks.blocks ∧ block.contains place = true ∧
        procedure ∈ outcome.state.procedures.procedures ∧ block.first ∈ procedure.blocks ∧
        item.owner = some procedure.entry := by
  intro outcome
  have start : Reached decoder program settings (.fresh program settings) := .refl
  have reached := (start.findBlocks built.regular placed entries).reached
  have sound := reached.sound built.regular placed
  have traced := Traced.steps built.regular placed reached
  obtain ⟨called, flow, findings, declared, owned, finished⟩ :=
    run_fresh_eq built placed settings entries
  have sameBlocks : called.assignBlocks.blocks = _ := declared.blocks
  have sameProgram : called.assignBlocks.program = _ := declared.program
  have last : outcome = .done { called.assignBlocks.assignItems with
      diagnostics := called.diagnostics ++ findings } := finished
  rw [last]
  refine ⟨rfl, fun block member => owned block (sameBlocks ▸ member), fun item member => ?_⟩
  obtain ⟨slot, slotMember, rfl⟩ := List.mem_map.mp member
  -- The jump has become code since the start, and all of that is in blocks.
  obtain ⟨indexes, -, place, located, gains⟩ :=
    traced.slots slot (declared.derived.slots ▸ slotMember)
  obtain ⟨block, blockMember, holds⟩ := ((sound.owned.code place).mp gains).resolve_right id
  have jump : called.assignBlocks.program.resolve slot.jump = some place := by
    rw [sameProgram]
    exact (sound.owned.remarked.resolve _).trans located
  obtain ⟨procedure, procedureMember, contains, owner⟩ :=
    exists_slotOwner? (sameBlocks ▸ sound.owned.ordered) jump (sameBlocks ▸ blockMember) holds
      (owned block blockMember)
  exact ⟨slot, slotMember, rfl, rfl, indexes, place, block, procedure, located, sameBlocks ▸ blockMember,
    holds, procedureMember, contains, owner⟩

/-- The return, which only a slot leads to, belongs to a procedure, and the slot that leads there has
an owner. -/
theorem sample_run_gives_owners :
    let final := (run sampleDecoder (.fresh sample {}) [sampleEntry]).state
    sample.Built ∧ sampleDecoder.Placed ∧
      (∃ block ∈ final.blocks.blocks, block.first = ⟨0, 12⟩) ∧
      (∃ procedure ∈ final.procedures.procedures, ⟨0, 12⟩ ∈ procedure.blocks) ∧
      ∃ item ∈ final.items, item.place = ⟨0, 10⟩ ∧ ∃ block procedure,
        block ∈ final.blocks.blocks ∧ procedure ∈ final.procedures.procedures ∧
          block.first ∈ procedure.blocks ∧ item.owner = some procedure.entry := by
  intro final
  obtain ⟨-, blocks, items⟩ :=
    run_gives_owners sample_built sampleDecoder_placed {} [sampleEntry]
  have starts : ∃ block ∈ final.blocks.blocks, block.first = ⟨0, 12⟩ := by decide +kernel
  have reads : ∃ item ∈ final.items, item.place = ⟨0, 10⟩ := by decide +kernel
  obtain ⟨item, member, place⟩ := reads
  obtain ⟨slot, -, -, -, -, -, jump, procedure, -, jumpMember, -, procedureMember, contains, owner⟩ :=
    items item member
  obtain ⟨block, blockMember, first⟩ := starts
  have owned := blocks block blockMember
  rw [first] at owned
  exact ⟨sample_built, sampleDecoder_placed, ⟨block, blockMember, first⟩, owned, item, member, place,
    jump, procedure, jumpMember, procedureMember, contains, owner⟩

end RealMode.Analysis
