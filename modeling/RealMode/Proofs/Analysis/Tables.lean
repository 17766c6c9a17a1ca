import RealMode.Proofs.Analysis.Slots

/-! Jump tables that have been read.

When nothing is left to do, a table has been read from its start behind the jump up to a slot that
cannot be read, and its indexed jumps have been recorded in the order of its slots. -/

set_option autoImplicit false

namespace RealMode

/-- A table begins at the address behind its jump. -/
theorem JumpTable.following?_of_start? {program : Program} {instruction : Instruction}
    {source table : Address} (starts : start? program instruction source = some table)
    (pointed : instruction.ip = source.offset) (short : instruction.length ≤ 15) :
    Analysis.following? instruction source = some table := by
  have ahead : ∃ next, instruction.nextIp? = some next ∧ table = ⟨source.referent, next⟩ := by
    unfold start? at starts
    split at starts
    · cases starts
    · obtain ⟨operand, -, starts⟩ := Option.bind_eq_some_iff.mp starts
      split at starts
      · obtain ⟨next, found, starts⟩ := Option.bind_eq_some_iff.mp starts
        refine ⟨next, found, ?_⟩
        dsimp only at starts
        split at starts
        · obtain ⟨address, -, starts⟩ := Option.bind_eq_some_iff.mp starts
          obtain ⟨place, -, starts⟩ := Option.bind_eq_some_iff.mp starts
          exact (Option.some.inj (Option.ite_none_right_eq_some.mp starts).2).symm
        · exact (Option.some.inj (Option.ite_none_right_eq_some.mp starts).2).symm
      · cases starts
  obtain ⟨next, found, rfl⟩ := ahead
  obtain ⟨fits, same⟩ := Option.ite_none_right_eq_some.mp found
  obtain rfl := Option.some.inj same
  have sum : (UInt16.ofNat (instruction.ip.toNat + instruction.length)).toNat =
      instruction.ip.toNat + instruction.length := UInt16.toNat_ofNat_of_lt' fits
  exact (Analysis.following?_eq_some_iff short).mpr ⟨rfl, by rw [sum, pointed]⟩

namespace Analysis

theorem slotAddress?_inj {table location : Address} {left right : Nat}
    (leftSlot : slotAddress? table left = some location)
    (rightSlot : slotAddress? table right = some location) : left = right := by
  have leftOffset := (Address.move?_eq_some_iff.mp leftSlot).2
  have rightOffset := (Address.move?_eq_some_iff.mp rightSlot).2
  simp only [JumpTable.slotSize] at leftOffset rightOffset
  omega

theorem add?_of_slotAddress? {table location next : Address} {number : Nat}
    (here : slotAddress? table number = some location)
    (ahead : slotAddress? table (number + 1) = some next) :
    location.add? (UInt16.ofNat JumpTable.slotSize) = some next := by
  obtain ⟨referent, offset⟩ := Address.move?_eq_some_iff.mp here
  obtain ⟨nextReferent, nextOffset⟩ := Address.move?_eq_some_iff.mp ahead
  refine Address.move?_eq_some_iff.mpr ⟨nextReferent.trans referent.symm, ?_⟩
  have two : (UInt16.ofNat JumpTable.slotSize).toNat = 2 := rfl
  rw [nextOffset, offset, two, JumpTable.slotSize]
  omega

theorem tableSlot?_eq_some_iff {program : Program} {jump table : Address} {number : Nat}
    {slot : ConsumedSlot} :
    tableSlot? program jump table number = some slot ↔
      slot.jump = jump ∧ slotAddress? table number = some slot.location ∧
        program.resolve slot.location = some slot.place := by
  simp only [tableSlot?, Option.bind_eq_bind, Option.bind_eq_some_iff, Option.some.injEq]
  constructor
  · rintro ⟨location, numbered, place, reached, rfl⟩
    exact ⟨rfl, numbered, reached⟩
  · rintro ⟨rfl, numbered, reached⟩
    exact ⟨slot.location, numbered, slot.place, reached, rfl⟩

/-- A jump that goes through a table waits for its first slot. -/
theorem departures_of_table {program : Program} {settings : Settings} {instruction : Instruction}
    {here table : Address} (tables : settings.jumpTables = true)
    (starts : JumpTable.start? program instruction here = some table) :
    (fresh program settings).departures instruction here = [.recorded (.indexed here table)] := by
  have through : goesThroughTable program settings instruction here = true := by
    simp [goesThroughTable, tables, starts]
  have found : (fresh program settings).tableOf? instruction here false = some table := by
    simp [tableOf?, fresh, tables, starts]
  simp only [departures, flow_of_goesThroughTable through, found]

namespace InTurn

variable {decoder : Decoder} {origin : Program} {settings : Settings} {entries : List EntryPoint}
  {readings : List Reading} {finished : List Task} {jump table : Address} {count : Nat}
  {moment : Moment} {state : Analysis}

theorem number_of_slot (inTurn : InTurn origin jump table count moment) {slot : ConsumedSlot}
    (member : slot ∈ moment.state.slots) (same : slot.jump = jump) :
    ∃ number, number < count ∧ slotAddress? table number = some slot.location := by
  have listed : some slot ∈ (List.range count).map (tableSlot? origin jump table) := by
    rw [← inTurn.slots]
    exact List.mem_map_of_mem (List.mem_filter.mpr ⟨member, decide_eq_true same⟩)
  obtain ⟨number, below, numbered⟩ := List.mem_map.mp listed
  exact ⟨number, List.mem_range.mp below, (tableSlot?_eq_some_iff.mp numbered).2.1⟩

theorem slot_of_number (inTurn : InTurn origin jump table count moment) {number : Nat}
    (below : number < count) :
    ∃ slot ∈ moment.state.slots, slot.jump = jump ∧
      slotAddress? table number = some slot.location := by
  have listed : tableSlot? origin jump table number ∈
      (moment.state.slots.filter fun slot => slot.jump = jump).map some := by
    rw [inTurn.slots]
    exact List.mem_map_of_mem (List.mem_range.mpr below)
  obtain ⟨slot, kept, numbered⟩ := List.mem_map.mp listed
  obtain ⟨same, location, -⟩ := tableSlot?_eq_some_iff.mp numbered.symm
  exact ⟨slot, (List.mem_filter.mp kept).1, same, location⟩

/-- The task for the first slot of a table was raised by the jump that goes through the table. -/
theorem reading_of_raised (inTurn : InTurn origin jump table count moment)
    (ledger : Ledger decoder origin settings entries readings finished moment) {task : Task}
    (known : task ∈ raised origin settings entries readings moment.state.slots)
    (waits : task.reference = .indexed jump table) :
    ∃ reading ∈ readings, reading.here = jump ∧
      JumpTable.start? origin reading.instruction jump = some table := by
  simp only [raised, List.mem_append, List.mem_flatMap] at known
  rcases known with (entered | ⟨reading, read, departure⟩) | ⟨slot, listed, followed⟩
  · obtain ⟨entry, -, rfl⟩ := List.mem_map.mp entered
    cases waits
  · obtain ⟨first, starts, only⟩ := departures_of_indexed departure (by rw [waits]; rfl)
    rw [only, List.mem_singleton] at departure
    subst departure
    obtain ⟨rfl, rfl⟩ : reading.here = jump ∧ first = table := by
      simpa [Task.recorded, Reference.indexed] using waits
    exact ⟨reading, read, rfl, starts⟩
  · rcases List.mem_cons.mp followed with rfl | next
    · have word := (ledger.slots slot listed).1
      have nowhere : (slotReference origin slot).target = none := congrArg Reference.target waits
      rw [slotReference, Option.map_eq_none_iff] at nowhere
      rw [nowhere] at word
      cases word
    · -- The slot that follows another one has a number above zero.
      rw [Option.mem_toList, Option.map_eq_some_iff] at next
      obtain ⟨location, ahead, rfl⟩ := next
      obtain ⟨same, rfl⟩ : slot.jump = jump ∧ location = table := by
        simpa [Task.recorded, Reference.indexed] using waits
      obtain ⟨number, -, numbered⟩ := inTurn.number_of_slot listed same
      cases slotAddress?_inj (slotAddress?_succ numbered ahead) (slotAddress?_zero location)

section Done

variable (ledger : Ledger decoder origin settings entries readings finished ⟨state, .idle⟩)
  (served : Served finished ⟨state, .idle⟩)

include ledger served

/-- The first slot that a jump consumes is that behind the jump which has been read there. -/
theorem table_read (inTurn : InTurn origin jump table count ⟨state, .idle⟩) (consumed : 0 < count) :
    ∃ reading ∈ readings, reading.here = jump ∧
      JumpTable.start? origin reading.instruction jump = some table := by
  obtain ⟨slot, member, rfl, first⟩ := inTurn.slot_of_number consumed
  obtain rfl : table = slot.location := Option.some.inj ((slotAddress?_zero table).symm.trans first)
  obtain ⟨task, done, waits⟩ := served.raised slot member
  exact inTurn.reading_of_raised ledger
    (ledger.account.mem_iff.mp (List.mem_append_left _ (List.mem_append_left _ done))) waits

variable {reading : Reading} (member : reading ∈ readings)
  (starts : JumpTable.start? origin reading.instruction reading.here = some table)
  (drained : state.pending.toList = [])

include member starts drained

/-- A jump that has been read takes its slots from its own table. -/
theorem of_reading {other : Address} (inTurn : InTurn origin reading.here other count ⟨state, .idle⟩) :
    InTurn origin reading.here table count ⟨state, .idle⟩ := by
  rcases Nat.eq_zero_or_pos count with rfl | consumed
  · exact ⟨by simpa using inTurn.slots, .inl (by simp [Moment.tasks, Activity.task?, drained])⟩
  · obtain ⟨again, read, same, found⟩ := inTurn.table_read ledger served consumed
    have place := (ledger.read again read).located
    rw [same, (ledger.read reading member).located] at place
    obtain rfl := ledger.eq_of_place member read (Option.some.inj place).symm
    obtain rfl := Option.some.inj (found.symm.trans starts)
    exact inTurn

/-- The slot behind those that a jump has consumed cannot be read. -/
theorem ended (inTurn : InTurn origin reading.here table count ⟨state, .idle⟩)
    (tables : settings.jumpTables = true) {location : Address}
    (next : slotAddress? table count = some location) :
    JumpTable.Refuses state.program (.indexed reading.here location) := by
  have known : .recorded (.indexed reading.here location) ∈
      raised origin settings entries readings state.slots := by
    simp only [raised, List.mem_append, List.mem_flatMap]
    cases count with
    | zero =>
        obtain rfl : table = location := Option.some.inj ((slotAddress?_zero table).symm.trans next)
        refine .inl (.inr ⟨reading, member, ?_⟩)
        rw [departures_of_table tables starts]
        exact List.mem_cons_self
    | succ number =>
        obtain ⟨slot, listed, same, numbered⟩ := inTurn.slot_of_number (Nat.lt_succ_self number)
        refine .inr ⟨slot, listed, List.mem_cons_of_mem _ ?_⟩
        rw [Option.mem_toList, Option.map_eq_some_iff]
        exact ⟨location, add?_of_slotAddress? numbered next, by rw [same]; rfl⟩
  have done : .recorded (.indexed reading.here location) ∈ finished := by
    have account := ledger.account.mem_iff.mpr known
    simpa [drained, Activity.task?] using account
  rcases served.ended _ done rfl with ⟨slot, listed, same⟩ | refuses
  · obtain ⟨jump, rfl⟩ : reading.here = slot.jump ∧ location = slot.location := by
      simpa [Task.recorded, Reference.indexed] using same
    obtain ⟨number, below, numbered⟩ := inTurn.number_of_slot listed jump.symm
    exact absurd (slotAddress?_inj numbered next) (Nat.ne_of_lt below)
  · exact refuses

end Done

end InTurn

/-- A jump none of whose slots is still to be followed has been recorded through all of them. -/
theorem Lined.references_of_followed {origin : Program} {moment : Moment} {jump : Address}
    (lined : Lined origin moment)
    (followed : ∀ task ∈ moment.tasks, followsSlot task = true → task.reference.source ≠ some jump) :
    (moment.state.references.toList.filter fun reference =>
        reference.kind = .indexedJump ∧ reference.source = some jump) =
      (moment.state.slots.filter fun slot => slot.jump = jump).map (slotReference origin) := by
  have own := congrArg (List.filter fun reference => decide (reference.source = some jump))
    lined.listed
  have nothing : ((moment.tasks.filter followsSlot).map Task.reference).filter
      (fun reference => decide (reference.source = some jump)) = [] := by
    refine List.filter_eq_nil_iff.mpr fun reference member => ?_
    obtain ⟨task, kept, rfl⟩ := List.mem_map.mp member
    obtain ⟨known, follows⟩ := List.mem_filter.mp kept
    simpa using followed task known follows
  rw [List.filter_append, nothing, List.append_nil, List.filter_filter, List.filter_map] at own
  simpa [Function.comp_def, slotReference, Bool.and_comm] using own

section Drained

variable {origin : Program} {state : Analysis} (lined : Lined origin ⟨state, .idle⟩)
  (drained : state.pending.toList = [])

include lined drained

theorem Lined.references :
    (state.references.toList.filter fun reference => reference.kind = .indexedJump) =
      state.slots.map (slotReference origin) := by
  have listed := lined.listed
  simpa [Moment.tasks, Activity.task?, drained] using listed

/-- Of the indexed jumps, those from an address are those through the slots that it has consumed. -/
theorem Lined.references_from (jump : Address) :
    (state.references.toList.filter fun reference =>
        reference.kind = .indexedJump ∧ reference.source = some jump) =
      (state.slots.filter fun slot => slot.jump = jump).map (slotReference origin) := by
  apply lined.references_of_followed
  simp [Moment.tasks, Activity.task?, drained]

theorem Lined.slot_of_indexed {reference : Reference} (member : reference ∈ state.references.toList)
    (indexed : reference.kind = .indexedJump) :
    ∃ slot ∈ state.slots, slotReference origin slot = reference := by
  refine List.mem_map.mp ?_
  rw [← lined.references drained]
  exact List.mem_filter.mpr ⟨member, decide_eq_true indexed⟩

end Drained

/-- A jump has read the first slots of a table, and the one behind them cannot be read. -/
structure ReadsTable (program : Program) (final : Analysis) (jump table : Address) (count : Nat) :
    Prop where
  slots : (final.slots.filter fun slot => slot.jump = jump).map some =
    (List.range count).map (tableSlot? program jump table)
  references : (final.references.toList.filter fun reference =>
      reference.kind = .indexedJump ∧ reference.source = some jump) =
    (final.slots.filter fun slot => slot.jump = jump).map (slotReference program)
  ended : ∀ location, slotAddress? table count = some location →
    JumpTable.Refuses final.program (.indexed jump location)

/-- An analysis that comes to its end reads every table from its start behind the jump up to a slot
that cannot be read. The slots are its data items, no two of them share a byte, and the references of
indexed jumps lead through them in their order. -/
theorem run_reads_tables {program : Program} {decoder : Decoder} (built : program.Built)
    (placed : decoder.Placed) (pointed : decoder.Pointed) (settings : Settings)
    (entries : List EntryPoint)
    (drained : (run decoder (.fresh program settings) entries).state.pending.toList = []) :
    let final := (run decoder (.fresh program settings) entries).state
    (run decoder (.fresh program settings) entries).fault = none ∧
    final.items.map (fun item => (item.place, item.location, item.size)) =
      final.slots.map (fun slot => (slot.place, slot.location, JumpTable.slotSize)) ∧
    (final.slots.Pairwise fun left right => ∀ place : Place,
      place.InRun left.place JumpTable.slotSize → ¬place.InRun right.place JumpTable.slotSize) ∧
    (∀ reference ∈ final.references.toList, reference.kind = .indexedJump →
      reference.target.isSome = true) ∧
    ∃ readings : List Reading,
      (readings.map Reading.place).Nodup ∧
      (∀ place, (∃ reading ∈ readings, reading.place = place) ↔
        StartsAnew program final.program place) ∧
      (∀ reading ∈ readings, reading.Holds decoder program ∧
        (goesThroughTable program settings reading.instruction reading.here = true →
          ∃ table count, following? reading.instruction reading.here = some table ∧
            ReadsTable program final reading.here table count)) ∧
      ∀ jump, ¬Tabled program settings readings jump →
        (∀ slot ∈ final.slots, slot.jump ≠ jump) ∧
        ∀ reference ∈ final.references.toList, reference.kind = .indexedJump →
          reference.source ≠ some jump := by
  intro final
  have start : Reached decoder program settings (.fresh program settings) := .refl
  have faultless := (start.run built.regular placed entries).faultless
  have items : final.items.map (fun item => (item.place, item.location, item.size)) =
      final.slots.map (fun slot => (slot.place, slot.location, JumpTable.slotSize)) :=
    run_slots built.regular placed start entries
  have derived : (findBlocks decoder (.fresh program settings) entries).state.Derived final :=
    run_derived built.regular placed start entries
  have sound : Sound program ⟨final, .idle⟩ :=
    (start.run built.regular placed entries).reached.sound built.regular placed
  obtain ⟨-, proceeds⟩ := start.proceeds built.regular placed entries
  have inTurn := InTurn.proceeds built.regular placed proceeds
  obtain ⟨readings, finished, ledger, lined, served⟩ :=
    Served.proceeds built.regular placed proceeds
  replace drained : final.pending.toList = [] := drained
  clear_value final
  obtain ⟨_, _, _, _, rfl⟩ := derived
  refine ⟨faultless, items, sound.owned.separate, fun reference member indexed => ?_, readings,
    ledger.distinct, ledger.marked, fun reading member => ⟨ledger.read reading member,
      fun through => ?_⟩, fun jump untabled => ?_⟩
  · obtain ⟨slot, consumed, rfl⟩ := lined.slot_of_indexed drained member indexed
    rw [slotReference, Option.isSome_map]
    exact (ledger.slots slot consumed).1
  · obtain ⟨tables, isSome⟩ := Bool.and_eq_true_iff.mp through
    obtain ⟨table, starts⟩ := Option.isSome_iff_exists.mp isSome
    obtain ⟨_, _, -, -, decoded⟩ := (ledger.read reading member).decoded
    obtain ⟨_, count, taken⟩ := inTurn reading.here
    have turn := taken.of_reading ledger served member starts drained
    exact ⟨table, count,
      JumpTable.following?_of_start? starts (pointed _ _ _ _ decoded) (placed _ _ _ _ decoded).2.2,
      turn.slots, lined.references_from drained reading.here,
      fun _ next => turn.ended ledger served member starts drained tables next⟩
  · have unused (slot : ConsumedSlot) (member : slot ∈ _) : slot.jump ≠ jump := fun same =>
      untabled (same ▸ (ledger.slots slot member).2)
    refine ⟨unused, fun reference member indexed same => ?_⟩
    obtain ⟨slot, consumed, rfl⟩ := lined.slot_of_indexed drained member indexed
    exact unused slot consumed (Option.some.inj same)

/-- The jump through a table reads two slots, and the third one has been known before. -/
theorem sample_run_reads_tables :
    let final := (run sampleDecoder (.fresh sample {}) [sampleEntry]).state
    sample.Built ∧ sampleDecoder.Placed ∧ sampleDecoder.Pointed ∧ final.pending.toList = [] ∧
      ∃ table, ReadsTable sample final ⟨.segment 0, 4⟩ table 2 := by
  intro final
  have pointed := Script.decoder_pointed sampleRows
  have drained : final.pending.toList = [] := by decide +kernel
  have consumed : (final.slots.filter fun slot => slot.jump = ⟨.segment 0, 4⟩).length = 2 := by
    decide +kernel
  obtain ⟨-, -, -, -, readings, -, -, each, others⟩ :=
    run_reads_tables sample_built sampleDecoder_placed pointed {} [sampleEntry] drained
  have tabled : Tabled sample {} readings ⟨.segment 0, 4⟩ := by
    by_contra untabled
    have unused := (others _ untabled).1
    rw [List.filter_eq_nil_iff.mpr fun slot member => by simpa using unused slot member] at consumed
    cases consumed
  obtain ⟨reading, member, here, through⟩ := tabled
  obtain ⟨table, count, -, reads⟩ := (each reading member).2 through
  rw [here] at reads
  have two : count = 2 := by
    have lengths := congrArg List.length reads.slots
    rw [List.length_map, List.length_map, List.length_range] at lengths
    exact lengths.symm.trans consumed
  exact ⟨sample_built, sampleDecoder_placed, pointed, drained, table, two ▸ reads⟩

end Analysis

end RealMode
