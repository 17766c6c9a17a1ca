import RealMode.Proofs.Analysis.Soundness
import RealMode.Proofs.Program.Target

/-! Where tasks come from.

A task stands for an entry point, for a way out of an instruction that has been marked, or for a
table slot. So its reference starts at an instruction that was decoded, unless it is an entry point,
and a task that waits for a slot was put there by a jump through that table. -/

set_option autoImplicit false

namespace RealMode

/-- Whether an instruction may go to another place than the one behind it. -/
def Flow.branches : Flow → Bool
  | .call _ | .jump _ | .conditionalJump => true
  | .next | .interrupt | .ret | .halt => false

namespace Analysis

/-- A task is on the agenda or in hand. -/
def Knows (moment : Moment) (task : Task) : Prop :=
  task ∈ moment.state.pending.toList ∨ moment.activity.task? = some task

/-- The ways out of an instruction that have to be followed. -/
inductive Departs (program : Program) (settings : Settings) (instruction : Instruction)
    (here : Address) : Task → Prop where
  | branch (kind : Reference.Kind) (branches : instruction.flow.branches = true) :
      Departs program settings instruction here (branchTask program instruction here kind)
  | table {slot : Address} (starts : JumpTable.start? program instruction here = some slot) :
      Departs program settings instruction here (.recorded (.indexed here slot))
  | onward {next : Address} (conditional : instruction.flow = .conditionalJump)
      (ahead : following? instruction here = some next) :
      Departs program settings instruction here
        ⟨⟨some here, some next, .conditionalJump, none⟩, settings.recordFallThrough⟩

theorem departs_of_mem {state : Analysis} {instruction : Instruction} {here : Address} {task : Task}
    (member : task ∈ state.departures instruction here) :
    Departs state.program state.settings instruction here task := by
  unfold departures at member
  cases flow : instruction.flow with
  | next | interrupt | ret | halt => simp [flow] at member
  | call far =>
      simp only [flow, List.mem_singleton] at member
      subst member
      exact .branch _ (by simp [flow, Flow.branches])
  | jump far =>
      simp only [flow] at member
      split at member
      · rename_i slot found
        rw [List.mem_singleton.mp member]
        apply Departs.table
        unfold tableOf? at found
        split at found
        · exact found
        · cases found
      · rw [List.mem_singleton.mp member]
        exact .branch _ (by simp [flow, Flow.branches])
  | conditionalJump =>
      simp only [flow, List.mem_cons, Option.mem_toList, Option.map_eq_some_iff] at member
      rcases member with rfl | ⟨next, ahead, rfl⟩
      · exact .branch _ (by simp [flow, Flow.branches])
      · exact .onward flow ahead

theorem Departs.source {program : Program} {settings : Settings} {instruction : Instruction}
    {here : Address} {task : Task} (departs : Departs program settings instruction here task) :
    task.reference.source = some here := by
  cases departs <;> rfl

/-- A step brings up a task that was not known before. -/
inductive Raises (decoder : Decoder) : Moment → Moment → Task → Prop where
  | entry {state : Analysis} {entries : List EntryPoint} {entry : EntryPoint}
      (member : entry ∈ entries) :
      Raises decoder ⟨state, .idle⟩ ⟨{ state with
        entries := state.entries ++ entries
        pending := (entryTasks entries).foldl Queue.enqueue .empty }, .idle⟩
        (.recorded (.toEntry entry.address))
  | slot {state : Analysis} {task raised : Task} {source : Address} {slot : JumpTable.Slot}
      (reads : JumpTable.Reads state.program task.reference source slot)
      (member : raised ∈ Task.recorded slot.reference :: (slot.next.map Task.recorded).toList) :
      Raises decoder ⟨state, .following task⟩ ⟨state.consumed source slot, .idle⟩ raised
  | departure {state : Analysis} {task raised : Task} {start : Place} {here : Address} {offset : Nat}
      {image : Image} {instruction : Instruction}
      (found : state.program.image? start.image = some image)
      (decoded : decoder image offset here.offset = .ok instruction)
      (unattributed : image.isUnattributed offset instruction.stop = true)
      (departs : Departs (state.program.paint .code ⟨start.image, offset⟩ instruction.length)
        state.settings instruction here raised) :
      Raises decoder ⟨state, .scanning task start here offset⟩
        ⟨(state.markInstruction start.image offset instruction.length).departed instruction here,
          activityBehind (state.program.paint .code ⟨start.image, offset⟩ instruction.length) task
            start instruction here⟩ raised

section Knowledge

variable {decoder : Decoder} {before after : Moment} {task : Task}

theorem Step.knows (step : Step decoder before after) (known : Knows after task) :
    Knows before task ∨ Raises decoder before after task := by
  cases step with
  | enter entries =>
      rcases known with member | taken
      · rcases Queue.mem_enqueueAll.mp member with entered | earlier
        · obtain ⟨entry, listed, rfl⟩ := List.mem_map.mp entered
          exact .inr (.entry listed)
        · simp at earlier
      · cases taken
  | take next _ =>
      left; left
      rw [Queue.toList_of_next? next, List.mem_cons]
      exact known.symm.imp_left fun taken => (Option.some.inj taken).symm
  | derive _ _ _ _ | dismiss _ | record _ | forget _ =>
      exact .inl (known.imp_right (by rintro ⟨⟩))
  | skip _ | note _ _ _ | cut _ _ _ _ | begin _ _ _ _ | exhaust _ | miss _ | refuse _ _ _ | close _ =>
      exact .inl known
  | consume reads =>
      rcases known with member | taken
      · rcases Queue.mem_enqueueAll.mp member with added | earlier
        · exact .inr (.slot reads added)
        · exact .inl (.inl earlier)
      · cases taken
  | advance _ found decoded unattributed =>
      rcases known with member | taken
      · rcases Queue.mem_enqueueAll.mp member with departs | earlier
        · exact .inr (.departure found decoded unattributed (departs_of_mem departs))
        · exact .inl (.inl earlier)
      · rw [task?_activityBehind] at taken
        exact .inl (.inr taken)

theorem Step.settings (step : Step decoder before after) :
    after.state.settings = before.state.settings := by
  cases step <;> rfl

theorem Step.entries_subset (step : Step decoder before after) :
    before.state.entries ⊆ after.state.entries := by
  cases step with
  | enter entries => exact List.subset_append_left _ _
  | _ => exact fun _ member => member

theorem Step.references_subset (step : Step decoder before after) :
    before.state.references.toList ⊆ after.state.references.toList := by
  cases step with
  | record _ =>
      rw [Graph.toList_add]
      exact List.subset_append_left _ _
  | _ => exact fun _ member => member

end Knowledge

/-- The decoder finds an instruction at an address that resolves into an image. -/
def Decodes (decoder : Decoder) (program : Program) (address : Address) (instruction : Instruction) :
    Prop :=
  ∃ place image, program.resolve address = some place ∧ program.contains place = true ∧
    program.image? place.image = some image ∧
    decoder image place.offset address.offset = .ok instruction

theorem following?_eq_some_iff {instruction : Instruction} {here next : Address}
    (short : instruction.length ≤ 15) :
    following? instruction here = some next ↔
      next.referent = here.referent ∧ next.offset.toNat = here.offset.toNat + instruction.length := by
  have word : (UInt16.ofNat instruction.length).toNat = instruction.length :=
    UInt16.toNat_ofNat_of_lt' (Nat.lt_of_le_of_lt short (by decide))
  rw [following?, Address.add?, Address.move?_eq_some_iff, word]
  exact and_congr_right fun _ => by omega

/-- The slot with a number in the table at an address, unless it lies behind the segment. -/
def slotAddress? (table : Address) (number : Nat) : Option Address :=
  table.move? (JumpTable.slotSize * number : Nat)

theorem slotAddress?_zero (table : Address) : slotAddress? table 0 = some table :=
  Address.move?_eq_some_iff.mpr ⟨rfl, by simp⟩

theorem slotAddress?_succ {table location next : Address} {number : Nat}
    (here : slotAddress? table number = some location)
    (ahead : location.add? (UInt16.ofNat JumpTable.slotSize) = some next) :
    slotAddress? table (number + 1) = some next := by
  obtain ⟨referent, offset⟩ := Address.move?_eq_some_iff.mp here
  obtain ⟨nextReferent, nextOffset⟩ := Address.move?_eq_some_iff.mp ahead
  refine Address.move?_eq_some_iff.mpr ⟨nextReferent.trans referent, ?_⟩
  have two : (UInt16.ofNat JumpTable.slotSize).toNat = 2 := rfl
  rw [nextOffset, offset, two, JumpTable.slotSize]
  omega

/-- A jump that was decoded at `source`, when some bytes of `origin` were known, goes through a
table, and `location` is one of its slots. -/
def Indexes (decoder : Decoder) (origin : Program) (source location : Address) : Prop :=
  ∃ marked instruction table number, origin.Remarked marked ∧
    Decodes decoder marked source instruction ∧
    JumpTable.start? origin instruction source = some table ∧
    slotAddress? table number = some location

theorem Indexes.next {decoder : Decoder} {origin : Program} {source location next : Address}
    (indexes : Indexes decoder origin source location)
    (ahead : location.add? (UInt16.ofNat JumpTable.slotSize) = some next) :
    Indexes decoder origin source next := by
  obtain ⟨marked, instruction, table, number, remarked, decodes, starts, here⟩ := indexes
  exact ⟨marked, instruction, table, number + 1, remarked, decodes, starts,
    slotAddress?_succ here ahead⟩

/-- A reference belongs to an entry point, or its source resolves. -/
inductive Rooted (state : Analysis) : Reference → Prop where
  | entry {entry : EntryPoint} (listed : entry ∈ state.entries) :
      Rooted state (.toEntry entry.address)
  | code {reference : Reference} {source : Address} {place : Place}
      (starts : reference.source = some source)
      (reached : state.program.resolve source = some place) : Rooted state reference

theorem Rooted.mono {state after : Analysis} {reference : Reference} (rooted : Rooted state reference)
    (entries : state.entries ⊆ after.entries)
    (resolve : ∀ address, after.program.resolve address = state.program.resolve address) :
    Rooted after reference := by
  cases rooted with
  | entry listed => exact .entry (entries listed)
  | code starts reached => exact .code starts ((resolve _).trans reached)

/-- Known tasks have roots, and slots are waited for or consumed by jumps through their tables. -/
structure Traced (decoder : Decoder) (origin : Program) (moment : Moment) : Prop where
  rooted : ∀ task, Knows moment task → Rooted moment.state task.reference
  indexed : ∀ task, Knows moment task → ∀ source location,
    task.reference = .indexed source location → Indexes decoder origin source location
  slots : ∀ slot ∈ moment.state.slots, Indexes decoder origin slot.jump slot.location ∧
    origin.resolve slot.location = some slot.place ∧
    ∃ place, origin.resolve slot.jump = some place ∧
      origin.Gains moment.state.program .code place

namespace Traced

variable {decoder : Decoder} {origin : Program} {before after : Moment}

theorem fresh (decoder : Decoder) (program : Program) (settings : Settings) :
    Traced decoder program ⟨.fresh program settings, .idle⟩ := by
  have nothing (task : Task) : ¬Knows ⟨.fresh program settings, .idle⟩ task := by
    rintro (member | taken)
    · simp [Analysis.fresh] at member
    · cases taken
  refine ⟨fun task known => absurd known (nothing task), fun task known => absurd known (nothing task),
    fun slot member => ?_⟩
  simp [Analysis.fresh] at member

theorem rooted_step (traced : Traced decoder origin before) (sound : Sound origin before)
    (placed : decoder.Placed) (step : Step decoder before after) {task : Task}
    (known : Knows after task) : Rooted after.state task.reference := by
  have resolve := (step.remarked placed).resolve
  rcases step.knows known with earlier | raised
  · exact (traced.rooted task earlier).mono step.entries_subset resolve
  · cases raised with
    | entry member => exact .entry (List.mem_append_right _ member)
    | slot reads member =>
        -- The jump that reads the slot is the source of the task in hand.
        have waits := (traced.rooted _ (.inr rfl)).mono step.entries_subset resolve
        rw [reads.waits] at waits
        cases waits with
        | code starts reached =>
            obtain rfl := Option.some.inj starts
            exact .code (reads.source_of_mem member) reached
    | departure found decoded unattributed departs =>
        exact .code departs.source ((resolve _).trans sound.located.2.1)

theorem decodes_of_scan {state : Analysis} {task : Task} {start : Place} {here : Address} {offset : Nat}
    {image : Image} {instruction : Instruction}
    (sound : Sound origin ⟨state, .scanning task start here offset⟩) (regular : origin.Regular)
    (placed : decoder.Placed) (found : state.program.image? start.image = some image)
    (decoded : decoder image offset here.offset = .ok instruction)
    (unattributed : image.isUnattributed offset instruction.stop = true) :
    Decodes decoder state.program here instruction := by
  obtain ⟨free, -⟩ := free_of_decoded placed found decoded unattributed
  exact ⟨_, image, sound.located.2.1, free.contains (sound.regular regular), found, decoded⟩

theorem indexed_step (traced : Traced decoder origin before) (sound : Sound origin before)
    (regular : origin.Regular) (placed : decoder.Placed) (step : Step decoder before after) {task : Task}
    (known : Knows after task) {source location : Address}
    (waits : task.reference = .indexed source location) :
    Indexes decoder origin source location := by
  rcases step.knows known with earlier | raised
  · exact traced.indexed task earlier source location waits
  · cases raised with
    | entry _ => cases waits
    | slot reads member =>
        rcases List.mem_cons.mp member with rfl | next
        -- The value of a slot is a target, so its reference waits for nothing.
        · obtain ⟨value, place, target, -⟩ := reads.target
          rw [Task.recorded, target] at waits
          cases congrArg Reference.target waits
        · rw [reads.next, Option.map_map, Option.mem_toList, Option.map_eq_some_iff] at next
          obtain ⟨following, ahead, rfl⟩ := next
          cases waits
          exact (traced.indexed _ (.inr rfl) _ _ reads.waits).next ahead
    | departure found decoded unattributed departs =>
        obtain ⟨free, -⟩ := free_of_decoded placed found decoded unattributed
        have painted := free.remarked (by decide : Content.code ≠ .padding)
        cases departs with
        | branch kind _ => cases congrArg Reference.slot waits
        | onward _ _ => cases congrArg Reference.slot waits
        | table starts =>
            cases waits
            rw [(sound.owned.remarked.trans painted).tableStart?] at starts
            exact ⟨_, _, _, 0, sound.owned.remarked,
              decodes_of_scan sound regular placed found decoded unattributed, starts,
              slotAddress?_zero _⟩

theorem slots_step (traced : Traced decoder origin before) (sound : Sound origin before)
    (placed : decoder.Placed) (step : Step decoder before after) {slot : ConsumedSlot}
    (member : slot ∈ after.state.slots) :
    Indexes decoder origin slot.jump slot.location ∧ origin.resolve slot.location = some slot.place ∧
      ∃ place, origin.resolve slot.jump = some place ∧ origin.Gains after.state.program .code place := by
  have remarked := step.remarked placed
  have kept (earlier : slot ∈ before.state.slots) :
      Indexes decoder origin slot.jump slot.location ∧ origin.resolve slot.location = some slot.place ∧
        ∃ place, origin.resolve slot.jump = some place ∧
          origin.Gains after.state.program .code place := by
    obtain ⟨indexes, located, place, reached, gains⟩ := traced.slots slot earlier
    exact ⟨indexes, located, place, reached, gains.mono remarked⟩
  cases step with
  | @consume state task source read reads =>
      rcases List.mem_append.mp member with earlier | new
      · exact kept earlier
      · rw [List.mem_singleton.mp new]
        refine ⟨traced.indexed task (.inr rfl) _ _ reads.waits,
          (sound.owned.remarked.resolve _).symm.trans reads.reached, ?_⟩
        have rooted := traced.rooted task (.inr rfl)
        have grounded := sound.grounded task.reference (.inHand rfl)
        rw [reads.waits] at rooted grounded
        cases rooted with
        | code starts reached =>
            obtain rfl := Option.some.inj starts
            exact ⟨_, (sound.owned.remarked.resolve _).symm.trans reached,
              (grounded.2 _ rfl _ reached).mono remarked⟩
  | _ => exact kept member

theorem step (traced : Traced decoder origin before) (sound : Sound origin before)
    (regular : origin.Regular) (placed : decoder.Placed) (step : Step decoder before after) :
    Traced decoder origin after :=
  ⟨fun _ known => traced.rooted_step sound placed step known,
    fun _ known _ _ waits => traced.indexed_step sound regular placed step known waits,
    fun _ member => traced.slots_step sound placed step member⟩

theorem steps {program : Program} {settings : Settings} {moment : Moment} (regular : program.Regular)
    (placed : decoder.Placed) (steps : Steps decoder ⟨.fresh program settings, .idle⟩ moment) :
    Traced decoder program moment := by
  induction steps with
  | refl => exact .fresh decoder program settings
  | tail earlier step ih => exact ih.step (.steps regular placed earlier) regular placed step

end Traced

end Analysis

end RealMode
