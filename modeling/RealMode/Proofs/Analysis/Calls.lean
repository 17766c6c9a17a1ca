import RealMode.Proofs.Analysis.Soundness

/-! Sequences of calls on one analysis.

No call ever ends in a fault, whatever was called before it. After whole analyses every byte that
was unknown belongs to one block, to one data item or to nothing, as its marks say. -/

set_option autoImplicit false

namespace RealMode.Analysis

theorem Sound.not_stuck {origin : Program} {decoder : Decoder} {moment : Moment} {fault : Fault}
    (sound : Sound origin moment) (regular : origin.Regular) (placed : decoder.Placed) :
    ¬Stuck decoder moment fault := by
  intro stuck
  cases stuck with
  | cut starts failed =>
      rcases sound.splitAt_eq regular starts with ⟨done, -⟩ | ⟨_, _, -, -, done⟩ <;>
        simp [done, Outcome.done] at failed
  | advance found decoded unattributed failed =>
      obtain ⟨free, behind⟩ := free_of_decoded placed found decoded unattributed
      have covered := (sound.regular regular).covered found
      rw [Image.markFault?_eq_none covered free.1 (behind ▸ unattributed)] at failed
      cases failed
  | close failed =>
      rcases sound.closeBlock_eq regular with ⟨-, done⟩ | ⟨-, _, -, done⟩ <;>
        simp [done, Outcome.done] at failed
  | record failed =>
      have hasEnd := (sound.grounded _ (.inHand rfl)).1
      simp [record, ReferenceGraph.enter, hasEnd, Outcome.done] at failed

/-- From a sound moment, a phase leads to its end and to no fault. -/
theorem Leads.steps {sort : Decoder → Moment → Moment → Prop} {origin : Program} {decoder : Decoder}
    {moment : Moment} {outcome : Outcome} {activity : Activity}
    (leads : Leads sort decoder moment outcome activity)
    (isStep : ∀ before after, sort decoder before after → Step decoder before after)
    (sound : Sound origin moment) (regular : origin.Regular) (placed : decoder.Placed) :
    outcome.fault = none ∧
      Relation.ReflTransGen (sort decoder) moment ⟨outcome.state, activity⟩ := by
  unfold Leads at leads
  split at leads
  · rename_i faultless
    exact ⟨faultless, leads⟩
  -- A phase that fails would be stuck at a moment that steps lead to, and no such moment is stuck.
  · obtain ⟨last, path, stuck⟩ := leads
    have lastSound := sound.of_steps regular placed (Relation.ReflTransGen.mono isStep _ _ path)
    exact absurd stuck (lastSound.not_stuck regular placed)

inductive Call where
  | analyze (entries : List EntryPoint)
  | findBlocks (entries : List EntryPoint)
  | linkBlocks
  | findProcedures

def Call.perform (decoder : Decoder) (state : Analysis) : Call → Outcome
  | .analyze entries => run decoder state entries
  | .findBlocks entries => Analysis.findBlocks decoder state entries
  | .linkBlocks => state.linkBlocks
  | .findProcedures => state.findProcedures

def after (decoder : Decoder) (state : Analysis) (calls : List Call) : Analysis :=
  calls.foldl (fun state call => (call.perform decoder state).state) state

theorem after_concat (decoder : Decoder) (state : Analysis) (calls : List Call) (call : Call) :
    after decoder state (calls ++ [call]) =
      (call.perform decoder (after decoder state calls)).state := by
  rw [after, List.foldl_append]
  rfl

section Reached

variable {decoder : Decoder} {program : Program} {settings : Settings} {state : Analysis}

/-- The state occurs between two tasks of an analysis of `program`. -/
def Reached (decoder : Decoder) (program : Program) (settings : Settings) (state : Analysis) : Prop :=
  Steps decoder ⟨.fresh program settings, .idle⟩ ⟨state, .idle⟩

structure Reaches (decoder : Decoder) (program : Program) (settings : Settings) (outcome : Outcome) :
    Prop where
  faultless : outcome.fault = none
  reached : Reached decoder program settings outcome.state

theorem Reaches.andThen {outcome : Outcome} {next : Analysis → Outcome}
    (first : Reaches decoder program settings outcome)
    (second : ∀ state, Reached decoder program settings state →
      Reaches decoder program settings (next state)) :
    Reaches decoder program settings (outcome.andThen next) := by
  rw [Outcome.andThen, first.faultless]
  exact second outcome.state first.reached

theorem Reached.derives {outcome : Outcome} (reached : Reached decoder program settings state)
    (derives : outcome.Derives state) : Reaches decoder program settings outcome :=
  ⟨derives.faultless, reached.tail derives.derived.step⟩

variable (regular : program.Regular) (placed : decoder.Placed)
  (reached : Reached decoder program settings state)

include regular placed reached

theorem Reached.sound : Sound program ⟨state, .idle⟩ := Sound.steps regular placed reached

/-- A search ends without a fault in a state to which it proceeds. -/
theorem Reached.proceeds (entries : List EntryPoint) :
    (Analysis.findBlocks decoder state entries).fault = none ∧
      Proceeds decoder ⟨state.enter entries, .idle⟩
        ⟨(Analysis.findBlocks decoder state entries).state, .idle⟩ := by
  have sound := Sound.steps regular placed (reached.tail (enter_step state entries))
  exact (findBlocks_leads state entries).steps (fun _ _ => And.left) sound regular placed

theorem Reached.findBlocks (entries : List EntryPoint) :
    Reaches decoder program settings (findBlocks decoder state entries) := by
  obtain ⟨faultless, proceeds⟩ := reached.proceeds regular placed entries
  exact ⟨faultless, (reached.tail (enter_step state entries)).trans proceeds.steps⟩

theorem Reached.linkBlocks_derives : state.linkBlocks.Derives state := by
  have sound := reached.sound regular placed
  -- References start at code that has been found, and between two tasks all of that is in blocks.
  refine Analysis.linkBlocks_derives fun reference member source known place resolved => ?_
  have gains := (sound.grounded reference (.recorded member)).2 source known place resolved
  obtain ⟨block, found, inside⟩ := ((sound.owned.code place).mp gains).resolve_right id
  rw [sound.owned.ordered.find?_eq_some_iff.mpr ⟨found, inside⟩]
  rfl

theorem Reached.linkBlocks : Reaches decoder program settings state.linkBlocks :=
  reached.derives (reached.linkBlocks_derives regular placed)

omit regular placed in
theorem Reached.findProcedures : Reaches decoder program settings state.findProcedures :=
  reached.derives state.findProcedures_derives

theorem Reached.run (entries : List EntryPoint) :
    Reaches decoder program settings (run decoder state entries) := by
  refine (reached.findBlocks regular placed entries).andThen fun found foundReached => ?_
  refine (foundReached.linkBlocks regular placed).andThen fun linked linkedReached => ?_
  refine linkedReached.findProcedures.andThen fun last lastReached => ?_
  refine lastReached.derives ⟨rfl, ?_⟩
  split
  · exact ⟨_, _, _, _, rfl⟩
  · exact .refl last

theorem Reached.perform (call : Call) :
    Reaches decoder program settings (call.perform decoder state) := by
  cases call with
  | analyze entries => exact reached.run regular placed entries
  | findBlocks entries => exact reached.findBlocks regular placed entries
  | linkBlocks => exact reached.linkBlocks regular placed
  | findProcedures => exact reached.findProcedures

theorem Reached.after (calls : List Call) :
    Reached decoder program settings (after decoder state calls) := by
  induction calls generalizing state with
  | nil => exact reached
  | cons call rest ih => exact ih (reached.perform regular placed call).reached

end Reached

/-- The bytes of a conditional jump over one instruction to a jump through a table of two slots,
which lead to that instruction and to a return behind the table. -/
def sampleBytes : Array UInt8 :=
  #[0x74, 2, 0xb0, 1, 0x2e, 0xff, 0x67, 8, 2, 0, 12, 0, 0xc3, 0]

/-- An image in one segment. Its last byte is known to be data. -/
def sample : Program where
  images := #[(Image.fresh 0 "code" sampleBytes).painted .data 13 1]
  segments := [⟨0, "text", "CODE", 0, 0, 14⟩]
  groups := []
  externals := []
  publics := []
  frameBase := none

theorem sample_built : sample.Built := by
  have image := Program.Built.empty.addImage "code" sampleBytes
  have segment := image.addSegment "text" "CODE" 0 0 14
  exact segment.mark 0 .data 13 1

def sampleRows : List Script.Row :=
  [⟨0, 0, .instruction 2 "jz 0004" .conditionalJump [.plain (.relative 4)]⟩,
    ⟨0, 2, .instruction 2 "mov al, 01" .next []⟩,
    ⟨0, 4, .instruction 4 "jmp cs:[bx+0008]" (.jump false)
      [.plain (.memory "cs" (some "bx") none 8)]⟩,
    ⟨0, 12, .instruction 1 "ret" .ret []⟩]

def sampleDecoder : Decoder := Script.decoder sampleRows

theorem sampleDecoder_placed : sampleDecoder.Placed := Script.decoder_placed (by decide)

def sampleEntry : EntryPoint := ⟨⟨.segment 0, 0⟩, none, .near⟩

/-- No call on an analysis ends in a fault, whatever has been called before. -/
theorem perform_faultless {program : Program} {decoder : Decoder} (built : program.Built)
    (placed : decoder.Placed) (settings : Settings) (calls : List Call) (call : Call) :
    (call.perform decoder (after decoder (.fresh program settings) calls)).fault = none := by
  have start : Reached decoder program settings (.fresh program settings) := .refl
  exact ((start.after built.regular placed calls).perform built.regular placed call).faultless

/-- Three calls in a row, on a program of which one byte was known before. -/
theorem sample_perform_faultless :
    sample.Built ∧ sampleDecoder.Placed ∧
      (Call.linkBlocks.perform sampleDecoder (after sampleDecoder (.fresh sample {})
        [.findBlocks [sampleEntry], .analyze [sampleEntry]])).fault = none :=
  ⟨sample_built, sampleDecoder_placed,
    perform_faultless sample_built sampleDecoder_placed {} _ .linkBlocks⟩

def blocksHolding (state : Analysis) (place : Place) : Nat :=
  state.blocks.blocks.countP (·.contains place)

def itemsHolding (state : Analysis) (place : Place) : Nat :=
  state.items.countP fun item => decide (place.InRun item.place item.size)

section Counting

theorem countP_le_one {α : Type} {test : α → Bool} {list : List α}
    (apart : list.Pairwise fun left right => test left = true → test right = false) :
    list.countP test ≤ 1 := by
  induction list with
  | nil => exact Nat.zero_le 1
  | cons head rest ih =>
      obtain ⟨others, apart⟩ := List.pairwise_cons.mp apart
      rw [List.countP_cons]
      cases tested : test head with
      | false => simpa using ih apart
      | true =>
          have none : rest.countP test = 0 :=
            List.countP_eq_zero.mpr fun item member => by simp [others item member tested]
          simp [none]

theorem countP_eq_one_iff {α : Type} {test : α → Bool} {list : List α}
    (apart : list.Pairwise fun left right => test left = true → test right = false) :
    list.countP test = 1 ↔ ∃ item ∈ list, test item = true := by
  have bound := countP_le_one apart
  rw [← List.countP_pos_iff]
  omega

variable {origin : Program} {state : Analysis} {place : Place}

theorem Owned.blocksHolding_le_one (owned : Owned origin state fun _ => False) :
    state.blocksHolding place ≤ 1 :=
  countP_le_one (owned.ordered.ascending.imp fun precedes => precedes.not_contains)

theorem Owned.blocksHolding_eq_one_iff (owned : Owned origin state fun _ => False) :
    state.blocksHolding place = 1 ↔ origin.Gains state.program .code place := by
  rw [owned.code, or_false]
  exact countP_eq_one_iff (owned.ordered.ascending.imp fun precedes => precedes.not_contains)

theorem itemsHolding_eq
    (items : state.items.map (fun item => (item.place, item.size)) =
      state.slots.map fun slot => (slot.place, JumpTable.slotSize)) :
    state.itemsHolding place =
      state.slots.countP fun slot => decide (place.InRun slot.place JumpTable.slotSize) := by
  have counted := congrArg
    (List.countP fun run : Place × Nat => decide (place.InRun run.1 run.2)) items
  rw [List.countP_map, List.countP_map] at counted
  exact counted

theorem Owned.slots_apart (owned : Owned origin state fun _ => False) (place : Place) :
    state.slots.Pairwise fun left right =>
      decide (place.InRun left.place JumpTable.slotSize) = true →
        decide (place.InRun right.place JumpTable.slotSize) = false :=
  owned.separate.imp fun apart inLeft =>
    decide_eq_false (apart place (of_decide_eq_true inLeft))

section Items

variable (owned : Owned origin state fun _ => False)
  (items : state.items.map (fun item => (item.place, item.size)) =
    state.slots.map fun slot => (slot.place, JumpTable.slotSize))

include owned items

theorem Owned.itemsHolding_le_one : state.itemsHolding place ≤ 1 := by
  rw [itemsHolding_eq items]
  exact countP_le_one (owned.slots_apart place)

theorem Owned.itemsHolding_eq_one_iff :
    state.itemsHolding place = 1 ↔ origin.Gains state.program .data place := by
  rw [itemsHolding_eq items, countP_eq_one_iff (owned.slots_apart place), owned.data]
  simp only [decide_eq_true_eq]

/-- A byte that was unknown is code in one block, data in one item, or in neither and unknown. -/
theorem Owned.account (unknown : (origin.marksAt place).isUnknown = true) :
    ((state.program.marksAt place).isCode = true ↔ state.blocksHolding place = 1) ∧
      ((state.program.marksAt place).meets .data = true ↔ state.itemsHolding place = 1) ∧
      ((state.program.marksAt place).isUnknown = true ↔
        state.blocksHolding place = 0 ∧ state.itemsHolding place = 0) ∧
      state.blocksHolding place + state.itemsHolding place ≤ 1 := by
  have inBlocks : state.blocksHolding place = 1 ↔ origin.Gains state.program .code place :=
    owned.blocksHolding_eq_one_iff
  have inItems : state.itemsHolding place = 1 ↔ origin.Gains state.program .data place :=
    owned.itemsHolding_eq_one_iff items
  have fewBlocks : state.blocksHolding place ≤ 1 := owned.blocksHolding_le_one
  have fewItems : state.itemsHolding place ≤ 1 := owned.itemsHolding_le_one items
  refine ⟨?_, ?_, ?_⟩
  · rw [inBlocks]
    exact (and_iff_right unknown).symm
  · rw [inItems]
    exact (and_iff_right unknown).symm
  -- A byte that is known by now has become code or data, and not both.
  · cases status : (state.program.marksAt place).isUnknown with
    | true =>
        have gainsNothing (content : Content) : ¬origin.Gains state.program content place := by
          rintro ⟨-, known⟩
          simp [Marks.isUnknown_of_meets known] at status
        have noBlock := mt inBlocks.mp (gainsNothing .code)
        have noItem := mt inItems.mp (gainsNothing .data)
        refine ⟨iff_of_true rfl ⟨?_, ?_⟩, ?_⟩ <;> omega
    | false =>
        obtain ⟨content, allowed, gains⟩ := owned.remarked.gains_of_known unknown status
        rw [gains] at inBlocks inItems
        have one : state.blocksHolding place + state.itemsHolding place = 1 := by
          cases content with
          | code =>
              have noItem := mt inItems.mp nofun
              rw [inBlocks.mpr rfl]
              omega
          | data =>
              have noBlock := mt inBlocks.mp nofun
              rw [inItems.mpr rfl]
              omega
          | padding => exact absurd rfl allowed
        refine ⟨iff_of_false nofun ?_, ?_⟩ <;> omega

/-- A byte that was known is as it was, and it lies in no block and in no item. -/
theorem Owned.account_known (known : (origin.marksAt place).isUnknown = false) :
    state.program.marksAt place = origin.marksAt place ∧ state.blocksHolding place = 0 ∧
      state.itemsHolding place = 0 := by
  have gainsNothing (content : Content) : ¬origin.Gains state.program content place := by
    rintro ⟨unknown, -⟩
    simp [known] at unknown
  refine ⟨owned.remarked.marksAt_of_known known, ?_, ?_⟩
  · have noBlock := mt owned.blocksHolding_eq_one_iff.mp (gainsNothing .code)
    have few : state.blocksHolding place ≤ 1 := owned.blocksHolding_le_one
    omega
  · have noItem := mt (owned.itemsHolding_eq_one_iff items).mp (gainsNothing .data)
    have few : state.itemsHolding place ≤ 1 := owned.itemsHolding_le_one items
    omega

end Items

end Counting

/-- No phase of a whole analysis fails, and the check of the segments adds its findings last. -/
theorem run_eq_done {program : Program} {decoder : Decoder} {settings : Settings} {state : Analysis}
    (regular : program.Regular) (placed : decoder.Placed)
    (reached : Reached decoder program settings state) (entries : List EntryPoint) :
    let last := (findBlocks decoder state entries).state.linkBlocks.state.findProcedures.state
    run decoder state entries = .done { last with diagnostics := last.diagnostics ++
      if last.settings.checkSegments then last.program.segmentOverlaps else [] } := by
  intro last
  have found := reached.findBlocks regular placed entries
  have linked := found.reached.linkBlocks regular placed
  have finished : run decoder state entries =
      .done (if last.settings.checkSegments then last.checkSegments else last) := by
    rw [run, Outcome.andThen, found.faultless]
    dsimp only
    rw [Outcome.andThen, linked.faultless]
    dsimp only
    rw [(findProcedures_derives _).andThen_eq]
  rw [finished]
  split
  · rfl
  · rw [List.append_nil]

theorem run_eq {program : Program} {decoder : Decoder} {settings : Settings} {state : Analysis}
    (regular : program.Regular) (placed : decoder.Placed)
    (reached : Reached decoder program settings state) (entries : List EntryPoint) :
    let last := (findBlocks decoder state entries).state.linkBlocks.state.findProcedures.state
    ∃ findings,
      run decoder state entries = .done { last with diagnostics := last.diagnostics ++ findings } :=
  ⟨_, run_eq_done regular placed reached entries⟩

/-- A whole analysis derives its results from what its search has found. -/
theorem run_derived {program : Program} {decoder : Decoder} {settings : Settings} {state : Analysis}
    (regular : program.Regular) (placed : decoder.Placed)
    (reached : Reached decoder program settings state) (entries : List EntryPoint) :
    (findBlocks decoder state entries).state.Derived (run decoder state entries).state := by
  have found := (reached.findBlocks regular placed entries).reached
  have linked := (found.linkBlocks_derives regular placed).derived
  obtain ⟨findings, finished⟩ := run_eq regular placed reached entries
  rw [finished]
  exact (linked.trans (findProcedures_derives _).derived).trans (.reports _ findings)

/-- The data items of an analysis are the slots that have been consumed. -/
theorem run_slots {program : Program} {decoder : Decoder} {settings : Settings} {state : Analysis}
    (regular : program.Regular) (placed : decoder.Placed)
    (reached : Reached decoder program settings state) (entries : List EntryPoint) :
    (run decoder state entries).state.items.map
        (fun item => (item.place, item.location, item.size)) =
      (run decoder state entries).state.slots.map fun slot =>
        (slot.place, slot.location, JumpTable.slotSize) := by
  have last := (findBlocks decoder state entries).state.linkBlocks.state.findProcedures_derives
  have items := (findBlocks decoder state entries).state.linkBlocks.state.findProcedures_items
  rw [← last.derived.slots] at items
  obtain ⟨findings, finished⟩ := run_eq regular placed reached entries
  rw [finished]
  exact items

theorem run_items {program : Program} {decoder : Decoder} {settings : Settings} {state : Analysis}
    (regular : program.Regular) (placed : decoder.Placed)
    (reached : Reached decoder program settings state) (entries : List EntryPoint) :
    (run decoder state entries).state.items.map (fun item => (item.place, item.size)) =
      (run decoder state entries).state.slots.map fun slot => (slot.place, JumpTable.slotSize) := by
  have located := congrArg (List.map fun item : Place × Address × Nat => (item.1, item.2.2))
    (run_slots regular placed reached entries)
  rw [List.map_map, List.map_map] at located
  exact located

/-- After whole analyses, the bytes that were unknown are accounted for one by one, those that were
known are untouched, and as many bytes start instructions as have been counted. -/
theorem analyses_account_for_bytes {program : Program} {decoder : Decoder} (built : program.Built)
    (placed : decoder.Placed) (settings : Settings) (runs : List (List EntryPoint)) :
    let final := after decoder (.fresh program settings) (runs.map .analyze)
    (∀ place, (program.marksAt place).isUnknown = true →
      ((final.program.marksAt place).isCode = true ↔ final.blocksHolding place = 1) ∧
      ((final.program.marksAt place).meets .data = true ↔ final.itemsHolding place = 1) ∧
      ((final.program.marksAt place).isUnknown = true ↔
        final.blocksHolding place = 0 ∧ final.itemsHolding place = 0) ∧
      final.blocksHolding place + final.itemsHolding place ≤ 1) ∧
    (∀ place, (program.marksAt place).isUnknown = false →
      final.program.marksAt place = program.marksAt place ∧ final.blocksHolding place = 0 ∧
        final.itemsHolding place = 0) ∧
    (∀ item ∈ final.items, item.size = 2) ∧
    final.instructions = program.startsGained final.program := by
  intro final
  have start : Reached decoder program settings (.fresh program settings) := .refl
  have reached : Reached decoder program settings final :=
    start.after built.regular placed (runs.map .analyze)
  have owned : Owned program final fun _ => False := (reached.sound built.regular placed).owned
  have items : final.items.map (fun item => (item.place, item.size)) =
      final.slots.map fun slot => (slot.place, JumpTable.slotSize) := by
    -- Only the last analysis matters, since items are derived from all slots each time.
    rcases runs.eq_nil_or_concat with none | ⟨earlier, entries, more⟩
    · subst none
      rfl
    · have before := start.after built.regular placed (earlier.map .analyze)
      have last := run_items built.regular placed before entries
      subst more
      simp only [final, List.concat_eq_append, List.map_append, List.map_cons, List.map_nil,
        after_concat]
      exact last
  refine ⟨fun place unknown => owned.account items unknown,
    fun place known => owned.account_known items known, fun item member => ?_, owned.counted⟩
  have listed := List.mem_map_of_mem (f := fun item => (item.place, item.size)) member
  rw [items] at listed
  obtain ⟨slot, -, same⟩ := List.mem_map.mp listed
  exact (Prod.mk.inj same).2.symm

/-- Two analyses, of which the second finds nothing new: a byte inside an instruction, one of a
table slot, and the one that was known before. -/
theorem sample_analyses_account :
    let final := after sampleDecoder (.fresh sample {}) ([[sampleEntry], [sampleEntry]].map .analyze)
    sample.Built ∧ sampleDecoder.Placed ∧
      (sample.marksAt ⟨0, 3⟩).isUnknown = true ∧ final.blocksHolding ⟨0, 3⟩ = 1 ∧
      (sample.marksAt ⟨0, 11⟩).isUnknown = true ∧ final.itemsHolding ⟨0, 11⟩ = 1 ∧
      (sample.marksAt ⟨0, 13⟩).isUnknown = false ∧
      final.program.marksAt ⟨0, 13⟩ = sample.marksAt ⟨0, 13⟩ ∧
      final.instructions = 4 ∧ sample.startsGained final.program = 4 := by
  intro final
  obtain ⟨unknown, known, -, counted⟩ :=
    analyses_account_for_bytes sample_built sampleDecoder_placed {} [[sampleEntry], [sampleEntry]]
  have code : (final.program.marksAt ⟨0, 3⟩).isCode = true := by decide +kernel
  have data : (final.program.marksAt ⟨0, 11⟩).meets .data = true := by decide +kernel
  have instructions : final.instructions = 4 := by decide +kernel
  exact ⟨sample_built, sampleDecoder_placed, by decide, (unknown _ (by decide)).1.mp code,
    by decide, (unknown _ (by decide)).2.1.mp data, by decide, (known _ (by decide)).1,
    instructions, counted.symm.trans instructions⟩

end RealMode.Analysis
