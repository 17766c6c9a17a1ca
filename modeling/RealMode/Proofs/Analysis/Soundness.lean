import RealMode.Proofs.Analysis.Ownership
import RealMode.Proofs.Analysis.Phases
import RealMode.Proofs.Collection.Queue
import RealMode.Proofs.Decoder.Contract

/-! The invariant of the search.

At every moment the bytes have their owners, the address that a scan has reached belongs to the
bytes that it looks at, and every reference starts at code that the search has found. From that it
follows what cutting and closing a block do. -/

set_option autoImplicit false

namespace RealMode

/-- An address moves with the place that it resolves to. -/
theorem Program.resolve_add? {program : Program} {address next : Address} {place : Place}
    {delta : Nat} (small : delta < 65536) (reached : program.resolve address = some place)
    (moved : address.add? (UInt16.ofNat delta) = some next) :
    program.resolve next = some (place.add delta) := by
  -- Neither the distance nor the sum wraps, so words add up like numbers.
  have word : (UInt16.ofNat delta).toNat = delta := UInt16.toNat_ofNat_of_lt' small
  simp only [Address.add?, Address.move?, word] at moved
  split at moved
  · rename_i fits
    obtain rfl := Option.some.inj moved
    have sum : (UInt16.ofNat ((address.offset.toNat : Int) + delta).toNat).toNat =
        address.offset.toNat + delta := by
      have bound : ((address.offset.toNat : Int) + delta).toNat < 65536 := by omega
      rw [UInt16.toNat_ofNat_of_lt' bound]
      omega
    obtain ⟨base, found, rfl⟩ := Option.map_eq_some_iff.mp reached
    simp only [Program.resolve, found, Option.map_some, Place.add, sum, Nat.add_assoc]
  · cases moved

namespace Analysis

/-- A block that holds an instruction start is cut there, unless it starts there. -/
theorem splitAt_eq {state : Analysis} {place : Place} (ordered : state.blocks.Ordered)
    (regular : state.program.Regular) (lead : (state.program.marksAt place).isLead = true) :
    (state.splitAt place = .done state ∧
        ∀ block ∈ state.blocks.blocks, block.contains place = true → block.first = place) ∨
      ∃ block blocks, block.image = place.image ∧ state.blocks.Cut block place.offset blocks ∧
        state.splitAt place = .done { state with blocks } := by
  unfold splitAt
  cases lookup : state.program.image? place.image with
  -- No byte outside the images starts an instruction.
  | none => simp [Program.marksAt, lookup, Marks.isLead, Marks.meets, Marks.empty] at lead
  | some image =>
      rw [Program.marksAt, lookup] at lead
      cases found : state.blocks.find? place with
      | none =>
          refine .inl ⟨rfl, fun block member inside => ?_⟩
          rw [ordered.find?_eq_some_iff.mpr ⟨member, inside⟩] at found
          cases found
      | some block =>
          obtain ⟨member, inside⟩ := ordered.find?_eq_some_iff.mp found
          obtain ⟨sameImage, low, high⟩ := Block.contains_iff.mp inside
          dsimp only
          split
          · rename_i first
            refine .inl ⟨rfl, fun other otherMember also => ?_⟩
            obtain rfl := ordered.eq_of_contains member otherMember inside also
            rw [Block.first, first, ← sameImage]
          · rename_i later
            have numbered : image.id = block.image := (regular.numbered lookup).trans sameImage
            obtain ⟨blocks, done, result⟩ :=
              ordered.split_eq_ok member numbered (by omega) high lead
            rw [done]
            exact .inr ⟨block, blocks, sameImage.symm, result, rfl⟩

namespace Activity

/-- The bytes that have been marked and wait to become a block. -/
def holds : Activity → Place → Prop
  | .scanning _ start _ offset, place =>
      (Block.mk start.image start.offset offset .incomplete).contains place = true
  | .leaving _ start stop exit, place =>
      (Block.mk start.image start.offset stop exit).contains place = true
  | .idle, _ | .following _, _ | .settled _, _ => False

def task? : Activity → Option Task
  | .idle => none
  | .following task | .scanning task _ _ _ | .leaving task _ _ _ | .settled task => some task

end Activity

/-- The target of a task resolves to a place. -/
def Aims (program : Program) (task : Task) (start : Place) : Prop :=
  ∃ target, task.reference.target = some target ∧ program.resolve target = some start

/-- A scan looks at the bytes that its address resolves to. Where it falls through, there is an
instruction behind what it has marked. -/
def Located (program : Program) : Activity → Prop
  | .idle | .following _ | .settled _ => True
  | .scanning task start here offset =>
      Aims program task start ∧ program.resolve here = some ⟨start.image, offset⟩ ∧
        start.offset ≤ offset
  | .leaving task start stop exit =>
      Aims program task start ∧ start.offset ≤ stop ∧
        (exit = .fallThrough → start.offset < stop ∧
          (program.marksAt ⟨start.image, stop⟩).startsCode = true)

/-- A reference has an end, and its source is code that has been found since `origin`. -/
def Grounded (origin program : Program) (reference : Reference) : Prop :=
  reference.hasEnd = true ∧ ∀ source, reference.source = some source →
    ∀ place, program.resolve source = some place → origin.Gains program .code place

theorem Grounded.mono {origin program later : Program} {reference : Reference}
    (grounded : Grounded origin program reference) (remarked : program.Remarked later) :
    Grounded origin later reference := by
  refine ⟨grounded.1, fun source known place reached => ?_⟩
  rw [remarked.resolve] at reached
  exact (grounded.2 source known place reached).mono remarked

theorem Grounded.of_source {origin program : Program} {reference other : Reference}
    (grounded : Grounded origin program other) (same : other.source = reference.source)
    (known : reference.source.isSome = true) : Grounded origin program reference :=
  ⟨by simp [Reference.hasEnd, known], fun source found => grounded.2 source (same.trans found)⟩

theorem Grounded.of_code {origin program : Program} {reference : Reference} {here : Address}
    {place : Place} (starts : reference.source = some here)
    (reached : program.resolve here = some place) (gains : origin.Gains program .code place) :
    Grounded origin program reference := by
  refine ⟨by simp [Reference.hasEnd, starts], fun source known other otherReached => ?_⟩
  obtain rfl := Option.some.inj (starts.symm.trans known)
  obtain rfl := Option.some.inj (reached.symm.trans otherReached)
  exact gains

/-- The references that have been recorded or are still to be followed. -/
inductive Mentions (moment : Moment) : Reference → Prop where
  | recorded {reference : Reference} (member : reference ∈ moment.state.references.toList) :
      Mentions moment reference
  | pending {task : Task} (member : task ∈ moment.state.pending.toList) :
      Mentions moment task.reference
  | inHand {task : Task} (taken : moment.activity.task? = some task) :
      Mentions moment task.reference

theorem Mentions.of_same {before after : Moment} {reference : Reference}
    (mentioned : Mentions after reference)
    (references : after.state.references = before.state.references)
    (pending : after.state.pending = before.state.pending)
    (task : ∀ task, after.activity.task? = some task → before.activity.task? = some task) :
    Mentions before reference := by
  cases mentioned with
  | recorded member => exact .recorded (references ▸ member)
  | pending member => exact .pending (pending ▸ member)
  | inHand taken => exact .inHand (task _ taken)

structure Sound (origin : Program) (moment : Moment) : Prop where
  owned : Owned origin moment.state moment.activity.holds
  located : Located moment.state.program moment.activity
  grounded : ∀ reference, Mentions moment reference →
    Grounded origin moment.state.program reference

namespace Sound

variable {origin : Program} {state after : Analysis} {task : Task} {start : Place} {stop : Nat}
  {exit : Block.Exit}

theorem regular {moment : Moment} (sound : Sound origin moment) (regular : origin.Regular) :
    moment.state.program.Regular :=
  sound.owned.remarked.regular regular

/-- A scan that falls through comes to the start of a block or to code of the origin: a block that
began earlier would hold bytes of the scan itself. -/
theorem first_of_behind (sound : Sound origin ⟨state, .leaving task start stop exit⟩)
    (filled : start.offset < stop) {block : Block} (member : block ∈ state.blocks.blocks)
    (inside : block.contains ⟨start.image, stop⟩ = true) : block.first = ⟨start.image, stop⟩ := by
  obtain ⟨sameImage, low, high⟩ := Block.contains_iff.mp inside
  dsimp only at sameImage low high
  rcases Nat.eq_or_lt_of_le low with first | earlier
  · rw [Block.first, first, sameImage]
  -- The last byte of the scan would be in the block, too.
  · have held : (Activity.leaving task start stop exit).holds ⟨start.image, stop - 1⟩ :=
      Block.contains_iff.mpr ⟨rfl, Nat.le_sub_one_of_lt filled, by dsimp only; omega⟩
    have apart := sound.owned.apart _ held block member
    rw [Bool.eq_false_iff, ne_eq, Block.contains_iff] at apart
    exact absurd ⟨sameImage, Nat.le_sub_one_of_lt earlier, by dsimp only; omega⟩ apart

/-- Leaving a scan enters its bytes as a block, if there are any, and cuts no other block. -/
theorem closeBlock_eq (sound : Sound origin ⟨state, .leaving task start stop exit⟩)
    (regular : origin.Regular) :
    (stop = start.offset ∧ closeBlock ⟨state, stop, .ok exit⟩ start = .done state) ∨
      (start.offset < stop ∧ ∃ blocks,
        state.blocks.Grown ⟨start.image, start.offset, stop, exit⟩ blocks ∧
        closeBlock ⟨state, stop, .ok exit⟩ start = .done { state with blocks }) := by
  obtain ⟨-, order, falls⟩ := sound.located
  -- A block that holds the byte behind the scan starts there, so there is nothing to cut.
  have uncut : (if exit = .fallThrough then state.splitAt ⟨start.image, stop⟩ else .done state) =
      .done state := by
    split
    · rename_i through
      obtain ⟨filled, starts⟩ := falls through
      have lead := (Bool.and_eq_true_iff.mp starts).2
      rcases splitAt_eq sound.owned.ordered (sound.regular regular) lead with
        ⟨done, -⟩ | ⟨block, blocks, sameImage, cut, -⟩
      · exact done
      · have inside : block.contains ⟨start.image, stop⟩ = true :=
          Block.contains_iff.mpr ⟨sameImage.symm, Nat.le_of_lt cut.above, cut.below⟩
        have first := congrArg Place.offset (sound.first_of_behind filled cut.member inside)
        exact absurd first (Nat.ne_of_lt cut.above)
    · rfl
  simp only [closeBlock, uncut, Outcome.andThen_done]
  split
  · rename_i nothing
    exact .inl ⟨by omega, rfl⟩
  · rename_i something
    have filled : start.offset < stop := by omega
    let block : Block := ⟨start.image, start.offset, stop, exit⟩
    have disjoint : ∀ other ∈ state.blocks.blocks, ∀ place,
        other.contains place = true → block.contains place = false := by
      intro other member place inside
      rw [Bool.eq_false_iff]
      intro held
      simp [sound.owned.apart place held other member] at inside
    obtain ⟨blocks, added, grown⟩ := sound.owned.ordered.add_eq_ok filled disjoint
    rw [addBlock, added]
    exact .inr ⟨filled, blocks, grown, rfl⟩

theorem close_cases {blocks : BlockIndex} (sound : Sound origin ⟨state, .leaving task start stop exit⟩)
    (regular : origin.Regular)
    (done : closeBlock ⟨state, stop, .ok exit⟩ start = .done { state with blocks }) :
    (stop = start.offset ∧ blocks = state.blocks) ∨
      (start.offset < stop ∧ state.blocks.Grown ⟨start.image, start.offset, stop, exit⟩ blocks) := by
  rcases sound.closeBlock_eq regular with ⟨nothing, same⟩ | ⟨filled, others, grown, added⟩
  · exact .inl ⟨nothing, congrArg (·.state.blocks) (done.symm.trans same)⟩
  · have equal : blocks = others := congrArg (·.state.blocks) (done.symm.trans added)
    exact .inr ⟨filled, equal ▸ grown⟩

theorem splitAt_eq (sound : Sound origin ⟨state, .following task⟩) (regular : origin.Regular)
    (starts : (state.program.marksAt start).startsCode = true) :
    (state.splitAt start = .done state ∧
        ∀ block ∈ state.blocks.blocks, block.contains start = true → block.first = start) ∨
      ∃ block blocks, block.image = start.image ∧ state.blocks.Cut block start.offset blocks ∧
        state.splitAt start = .done { state with blocks } :=
  Analysis.splitAt_eq sound.owned.ordered (sound.regular regular) (Bool.and_eq_true_iff.mp starts).2

theorem cut_cases {blocks : BlockIndex} (sound : Sound origin ⟨state, .following task⟩)
    (regular : origin.Regular) (starts : (state.program.marksAt start).startsCode = true)
    (done : state.splitAt start = .done { state with blocks }) :
    (blocks = state.blocks ∧
        ∀ block ∈ state.blocks.blocks, block.contains start = true → block.first = start) ∨
      ∃ block, block.image = start.image ∧ state.blocks.Cut block start.offset blocks := by
  rcases sound.splitAt_eq regular starts with ⟨same, first⟩ | ⟨block, others, sameImage, cut, split⟩
  · exact .inl ⟨congrArg (·.state.blocks) (done.symm.trans same), first⟩
  · have equal : blocks = others := congrArg (·.state.blocks) (done.symm.trans split)
    exact .inr ⟨block, sameImage, equal ▸ cut⟩

end Sound

section Advance

variable {decoder : Decoder} {program : Program} {task : Task} {start : Place} {here : Address}
  {offset : Nat} {image : Image} {instruction : Instruction}

theorem free_of_decoded {number : Nat} {ip : UInt16} (placed : decoder.Placed)
    (found : program.image? number = some image)
    (decoded : decoder image offset ip = .ok instruction)
    (unattributed : image.isUnattributed offset instruction.stop = true) :
    program.Free ⟨number, offset⟩ instruction.length ∧
      instruction.stop = offset + instruction.length := by
  obtain ⟨sameOffset, positive, -⟩ := placed image offset ip instruction decoded
  have behind : instruction.stop = offset + instruction.length := by
    rw [Instruction.stop, sameOffset]
  exact ⟨⟨positive, image, found, behind ▸ unattributed⟩, behind⟩

theorem holds_activityBehind (byte : Place) :
    (activityBehind program task start instruction here).holds byte ↔
      (Block.mk start.image start.offset instruction.stop .incomplete).contains byte = true := by
  unfold activityBehind
  split
  · rfl
  · split <;> rfl

theorem task?_activityBehind :
    (activityBehind program task start instruction here).task? = some task := by
  unfold activityBehind
  split
  · rfl
  · split <;> rfl

theorem located_activityBehind (aims : Aims program task start)
    (reached : program.resolve here = some ⟨start.image, offset⟩)
    (behind : instruction.stop = offset + instruction.length)
    (short : instruction.length ≤ 15) (longer : start.offset < instruction.stop) :
    Located program (activityBehind program task start instruction here) := by
  unfold activityBehind
  split
  · rename_i exit ended
    exact ⟨aims, Nat.le_of_lt longer, fun through => absurd through (onward_eq_error ended).2⟩
  · rename_i next ahead
    split
    · rename_i starts
      exact ⟨aims, Nat.le_of_lt longer, fun _ => ⟨longer, starts⟩⟩
    · have moved := Program.resolve_add? (by omega) reached (onward_eq_ok ahead).2
      rw [Place.add, ← behind] at moved
      exact ⟨aims, moved, Nat.le_of_lt longer⟩

/-- What an instruction gives rise to starts at the instruction. Only the way on behind a conditional
jump may be left unrecorded. -/
theorem mem_departures {state : Analysis} {departure : Task}
    (member : departure ∈ state.departures instruction here) :
    departure.reference.source = some here ∧
      (state.settings.recordFallThrough = true → departure.isRecorded = true) := by
  unfold departures at member
  cases flow : instruction.flow with
  | next | interrupt | ret | halt => simp [flow] at member
  | call far =>
      simp only [flow, List.mem_singleton] at member
      rw [member]
      exact ⟨rfl, fun _ => rfl⟩
  | jump far =>
      simp only [flow] at member
      split at member <;> rw [List.mem_singleton.mp member] <;> exact ⟨rfl, fun _ => rfl⟩
  | conditionalJump =>
      simp only [flow, List.mem_cons, Option.mem_toList, Option.map_eq_some_iff] at member
      rcases member with rfl | ⟨next, -, rfl⟩
      · exact ⟨rfl, fun _ => rfl⟩
      · exact ⟨rfl, id⟩

end Advance

/-- How a step changes the program: it marks an instruction that has been decoded, or a slot. -/
inductive ProgramChange (decoder : Decoder) (before after : Moment) : Prop where
  | none (same : after.state.program = before.state.program)
  | code (place : Place) {ip : UInt16} {image : Image} {instruction : Instruction}
      (found : before.state.program.image? place.image = some image)
      (decoded : decoder image place.offset ip = .ok instruction)
      (unattributed : image.isUnattributed place.offset instruction.stop = true)
      (free : before.state.program.Free place instruction.length)
      (painted : after.state.program =
        before.state.program.paint .code place instruction.length)
  | data {place : Place} (free : before.state.program.Free place JumpTable.slotSize)
      (painted : after.state.program = before.state.program.paint .data place JumpTable.slotSize)

/-- How a step changes the blocks. A block is cut where a task aims at an instruction inside it, and
the bytes that a scan leaves become a block. -/
inductive BlockChange : Moment → Moment → Prop where
  | none {before after : Moment} (same : after.state.blocks = before.state.blocks) :
      BlockChange before after
  | cut {state : Analysis} {task : Task} {start : Place} {block : Block} {blocks : BlockIndex}
      (aims : Aims state.program task start)
      (starts : (state.program.marksAt start).startsCode = true)
      (sameImage : block.image = start.image)
      (cut : state.blocks.Cut block start.offset blocks) :
      BlockChange ⟨state, .following task⟩ ⟨{ state with blocks }, .settled task⟩
  | grow {state : Analysis} {task : Task} {start : Place} {stop : Nat} {exit : Block.Exit}
      {blocks : BlockIndex} (filled : start.offset < stop)
      (grown : state.blocks.Grown ⟨start.image, start.offset, stop, exit⟩ blocks) :
      BlockChange ⟨state, .leaving task start stop exit⟩ ⟨{ state with blocks }, .settled task⟩

section Changes

variable {decoder : Decoder} {before after : Moment}

theorem BlockChange.keeps_first {place : Place} (change : BlockChange before after)
    (starts : ∃ block ∈ before.state.blocks.blocks, block.first = place) :
    ∃ block ∈ after.state.blocks.blocks, block.first = place := by
  cases change with
  | none same =>
      rw [same]
      exact starts
  | cut _ _ _ cut => exact cut.exists_first_iff.mpr (.inr starts)
  | grow _ grown => exact grown.exists_first_iff.mpr (.inr starts)

theorem Step.program (placed : decoder.Placed) (step : Step decoder before after) :
    ProgramChange decoder before after := by
  cases step with
  | consume reads => exact .data reads.free rfl
  | @advance _ _ start _ offset _ _ _ found decoded unattributed =>
      exact .code ⟨start.image, offset⟩ found decoded unattributed
        (free_of_decoded placed found decoded unattributed).1 rfl
  | _ => exact .none rfl

theorem Step.remarked (placed : decoder.Placed) (step : Step decoder before after) :
    before.state.program.Remarked after.state.program := by
  cases step.program placed with
  | none same =>
      rw [same]
      exact .refl _
  | code _ _ _ _ free painted =>
      rw [painted]
      exact free.remarked (by decide)
  | data free painted =>
      rw [painted]
      exact free.remarked (by decide)

end Changes

namespace Sound

variable {origin : Program} {decoder : Decoder} {before after : Moment}

theorem fresh (program : Program) (settings : Settings) :
    Sound program ⟨.fresh program settings, .idle⟩ where
  owned := .fresh program settings
  located := trivial
  grounded reference mentioned := by
    cases mentioned with
    | recorded member => simp [Analysis.fresh] at member
    | pending member => simp [Analysis.fresh] at member
    | inHand taken => cases taken

theorem owned_step (sound : Sound origin before) (regular : origin.Regular) (placed : decoder.Placed)
    (step : Step decoder before after) : Owned origin after.state after.activity.holds := by
  have owned := sound.owned
  cases step with
  | enter _ | derive _ _ _ _ | take _ _ | dismiss _ | skip _ | note _ _ _ | record _ | forget _
  | refuse _ _ _ | exhaust _ | miss _ => exact owned.congr rfl rfl rfl rfl
  | begin _ _ _ _ =>
      -- A scan that begins holds no byte yet.
      refine owned.hold fun byte => iff_of_false ?_ id
      exact Bool.eq_false_iff.mp (Block.contains_eq_false_of_empty (Nat.le_refl _) byte)
  | consume reads => exact owned.consume reads
  | cut _ _ starts done =>
      rcases sound.cut_cases regular starts done with ⟨rfl, -⟩ | ⟨block, -, cut⟩
      · exact owned
      · exact owned.cut cut
  | advance _ found decoded unattributed =>
      obtain ⟨free, behind⟩ := free_of_decoded placed found decoded unattributed
      obtain ⟨-, -, order⟩ := sound.located
      refine (owned.mark (sound.regular regular) free fun byte => ?_).congr rfl rfl rfl rfl
      rw [holds_activityBehind]
      simp only [Activity.holds, Block.contains_iff, Place.InRun, behind]
      omega
  | close done =>
      rcases sound.close_cases regular done with ⟨rfl, rfl⟩ | ⟨-, grown⟩
      · refine owned.hold fun byte => iff_of_false id ?_
        exact Bool.eq_false_iff.mp (Block.contains_eq_false_of_empty (Nat.le_refl _) byte)
      · exact owned.close grown fun byte => Iff.rfl

theorem located_step (sound : Sound origin before) (placed : decoder.Placed)
    (step : Step decoder before after) : Located after.state.program after.activity := by
  have located := sound.located
  cases step with
  | enter _ | derive _ _ _ _ | take _ _ | dismiss _ | consume _ | skip _ | note _ _ _ | cut _ _ _ _
  | close _ | record _ | forget _ => trivial
  | begin points reached _ _ => exact ⟨⟨_, points, reached⟩, reached, Nat.le_refl _⟩
  | exhaust _ | miss _ | refuse _ _ _ =>
      obtain ⟨aims, -, order⟩ := located
      exact ⟨aims, order, nofun⟩
  | advance _ found decoded unattributed =>
      obtain ⟨⟨target, points, aimed⟩, reached, order⟩ := located
      obtain ⟨free, behind⟩ := free_of_decoded placed found decoded unattributed
      obtain ⟨-, positive, short⟩ := placed _ _ _ _ decoded
      have remarked := free.remarked (by decide : Content.code ≠ .padding)
      exact located_activityBehind ⟨target, points, (remarked.resolve target).trans aimed⟩
        ((remarked.resolve _).trans reached) behind short (by omega)

theorem grounded_step (sound : Sound origin before) (placed : decoder.Placed)
    (step : Step decoder before after) {reference : Reference} (mentioned : Mentions after reference) :
    Grounded origin after.state.program reference := by
  have remarked := step.remarked placed
  have kept {earlier : Reference} (known : Mentions before earlier) :
      Grounded origin after.state.program earlier := (sound.grounded earlier known).mono remarked
  cases step with
  | enter entries =>
      cases mentioned with
      | recorded member => exact kept (.recorded member)
      | pending member =>
          rcases Queue.mem_enqueueAll.mp member with entered | earlier
          -- The reference of an entry point has no source.
          · obtain ⟨entry, -, rfl⟩ := List.mem_map.mp entered
            exact ⟨rfl, nofun⟩
          · simp at earlier
      | inHand taken => cases taken
  | take next _ =>
      cases mentioned with
      | recorded member => exact kept (.recorded member)
      | pending member =>
          exact kept (.pending (Queue.toList_of_next? next ▸ List.mem_cons_of_mem _ member))
      | inHand taken =>
          cases taken
          exact kept (.pending (Queue.toList_of_next? next ▸ List.mem_cons_self))
  | derive _ _ _ _ | dismiss _ | forget _ => exact kept (mentioned.of_same rfl rfl (by rintro _ ⟨⟩))
  | skip _ | note _ _ _ | cut _ _ _ _ | begin _ _ _ _ | exhaust _ | miss _ | refuse _ _ _ | close _ =>
      exact kept (mentioned.of_same rfl rfl fun _ same => same)
  | consume reads =>
      cases mentioned with
      | recorded member => exact kept (.recorded member)
      | pending member =>
          rcases Queue.mem_enqueueAll.mp member with added | earlier
          -- The tasks of a slot start at the jump that has put the slot on the agenda.
          · have starts := reads.source_of_mem added
            refine (kept (.inHand rfl)).of_source ?_ (by rw [starts]; rfl)
            rw [starts, reads.waits]
            rfl
          · exact kept (.pending earlier)
      | inHand taken => cases taken
  | advance _ found decoded unattributed =>
      obtain ⟨free, -⟩ := free_of_decoded placed found decoded unattributed
      obtain ⟨-, reached, -⟩ := sound.located
      cases mentioned with
      | recorded member => exact kept (.recorded member)
      | pending member =>
          rcases Queue.mem_enqueueAll.mp member with departs | earlier
          -- New references start at the instruction that has just been marked.
          · refine .of_code (mem_departures departs).1
              ((remarked.resolve _).trans reached) ?_
            exact (free.gains_paint sound.owned.remarked .code .code _).mpr
              (.inr ⟨rfl, free.inRun_self⟩)
          · exact kept (.pending earlier)
      | inHand taken =>
          rw [task?_activityBehind] at taken
          cases taken
          exact kept (.inHand rfl)
  | record _ =>
      cases mentioned with
      | recorded member =>
          rw [Graph.toList_add, List.mem_append, List.mem_singleton] at member
          rcases member with earlier | rfl
          · exact kept (.recorded earlier)
          · exact kept (.inHand rfl)
      | pending member => exact kept (.pending member)
      | inHand taken => cases taken

theorem step (sound : Sound origin before) (regular : origin.Regular) (placed : decoder.Placed)
    (step : Step decoder before after) : Sound origin after :=
  ⟨sound.owned_step regular placed step, sound.located_step placed step,
    fun _ mentioned => sound.grounded_step placed step mentioned⟩

theorem blocks_step (sound : Sound origin before) (regular : origin.Regular)
    (step : Step decoder before after) : BlockChange before after := by
  cases step with
  | cut points reached starts done =>
      rcases sound.cut_cases regular starts done with ⟨same, -⟩ | ⟨block, sameImage, cut⟩
      · exact .none same
      · exact .cut ⟨_, points, reached⟩ starts sameImage cut
  | close done =>
      rcases sound.close_cases regular done with ⟨-, same⟩ | ⟨filled, grown⟩
      · exact .none same
      · exact .grow filled grown
  | _ => exact .none rfl

theorem of_steps (sound : Sound origin before) (regular : origin.Regular) (placed : decoder.Placed)
    (steps : Steps decoder before after) : Sound origin after := by
  induction steps with
  | refl => exact sound
  | tail _ step ih => exact ih.step regular placed step

/-- The invariant holds at every moment of an analysis. -/
theorem steps {program : Program} {settings : Settings} {moment : Moment} (regular : program.Regular)
    (placed : decoder.Placed) (steps : Steps decoder ⟨.fresh program settings, .idle⟩ moment) :
    Sound program moment :=
  (Sound.fresh program settings).of_steps regular placed steps

end Sound

end Analysis

end RealMode
