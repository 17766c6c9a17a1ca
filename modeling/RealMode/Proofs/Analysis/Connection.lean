import RealMode.Proofs.Analysis.Frame
import RealMode.Proofs.Analysis.Leaders
import RealMode.Proofs.Analysis.Linking
import RealMode.Proofs.Analysis.Tasks

/-! How the blocks hang together.

A search finds a block because an entry point, a recorded reference out of an earlier block or the
end of an earlier block leads there. Cutting a block does not lose that: control runs on from the
first part into the second. So linking connects every block with an entry point. -/

set_option autoImplicit false

namespace RealMode.Analysis

/-- A block is reached from an entry point through recorded references and ends of blocks. -/
inductive Tied (state : Analysis) : Block → Prop where
  | entry {block : Block} {entry : EntryPoint} (member : block ∈ state.blocks.blocks)
      (listed : entry ∈ state.entries)
      (reached : state.program.resolve entry.address = some block.first) : Tied state block
  | reference {block next : Block} {reference : Reference} {source target : Address} {place : Place}
      (tied : Tied state block) (member : next ∈ state.blocks.blocks)
      (recorded : reference ∈ state.references.toList)
      (starts : reference.source = some source) (points : reference.target = some target)
      (located : state.program.resolve source = some place) (inside : block.contains place = true)
      (reached : state.program.resolve target = some next.first) : Tied state next
  | onward {block next : Block} (tied : Tied state block) (member : next ∈ state.blocks.blocks)
      (runs : state.runsOn block = true) (adjoins : next.first = block.behind) : Tied state next

theorem Tied.member {state : Analysis} {block : Block} (tied : Tied state block) :
    block ∈ state.blocks.blocks := by
  cases tied with
  | entry member _ _ | reference _ member _ _ _ _ _ _ | onward _ member _ _ => exact member

/-- Only the exit of a block and the settings matter for whether control runs on behind it. -/
theorem runsOn_congr {state after : Analysis} {block part : Block} (exit : part.exit = block.exit)
    (settings : after.settings = state.settings) : after.runsOn part = state.runsOn block := by
  rw [runsOn, runsOn, exit, settings]

theorem Tied.mono {state after : Analysis} {block : Block} (tied : Tied state block)
    (settings : after.settings = state.settings) (entries : state.entries ⊆ after.entries)
    (references : state.references.toList ⊆ after.references.toList)
    (resolve : ∀ address, after.program.resolve address = state.program.resolve address)
    (blocks : state.blocks.blocks ⊆ after.blocks.blocks) : Tied after block := by
  induction tied with
  | entry member listed reached =>
      exact .entry (blocks member) (entries listed) ((resolve _).trans reached)
  | reference _ member recorded starts points located inside reached ih =>
      exact .reference ih (blocks member) (references recorded) starts points
        ((resolve _).trans located) inside ((resolve _).trans reached)
  | onward _ member runs adjoins ih =>
      exact .onward ih (blocks member) ((runsOn_congr rfl settings).trans runs) adjoins

section Cutting

variable {state : Analysis} {block whole : Block} {cutoff : Nat} {blocks : BlockIndex}
  (result : state.blocks.Cut block cutoff blocks)

include result

/-- Whatever leads to the start of a block leads to all of its parts. -/
theorem tied_parts (member : whole ∈ state.blocks.blocks)
    (arrives : ∀ front ∈ blocks.blocks, front.first = whole.first →
      Tied { state with blocks } front) :
    ∀ part ∈ BlockIndex.parts block cutoff whole, Tied { state with blocks } part := by
  intro part found
  have kept := result.mem_iff_exists_part.mpr ⟨whole, member, found⟩
  rcases BlockIndex.mem_parts.mp found with ⟨rfl, rfl | rfl⟩ | ⟨-, rfl⟩
  · exact arrives _ kept rfl
  · have front := arrives (BlockIndex.head whole cutoff) ((result.mem_iff _).mpr (.inl rfl)) rfl
    exact .onward front kept rfl rfl
  · exact arrives part kept rfl

theorem Tied.cut (tied : Tied state whole) :
    ∀ part ∈ BlockIndex.parts block cutoff whole, Tied { state with blocks } part := by
  -- Where a reference starts in a block, it starts in one of its parts; where control runs on behind
  -- a block, it runs on behind the last of them.
  induction tied with
  | entry member listed reached =>
      refine tied_parts result member fun front kept same => ?_
      exact .entry kept listed (same ▸ reached)
  | reference _ member recorded starts points located inside reached ih =>
      obtain ⟨part, found, holds⟩ := result.exists_part_contains inside
      refine tied_parts result member fun front kept same => ?_
      exact .reference (ih part found) kept recorded starts points located holds (same ▸ reached)
  | onward tied member runs adjoins ih =>
      obtain ⟨part, found, exit, behind⟩ := BlockIndex.exists_part_behind block cutoff _
      refine tied_parts result member fun front kept same => ?_
      exact .onward (ih part found) kept ((runsOn_congr exit rfl).trans runs)
        (same.trans (adjoins.trans behind.symm))

end Cutting

/-- The ties that a block has to a place inside it and to the place behind it are kept, though the
block may have been cut. -/
structure KeepsTies (before after : Analysis) : Prop where
  inside : ∀ block place, Tied before block → block.contains place = true →
    ∃ part, Tied after part ∧ part.contains place = true
  behind : ∀ block, Tied before block →
    ∃ part, Tied after part ∧ part.exit = block.exit ∧ part.behind = block.behind

/-- Whether a place would be tied if a task that aims there made it the start of a block. -/
structure Backed (state : Analysis) (task : Task) : Prop where
  recorded : task.isRecorded = true →
    (∃ entry ∈ state.entries, task.reference = .toEntry entry.address) ∨
      ∃ source place block, task.reference.source = some source ∧
        state.program.resolve source = some place ∧ Tied state block ∧ block.contains place = true
  forgotten : task.isRecorded = false → ∀ place, Aims state.program task place →
    ∃ block, Tied state block ∧ state.runsOn block = true ∧ block.behind = place

/-- A place to which control falls behind a conditional jump is behind a block that ends with the
jump, or behind a scan that is about to become one. -/
def Foreseen (moment : Moment) (task : Task) : Prop :=
  task.isRecorded = false → moment.state.settings.recordFallThrough = false ∧
    ∀ place, Aims moment.state.program task place →
      (∃ block ∈ moment.state.blocks.blocks, block.exit = .conditional ∧ block.behind = place) ∨
        ∃ other start stop, moment.activity = .leaving other start stop .conditional ∧
          start.offset < stop ∧ place = ⟨start.image, stop⟩

/-- All blocks are tied, but for the one that the task in hand has found. -/
structure Connected (moment : Moment) : Prop where
  tied : ∀ block ∈ moment.state.blocks.blocks, Tied moment.state block ∨
    ∃ task, moment.activity = .settled task ∧ Aims moment.state.program task block.first
  backed : ∀ task, moment.activity.task? = some task → Backed moment.state task
  foreseen : ∀ task, Knows moment task → Foreseen moment task

section Ties

variable {decoder : Decoder} {before after : Moment}

theorem Step.tied (step : Step decoder before after) (placed : decoder.Placed)
    (blocks : before.state.blocks.blocks ⊆ after.state.blocks.blocks) {block : Block}
    (tied : Tied before.state block) : Tied after.state block :=
  tied.mono step.settings step.entries_subset step.references_subset (step.remarked placed).resolve
    blocks

theorem KeepsTies.of_subset {before after : Analysis}
    (kept : ∀ block, Tied before block → Tied after block) : KeepsTies before after :=
  ⟨fun block _ tied inside => ⟨block, kept block tied, inside⟩,
    fun block tied => ⟨block, kept block tied, rfl, rfl⟩⟩

theorem Step.keepsTies {origin : Program} (step : Step decoder before after)
    (sound : Sound origin before) (regular : origin.Regular) (placed : decoder.Placed) :
    KeepsTies before.state after.state := by
  have change := sound.blocks_step regular step
  cases change with
  | none same => exact .of_subset fun block => step.tied placed (by rw [same]; exact List.Subset.refl _)
  | grow _ grown =>
      exact .of_subset fun block =>
        step.tied placed fun other member => (grown.mem_iff other).mpr (.inr member)
  | cut _ _ _ cut =>
      constructor
      · intro block place tied inside
        obtain ⟨part, found, holds⟩ := cut.exists_part_contains inside
        exact ⟨part, tied.cut cut part found, holds⟩
      · intro block tied
        obtain ⟨part, found, exit, behind⟩ := BlockIndex.exists_part_behind _ _ block
        exact ⟨part, tied.cut cut part found, exit, behind⟩

theorem Backed.mono {before after : Analysis} {task : Task} (backed : Backed before task)
    (keeps : KeepsTies before after) (settings : after.settings = before.settings)
    (entries : before.entries ⊆ after.entries)
    (remarked : before.program.Remarked after.program) : Backed after task := by
  constructor
  · intro recorded
    rcases backed.recorded recorded with ⟨entry, listed, same⟩ |
      ⟨source, place, block, starts, located, tied, inside⟩
    · exact .inl ⟨entry, entries listed, same⟩
    · obtain ⟨part, partTied, holds⟩ := keeps.inside block place tied inside
      exact .inr ⟨source, place, part, starts, (remarked.resolve _).trans located, partTied, holds⟩
  · intro unrecorded place aims
    obtain ⟨block, tied, runs, rfl⟩ := backed.forgotten unrecorded place (aims.of_remarked remarked)
    obtain ⟨part, partTied, exit, behind⟩ := keeps.behind block tied
    exact ⟨part, partTied, (runsOn_congr exit settings).trans runs, behind⟩

/-- The block that a task has found is tied once the task is recorded, or forgotten. -/
theorem Backed.tied {state : Analysis} {task : Task} {block : Block} (backed : Backed state task)
    (aims : Aims state.program task block.first) (member : block ∈ state.blocks.blocks)
    (entered : task.isRecorded = true → task.reference ∈ state.references.toList) :
    Tied state block := by
  cases kept : task.isRecorded with
  | true =>
      obtain ⟨target, points, reached⟩ := aims
      rcases backed.recorded kept with ⟨entry, listed, same⟩ |
        ⟨source, place, holder, starts, located, tied, inside⟩
      · rw [same] at points
        obtain rfl := Option.some.inj points
        exact .entry member listed reached
      · exact .reference tied member (entered kept) starts points located inside reached
  | false =>
      obtain ⟨holder, tied, runs, behind⟩ := backed.forgotten kept _ aims
      exact .onward tied member runs behind.symm

end Ties

namespace Connected

variable {decoder : Decoder} {origin : Program} {before after : Moment}

theorem fresh (program : Program) (settings : Settings) :
    Connected ⟨.fresh program settings, .idle⟩ where
  tied block member := by cases member
  backed task taken := by cases taken
  foreseen task known := by
    rcases known with member | taken
    · simp [Analysis.fresh] at member
    · cases taken

theorem tied_idle {state : Analysis} (connected : Connected ⟨state, .idle⟩) {block : Block}
    (member : block ∈ state.blocks.blocks) : Tied state block :=
  (connected.tied block member).resolve_right (by rintro ⟨_, ⟨⟩, _⟩)

/-- A task that waits on the agenda is backed as soon as no other task is in hand. -/
theorem backed_of_knows {state : Analysis} {task : Task} (connected : Connected ⟨state, .idle⟩)
    (sound : Sound origin ⟨state, .idle⟩) (traced : Traced decoder origin ⟨state, .idle⟩)
    (known : task ∈ state.pending.toList) : Backed state task := by
  constructor
  · intro _
    have grounded := (sound.grounded task.reference (.pending known)).2
    have rooted := traced.rooted task (.inl known)
    generalize task.reference = reference at grounded rooted
    cases rooted with
    | entry listed => exact .inl ⟨_, listed, rfl⟩
    | code starts reached =>
        -- The source is code that has been found, and all of that is in blocks.
        have gains := grounded _ starts _ reached
        obtain ⟨block, member, inside⟩ := ((sound.owned.code _).mp gains).resolve_right id
        exact .inr ⟨_, _, block, starts, reached, connected.tied_idle member, inside⟩
  · intro unrecorded place aims
    obtain ⟨separate, behind⟩ := connected.foreseen task (.inl known) unrecorded
    rcases behind place aims with ⟨block, member, exit, rfl⟩ | ⟨_, _, _, ⟨⟩, -⟩
    refine ⟨block, connected.tied_idle member, ?_, rfl⟩
    simp only [runsOn, exit]
    simpa using separate

theorem backed_step (connected : Connected before) (sound : Sound origin before)
    (traced : Traced decoder origin before) (regular : origin.Regular) (placed : decoder.Placed)
    (step : Step decoder before after) {task : Task} (taken : after.activity.task? = some task) :
    Backed after.state task := by
  have kept (earlier : Backed before.state task) : Backed after.state task :=
    earlier.mono (step.keepsTies sound regular placed) step.settings step.entries_subset
      (step.remarked placed)
  cases step with
  | enter _ | derive _ _ _ _ | dismiss _ | consume _ | record _ | forget _ => cases taken
  | take next _ =>
      obtain rfl := Option.some.inj taken
      refine kept (connected.backed_of_knows sound traced ?_)
      rw [Queue.toList_of_next? next]
      exact List.mem_cons_self
  | skip _ | note _ _ _ | cut _ _ _ _ | begin _ _ _ _ | exhaust _ | miss _ | refuse _ _ _ | close _ =>
      exact kept (connected.backed task taken)
  | advance _ _ _ _ =>
      rw [task?_activityBehind] at taken
      exact kept (connected.backed task taken)

theorem tied_step (connected : Connected before) (sound : Sound origin before)
    (regular : origin.Regular) (placed : decoder.Placed) (step : Step decoder before after)
    {block : Block} (member : block ∈ after.state.blocks.blocks) :
    Tied after.state block ∨
      ∃ task, after.activity = .settled task ∧ Aims after.state.program task block.first := by
  have change := sound.blocks_step regular step
  cases change with
  | none same =>
      have blocks : before.state.blocks.blocks ⊆ after.state.blocks.blocks := by
        rw [same]
        exact List.Subset.refl _
      rcases connected.tied block (same ▸ member) with tied | ⟨task, settled, aims⟩
      · exact .inl (step.tied placed blocks tied)
      · -- The task that has found the block ends with this step.
        have backed := (connected.backed task (by rw [settled]; rfl)).mono
          (step.keepsTies sound regular placed) step.settings step.entries_subset
          (step.remarked placed)
        cases step with
        | record recorded =>
            cases settled
            refine .inl (backed.tied aims member fun _ => ?_)
            rw [Graph.toList_add]
            exact List.mem_append_right _ List.mem_cons_self
        | forget unrecorded =>
            cases settled
            exact .inl (backed.tied aims member fun recorded => by simp [unrecorded] at recorded)
        | _ => cases settled
  | cut aims starts sameImage cut =>
      obtain ⟨whole, earlier, found⟩ := cut.mem_iff_exists_part.mp member
      have tied := (connected.tied whole earlier).resolve_right (by rintro ⟨_, ⟨⟩, _⟩)
      exact .inl (tied.cut cut block found)
  | grow filled grown =>
      rcases (grown.mem_iff block).mp member with rfl | earlier
      · exact .inr ⟨_, rfl, sound.located.1⟩
      · have tied := (connected.tied block earlier).resolve_right (by rintro ⟨_, ⟨⟩, _⟩)
        exact .inl (step.tied placed (fun other found => (grown.mem_iff other).mpr (.inr found)) tied)

/-- The way on behind a conditional jump leads behind the scan that has just marked the jump. -/
theorem foreseen_of_raised (sound : Sound origin before) (placed : decoder.Placed) {task : Task}
    (raised : Raises decoder before after task) : Foreseen after task := by
  intro unrecorded
  cases raised with
  | entry _ => cases unrecorded
  | slot reads member =>
      rcases List.mem_cons.mp member with rfl | next
      · cases unrecorded
      · obtain ⟨_, -, rfl⟩ := Option.map_eq_some_iff.mp (Option.mem_toList.mp next)
        cases unrecorded
  | @departure state other raised start here offset image instruction found decoded unattributed
      departs =>
      obtain ⟨free, behind⟩ := free_of_decoded placed found decoded unattributed
      obtain ⟨-, reached, order⟩ := sound.located
      obtain ⟨-, positive, short⟩ := placed _ _ _ _ decoded
      have painted := free.remarked (by decide : Content.code ≠ .padding)
      cases departs with
      | branch _ _ => cases unrecorded
      | table _ => cases unrecorded
      | onward conditional ahead =>
          refine ⟨unrecorded, fun place aims => .inr ⟨other, start, instruction.stop, ?_, ?_, ?_⟩⟩
          · simp only [activityBehind, Analysis.onward, conditional, ahead]
          · omega
          · obtain ⟨target, points, located⟩ := aims
            obtain rfl := Option.some.inj points
            have moved := Program.resolve_add? (by omega) ((painted.resolve _).trans reached) ahead
            rw [Place.add, ← behind] at moved
            exact Option.some.inj (located.symm.trans moved)

theorem foreseen_step (connected : Connected before) (sound : Sound origin before)
    (regular : origin.Regular) (placed : decoder.Placed) (step : Step decoder before after)
    {task : Task} (known : Knows after task) : Foreseen after task := by
  rcases step.knows known with earlier | raised
  · intro unrecorded
    obtain ⟨separate, behind⟩ := connected.foreseen task earlier unrecorded
    refine ⟨step.settings ▸ separate, fun place aims => .inl ?_⟩
    have change := sound.blocks_step regular step
    rcases behind place (aims.of_remarked (step.remarked placed)) with
      ⟨block, member, exit, rfl⟩ | ⟨other, start, stop, leaving, filled, rfl⟩
    · cases change with
      | none same => exact ⟨block, same ▸ member, exit, rfl⟩
      | cut _ _ _ cut =>
          obtain ⟨part, found, partExit, partBehind⟩ := BlockIndex.exists_part_behind _ _ block
          exact ⟨part, cut.mem_iff_exists_part.mpr ⟨block, member, found⟩, partExit.trans exit, partBehind⟩
      | grow _ grown => exact ⟨block, (grown.mem_iff block).mpr (.inr member), exit, rfl⟩
    · -- The only step out of a scan that is left makes a block of it.
      cases step with
      | close done =>
          cases leaving
          rcases sound.close_cases regular done with ⟨empty, -⟩ | ⟨-, grown⟩
          · omega
          · exact ⟨_, (grown.mem_iff _).mpr (.inl rfl), rfl, rfl⟩
      | _ => cases leaving
  · exact foreseen_of_raised sound placed raised

theorem step (connected : Connected before) (sound : Sound origin before)
    (traced : Traced decoder origin before) (regular : origin.Regular) (placed : decoder.Placed)
    (step : Step decoder before after) : Connected after :=
  ⟨fun _ member => connected.tied_step sound regular placed step member,
    fun _ taken => connected.backed_step sound traced regular placed step taken,
    fun _ known => connected.foreseen_step sound regular placed step known⟩

theorem steps {program : Program} {settings : Settings} {moment : Moment} (regular : program.Regular)
    (placed : decoder.Placed) (steps : Steps decoder ⟨.fresh program settings, .idle⟩ moment) :
    Connected moment := by
  induction steps with
  | refl => exact .fresh program settings
  | tail earlier step ih =>
      exact ih.step (.steps regular placed earlier) (.steps regular placed earlier) regular placed step

end Connected

/-- A block starts at an entry point. -/
def Begins (state : Analysis) (place : Place) : Prop :=
  ∃ entry ∈ state.entries, state.program.resolve entry.address = some place ∧
    ∃ block ∈ state.blocks.blocks, block.first = place

/-- Ties are edges once the blocks are linked. -/
theorem Tied.path {state : Analysis} {flow : FlowGraph} {block : Block} (tied : Tied state block)
    (ordered : state.blocks.Ordered) (linked : ∀ edge, state.Justifies edge → edge ∈ flow.edges) :
    ∃ root, Begins state root ∧ Relation.ReflTransGen flow.Follows root block.first := by
  induction tied with
  | entry member listed reached => exact ⟨_, ⟨_, listed, reached, _, member, rfl⟩, .refl⟩
  | @reference block next reference source target place tied member recorded starts points located
      inside reached ih =>
      obtain ⟨root, begins, path⟩ := ih
      have found : state.referenceEdge reference =
          .ok (some (.ofReference block.first next.first reference.kind)) :=
        (referenceEdge_eq_ok_iff ordered).mpr ⟨source, target, place, block, next, starts, points,
          located, tied.member, inside, member, reached, rfl⟩
      exact ⟨root, begins, path.tail ⟨_, linked _ (.reference recorded found), rfl, rfl⟩⟩
  | @onward block next tied member runs adjoins ih =>
      obtain ⟨root, begins, path⟩ := ih
      have found : state.fallThroughEdge? block = some (.ofFallThrough block.first next.first) :=
        (fallThroughEdge?_eq_some_iff ordered).mpr ⟨runs, next, member, adjoins, rfl⟩
      exact ⟨root, begins, path.tail ⟨_, linked _ (.neighbour tied.member found), rfl, rfl⟩⟩

/-- Every block of a program that has been searched and linked can be reached along the edges from
a block at an entry point. -/
theorem linkBlocks_connects_blocks {program : Program} {decoder : Decoder} (built : program.Built)
    (placed : decoder.Placed) (settings : Settings) (entries : List EntryPoint) :
    let found := findBlocks decoder (.fresh program settings) entries
    let linked := found.state.linkBlocks
    found.fault = none ∧ linked.fault = none ∧
      ∀ block ∈ linked.state.blocks.blocks, ∃ entry ∈ entries, ∃ root ∈ linked.state.blocks.blocks,
        program.resolve entry.address = some root.first ∧
          Relation.ReflTransGen linked.state.flow.Follows root.first block.first := by
  intro found linked
  have start : Reached decoder program settings (.fresh program settings) := .refl
  obtain ⟨faultless, reached⟩ := start.findBlocks built.regular placed entries
  have linkedFaultless := (reached.linkBlocks built.regular placed).faultless
  refine ⟨faultless, linkedFaultless, fun block member => ?_⟩
  obtain ⟨flow, done, -, edges⟩ := linkBlocks_eq linkedFaultless
  have same : linked = .done { found.state with flow } := done
  rw [same] at member ⊢
  have sound := reached.sound built.regular placed
  have connected := Connected.steps built.regular placed reached
  obtain ⟨root, ⟨entry, listed, located, first, firstMember, rfl⟩, path⟩ :=
    (connected.tied_idle member).path sound.owned.ordered fun edge justifies =>
      (edges edge).mpr (.inr justifies)
  rw [entries_findBlocks_fresh] at listed
  exact ⟨entry, listed, first, firstMember, (sound.owned.remarked.resolve _).symm.trans located, path⟩

/-- The return, to which only the second slot of the table leads, is connected with the entry. -/
theorem sample_linkBlocks_connects :
    let found := findBlocks sampleDecoder (.fresh sample {}) [sampleEntry]
    let linked := found.state.linkBlocks.state
    sample.Built ∧ sampleDecoder.Placed ∧
      (∃ block ∈ linked.blocks.blocks, block.first = ⟨0, 12⟩) ∧
      ∃ entry ∈ [sampleEntry], ∃ root ∈ linked.blocks.blocks,
        sample.resolve entry.address = some root.first ∧
          Relation.ReflTransGen linked.flow.Follows root.first ⟨0, 12⟩ := by
  intro found linked
  have starts : ∃ block ∈ linked.blocks.blocks, block.first = ⟨0, 12⟩ := by decide +kernel
  obtain ⟨block, member, first⟩ := starts
  have path := (linkBlocks_connects_blocks sample_built sampleDecoder_placed {} [sampleEntry]).2.2
    block member
  rw [first] at path
  exact ⟨sample_built, sampleDecoder_placed, ⟨block, member, first⟩, path⟩

end RealMode.Analysis
