import RealMode.Proofs.Analysis.Ledger
import RealMode.Proofs.Analysis.Reachability
import RealMode.Proofs.Program.Flat

/-! What a search looks for when it follows no tables.

The addresses that it may come to are a closure of the entry points, whatever the order in which it
follows them. In a flat program with local branches they all lie in one segment, so that the decoder
is asked for an offset with the instruction pointer that belongs to it. -/

set_option autoImplicit false

namespace RealMode

/-- All branches stay in their segments, as far as their targets are known. -/
def Decoder.Local (decoder : Decoder) : Prop :=
  ∀ image offset ip instruction, decoder image offset ip = .ok instruction →
    instruction.flow.branches = true →
      ∀ operand, instruction.operands.head? = some operand → operand.isLocal = true

theorem Decoder.Local.pinned {decoder : Decoder} (stays : decoder.Local) : decoder.pinned.Local :=
  fun image offset _ instruction decoded => stays image offset _ instruction decoded

namespace Script

/-- Whether the instruction of an answer is no branch out of its segment. -/
def Answer.isLocal : Answer → Bool
  | .instruction _ _ flow operands => !flow.branches || operands.head?.all Operand.isLocal
  | .failure _ => true

theorem decoder_local {rows : List Row} (stays : ∀ row ∈ rows, row.answer.isLocal = true) :
    (decoder rows).Local := by
  intro image offset ip instruction decoded branches operand first
  unfold decoder at decoded
  split at decoded
  · cases decoded
  · rename_i row found
    have stays := stays row (List.mem_of_find?_eq_some found)
    split at decoded
    · rename_i answer
      cases decoded
      rw [answer, Answer.isLocal, branches, first] at stays
      exact stays
    · cases decoded

end Script

namespace Analysis

/-- The least set of addresses that has the entry points and is closed under branches and under
running on. -/
inductive Sought (decoder : Decoder) (origin : Program) (entries : List EntryPoint) :
    Address → Prop where
  | entry {entry : EntryPoint} (listed : entry ∈ entries) :
      Sought decoder origin entries entry.address
  | branch {here target : Address} {instruction : Instruction}
      (sought : Sought decoder origin entries here)
      (decodes : Decodes decoder origin here instruction)
      (branches : instruction.flow.branches = true)
      (points : origin.branchTarget? instruction here = some target) :
      Sought decoder origin entries target
  | onward {here next : Address} {instruction : Instruction}
      (sought : Sought decoder origin entries here)
      (decodes : Decodes decoder origin here instruction)
      (stays : instruction.flow.leaves = false)
      (ahead : following? instruction here = some next) : Sought decoder origin entries next

theorem Sought.of_subset {decoder : Decoder} {origin : Program} {entries others : List EntryPoint}
    (subset : entries ⊆ others) {address : Address} (sought : Sought decoder origin entries address) :
    Sought decoder origin others address := by
  induction sought with
  | entry listed => exact .entry (subset listed)
  | branch _ decodes branches points ih => exact .branch ih decodes branches points
  | onward _ decodes stays ahead ih => exact .onward ih decodes stays ahead

/-- A search follows and scans such addresses only. -/
structure Seeks (decoder : Decoder) (origin : Program) (entries : List EntryPoint)
    (moment : Moment) : Prop where
  tasks : ∀ task, Knows moment task → ∀ target, task.reference.target = some target →
    Sought decoder origin entries target
  scanned : ∀ task start here offset, moment.activity = .scanning task start here offset →
    Sought decoder origin entries here

section Search

variable {decoder : Decoder} {origin : Program} {settings : Settings} {entries : List EntryPoint}
  {readings : List Reading} {finished : List Task} {before after moment : Moment}

/-- Without tables no task waits for a slot. -/
theorem Ledger.ready_of_knows
    (ledger : Ledger decoder origin settings entries readings finished moment)
    (tables : settings.jumpTables = false) {task : Task} (known : Knows moment task) :
    awaitsSlot task.reference = false := by
  by_contra awaits
  rw [Bool.not_eq_false] at awaits
  obtain ⟨source, -, reading, -, -, table⟩ := ledger.tabled_of_awaits known awaits
  simp [goesThroughTable, tables] at table

theorem Seeks.enter (decoder : Decoder) (origin : Program) (settings : Settings)
    (entries : List EntryPoint) :
    Seeks decoder origin entries ⟨(fresh origin settings).enter entries, .idle⟩ := by
  rw [enter_eq]
  refine ⟨fun task known target points => ?_, by rintro _ _ _ _ ⟨⟩⟩
  rcases known with pending | taken
  · rcases Queue.mem_enqueueAll.mp pending with entered | earlier
    · obtain ⟨entry, listed, rfl⟩ := List.mem_map.mp entered
      cases points
      exact .entry listed
    · simp at earlier
  · cases taken

theorem Seeks.step (seeks : Seeks decoder origin entries before) (sound : Sound origin before)
    (ready : ∀ task, Knows before task → awaitsSlot task.reference = false)
    (regular : origin.Regular) (placed : decoder.Placed) (blind : decoder.Blind)
    (works : Works decoder before after) : Seeks decoder origin entries after := by
  obtain ⟨step, busy⟩ := works
  refine ⟨fun task known target points => ?_, fun task start here offset scanning => ?_⟩
  · rcases step.knows known with earlier | raised
    · exact seeks.tasks task earlier target points
    · cases raised with
      | entry _ => exact absurd ⟨rfl, rfl⟩ busy
      | slot reads _ =>
          have awaits := ready _ (.inr rfl)
          rw [reads.waits] at awaits
          cases awaits
      | departure found decoded unattributed departs =>
          have sought := seeks.scanned _ _ _ _ rfl
          have decodes :=
            Confined.decodes_of_scan sound regular placed blind found decoded unattributed
          obtain ⟨free, -⟩ := free_of_decoded placed found decoded unattributed
          have painted :=
            sound.owned.remarked.trans (free.remarked (by decide : Content.code ≠ .padding))
          cases departs with
          | branch kind branches =>
              change Program.branchTarget? _ _ _ = some target at points
              rw [painted.branchTarget?] at points
              exact .branch sought decodes branches points
          | table _ => cases points
          | onward conditional ahead =>
              cases points
              exact .onward sought decodes (by rw [conditional]; rfl) ahead
  · cases step with
    | begin points _ _ _ =>
        cases scanning
        exact seeks.tasks _ (.inr rfl) _ points
    | advance _ found decoded unattributed =>
        have sought := seeks.scanned _ _ _ _ rfl
        have decodes :=
          Confined.decodes_of_scan sound regular placed blind found decoded unattributed
        unfold activityBehind at scanning
        split at scanning
        · cases scanning
        · rename_i next ahead
          split at scanning
          · cases scanning
          · cases scanning
            obtain ⟨runs, behind⟩ := onward_eq_ok ahead
            exact .onward sought decodes (Flow.leaves_of_runsOn runs) behind
    | _ => cases scanning

theorem Seeks.proceeds (regular : origin.Regular) (placed : decoder.Placed) (blind : decoder.Blind)
    (tables : settings.jumpTables = false)
    (proceeds : Proceeds decoder ⟨(fresh origin settings).enter entries, .idle⟩ moment) :
    Seeks decoder origin entries moment := by
  induction proceeds with
  | refl => exact .enter decoder origin settings entries
  | tail earlier works ih =>
      obtain ⟨readings, finished, ledger⟩ := Ledger.proceeds regular placed earlier
      have sound := Sound.steps regular placed (.head (enter_step _ entries) (Proceeds.steps earlier))
      exact ih.step sound (fun _ => ledger.ready_of_knows tables) regular placed blind works

end Search

section Home

variable {decoder : Decoder} {origin : Program} {settings : Settings} {entries : List EntryPoint}
  {before after moment : Moment}

theorem Sought.home (placed : decoder.Placed) (stays : decoder.Local)
    (home : ∀ entry ∈ entries, entry.address.referent = .segment 0) {address : Address}
    (sought : Sought decoder origin entries address) : address.referent = .segment 0 := by
  induction sought with
  | entry listed => exact home _ listed
  | branch _ decodes branches points ih =>
      obtain ⟨place, image, -, -, -, decoded⟩ := decodes
      rw [Program.referent_of_branchTarget? (stays _ _ _ _ decoded branches) points, ih]
  | onward _ decodes _ ahead ih =>
      obtain ⟨place, image, -, -, -, decoded⟩ := decodes
      rw [((following?_eq_some_iff (placed _ _ _ _ decoded).2.2).mp ahead).1, ih]

/-- A step that decodes with the right instruction pointer is a step of the pinned decoder. -/
theorem Step.pinned (step : Step decoder before after)
    (fits : ∀ task start here offset, before.activity = .scanning task start here offset →
      here.offset.toNat = offset) : Step decoder.pinned before after := by
  cases step with
  | enter entries => exact .enter entries
  | derive procedures flow items findings => exact .derive procedures flow items findings
  | take next room => exact .take next room
  | dismiss awaits refuses => exact .dismiss awaits refuses
  | consume reads => exact .consume reads
  | skip dynamic ready => exact .skip dynamic ready
  | note points finding message => exact .note points finding message
  | cut points reached starts done => exact .cut points reached starts done
  | begin points reached inside unknown => exact .begin points reached inside unknown
  | exhaust spent => exact .exhaust spent
  | miss absent => exact .miss absent
  | refuse found refusal message =>
      refine .refuse found ?_ message
      cases refusal with
      | undecodable failed =>
          exact .undecodable ((Decoder.pinned_eq (fits _ _ _ _ rfl) decoder _ _).trans failed)
      | overlap decoded overlap =>
          exact .overlap ((Decoder.pinned_eq (fits _ _ _ _ rfl) decoder _ _).trans decoded) overlap
  | advance room found decoded unattributed =>
      exact .advance room found ((Decoder.pinned_eq (fits _ _ _ _ rfl) decoder _ _).trans decoded)
        unattributed
  | close done => exact .close done
  | record recorded => exact .record recorded
  | forget unrecorded => exact .forget unrecorded

theorem Sound.offset_eq {state : Analysis} {task : Task} {start : Place} {here : Address}
    {offset : Nat} (sound : Sound origin ⟨state, .scanning task start here offset⟩)
    (flat : origin.Flat) (home : here.referent = .segment 0) :
    start.image = 0 ∧ here.offset.toNat = offset := by
  have reached := sound.located.2.1
  rw [sound.owned.remarked.resolve, flat.resolve home, Option.some.injEq, Place.mk.injEq] at reached
  exact ⟨reached.1.symm, reached.2⟩

/-- In a flat program all of a search is one of the pinned decoder. -/
theorem Proceeds.pinned (regular : origin.Regular) (placed : decoder.Placed) (blind : decoder.Blind)
    (stays : decoder.Local) (flat : origin.Flat) (tables : settings.jumpTables = false)
    (home : ∀ entry ∈ entries, entry.address.referent = .segment 0)
    (proceeds : Proceeds decoder ⟨(fresh origin settings).enter entries, .idle⟩ moment) :
    Proceeds decoder.pinned ⟨(fresh origin settings).enter entries, .idle⟩ moment := by
  induction proceeds with
  | refl => exact .refl
  | @tail middle last earlier works ih =>
      have sound := Sound.steps regular placed.pinned
        (.head (enter_step _ entries) (Proceeds.steps ih))
      have seeks := Seeks.proceeds regular placed.pinned blind.pinned tables ih
      refine ih.tail ⟨works.1.pinned fun task start here offset scanning => ?_, works.2⟩
      obtain ⟨state, activity⟩ := middle
      obtain rfl : activity = .scanning task start here offset := scanning
      exact (sound.offset_eq flat ((seeks.scanned _ _ _ _ rfl).home placed.pinned stays.pinned home)).2

end Home

end Analysis

end RealMode
