import RealMode.Proofs.Block.Index
import RealMode.Proofs.JumpTable

/-! Who owns the bytes that an analysis has marked.

Bytes that have become code lie in a block or in the region that a scan has open. Bytes that have
become data lie in a table slot. No byte has two owners, and nothing else is owned. -/

set_option autoImplicit false

namespace RealMode.Analysis

/-- Marks, blocks, slots and the number of instructions agree on what has become of the program
`origin`, while the bytes in `held` wait to become a block. -/
structure Owned (origin : Program) (state : Analysis) (held : Place → Prop) : Prop where
  remarked : origin.Remarked state.program
  ordered : state.blocks.Ordered
  code : ∀ place, origin.Gains state.program .code place ↔
    (∃ block ∈ state.blocks.blocks, block.contains place = true) ∨ held place
  apart : ∀ place, held place → ∀ block ∈ state.blocks.blocks, block.contains place = false
  data : ∀ place, origin.Gains state.program .data place ↔
    ∃ slot ∈ state.slots, place.InRun slot.place JumpTable.slotSize
  separate : state.slots.Pairwise fun left right =>
    ∀ place : Place, place.InRun left.place JumpTable.slotSize →
      ¬place.InRun right.place JumpTable.slotSize
  counted : state.instructions = origin.startsGained state.program

namespace Owned

variable {origin : Program} {state after : Analysis} {held grown : Place → Prop} {place : Place}

theorem fresh (program : Program) (settings : Settings) :
    Owned program (.fresh program settings) fun _ => False where
  remarked := .refl program
  ordered := .empty
  code place := by
    simp only [Analysis.fresh, BlockIndex.empty, List.not_mem_nil, false_and, exists_false, or_false,
      iff_false]
    rintro ⟨unknown, known⟩
    simp [Marks.isUnknown_of_meets known] at unknown
  apart _ nothing := nothing.elim
  data place := by
    simp only [Analysis.fresh, List.not_mem_nil, false_and, exists_false, iff_false]
    rintro ⟨unknown, known⟩
    simp [Marks.isUnknown_of_meets known] at unknown
  separate := .nil
  counted := (Program.startsGained_self program).symm

theorem congr (owned : Owned origin state held) (program : after.program = state.program)
    (blocks : after.blocks = state.blocks) (slots : after.slots = state.slots)
    (instructions : after.instructions = state.instructions) : Owned origin after held := by
  obtain ⟨remarked, ordered, code, apart, data, separate, counted⟩ := owned
  constructor <;> simpa only [program, blocks, slots, instructions]

theorem hold (owned : Owned origin state held) (same : ∀ byte, grown byte ↔ held byte) :
    Owned origin state grown := by
  have equal : grown = held := funext fun byte => propext (same byte)
  rw [equal]
  exact owned

theorem known (owned : Owned origin state held) {block : Block} (member : block ∈ state.blocks.blocks)
    (inside : block.contains place = true) : (state.program.marksAt place).isUnknown = false :=
  Marks.isUnknown_of_meets ((owned.code place).mpr (.inl ⟨block, member, inside⟩)).2

/-- An instruction that is marked adds its bytes to those that wait to become a block. -/
theorem mark {length : Nat} (owned : Owned origin state held) (regular : state.program.Regular)
    (free : state.program.Free place length)
    (grows : ∀ byte, grown byte ↔ held byte ∨ byte.InRun place length) :
    Owned origin (state.markInstruction place.image place.offset length) grown where
  remarked := owned.remarked.trans (free.remarked (by decide))
  ordered := owned.ordered
  code byte := by
    refine (free.gains_paint owned.remarked .code .code byte).trans ?_
    rw [owned.code, grows, or_assoc, and_iff_right rfl]
    rfl
  apart byte holds block member := by
    rcases (grows byte).mp holds with earlier | inside
    · exact owned.apart byte earlier block member
    · rw [Bool.eq_false_iff]
      intro inBlock
      have known := owned.known member inBlock
      simp [free.unknown inside] at known
  data byte := by
    refine (free.gains_paint owned.remarked .code .data byte).trans ?_
    rw [owned.data]
    simp [markInstruction]
  separate := owned.separate
  counted := (congrArg (· + 1) owned.counted).trans
    (Program.startsGained_paint_code owned.remarked regular free).symm

theorem consume {reference : Reference} {source : Address} {slot : JumpTable.Slot}
    (owned : Owned origin state held) (reads : JumpTable.Reads state.program reference source slot) :
    Owned origin (state.consumed source slot) held where
  remarked := owned.remarked.trans (reads.free.remarked (by decide))
  ordered := owned.ordered
  code byte := by
    refine (reads.free.gains_paint owned.remarked .data .code byte).trans ?_
    rw [owned.code]
    simp [consumed]
  apart := owned.apart
  data byte := by
    refine (reads.free.gains_paint owned.remarked .data .data byte).trans ?_
    rw [owned.data]
    simp only [consumed, true_and, List.mem_append, List.mem_singleton, or_and_right, exists_or,
      exists_eq_left]
  separate := by
    refine List.pairwise_append.mpr ⟨owned.separate, List.pairwise_singleton _ _, ?_⟩
    -- A slot is read only where bytes are unknown, and those of earlier slots are not.
    intro earlier member later found byte inEarlier inLater
    obtain rfl := List.mem_singleton.mp found
    have known := Marks.isUnknown_of_meets ((owned.data byte).mpr ⟨earlier, member, inEarlier⟩).2
    simp [reads.free.unknown inLater] at known
  counted := owned.counted.trans (Program.startsGained_paint_data reads.free).symm

theorem cut {block : Block} {cutoff : Nat} {blocks : BlockIndex} (owned : Owned origin state held)
    (result : state.blocks.Cut block cutoff blocks) :
    Owned origin { state with blocks } held where
  remarked := owned.remarked
  ordered := result.ordered
  code byte := by rw [owned.code, result.exists_contains_iff]
  apart byte holds other found := by
    rw [Bool.eq_false_iff]
    intro inside
    obtain ⟨earlier, member, contained⟩ := result.exists_contains_iff.mp ⟨other, found, inside⟩
    simp [owned.apart byte holds earlier member] at contained
  data := owned.data
  separate := owned.separate
  counted := owned.counted

theorem close {block : Block} {blocks : BlockIndex} (owned : Owned origin state held)
    (result : state.blocks.Grown block blocks)
    (waits : ∀ byte, held byte ↔ block.contains byte = true) :
    Owned origin { state with blocks } fun _ => False where
  remarked := owned.remarked
  ordered := result.ordered
  code byte := by
    rw [owned.code, waits, or_false]
    simp only [result.mem_iff, or_and_right, exists_or, exists_eq_left]
    exact or_comm
  apart _ nothing := nothing.elim
  data := owned.data
  separate := owned.separate
  counted := owned.counted

end Owned

end RealMode.Analysis
