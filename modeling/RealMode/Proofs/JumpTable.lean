import RealMode.Analysis.Discovery
import RealMode.Proofs.Program.Target

/-! What reading a slot of a jump table changes.

A slot is read only if its bytes are unknown. Then they become data, and the jump is going to be
followed to the value of the slot and through the slot behind it. -/

set_option autoImplicit false

namespace RealMode

namespace Image

theorem word?_eq_some_iff {image : Image} {offset : Nat} {value : UInt16} :
    image.word? offset = some value ↔ ∃ low high, image.bytes[offset]? = some low ∧
      image.bytes[offset + 1]? = some high ∧ value.toNat = low.toNat + 256 * high.toNat := by
  have joined (low high : UInt8) :
      (low.toUInt16 + high.toUInt16 * 256).toNat = low.toNat + 256 * high.toNat := by
    have := low.toNat_lt
    have := high.toNat_lt
    simp only [UInt16.toNat_add, UInt16.toNat_mul, UInt8.toNat_toUInt16, UInt16.reduceToNat]
    omega
  unfold word?
  cases image.bytes[offset]? with
  | none => simp
  | some low =>
      cases image.bytes[offset + 1]? with
      | none => simp
      | some high => simp [← UInt16.toNat_inj, joined, eq_comm]

/-- Two unknown bytes of the image at `offset` hold a word, the low byte first. -/
structure Offers (image : Image) (offset : Nat) (value : UInt16) : Prop where
  fits : offset + 2 ≤ image.size
  covered : offset + 2 ≤ image.marks.size
  unknown : (image.marksAt offset).isUnknown = true ∧ (image.marksAt (offset + 1)).isUnknown = true
  word : ∃ low high, image.bytes[offset]? = some low ∧ image.bytes[offset + 1]? = some high ∧
    value.toNat = low.toNat + 256 * high.toNat

theorem offers_iff {image : Image} {offset : Nat} {value : UInt16} :
    image.Offers offset value ↔
      image.isUnattributed offset (offset + JumpTable.slotSize) = true ∧
        image.word? offset = some value := by
  rw [isUnattributed_iff, word?_eq_some_iff, JumpTable.slotSize]
  constructor
  · rintro ⟨-, covered, unknown, word⟩
    refine ⟨⟨covered, by omega, fun index low high => ?_⟩, word⟩
    obtain rfl | rfl : index = offset ∨ index = offset + 1 := by omega
    · exact unknown.1
    · exact unknown.2
  · rintro ⟨⟨covered, -, unknown⟩, word⟩
    refine ⟨?_, covered, ⟨unknown _ (by omega) (by omega), unknown _ (by omega) (by omega)⟩, word⟩
    obtain ⟨_, _, -, last, -⟩ := word
    have inside := (Array.getElem?_eq_some_iff.mp last).1
    unfold size
    omega

/-- The image with one data item in the two bytes at `offset`. -/
def withSlot (image : Image) (offset : Nat) : Image :=
  { image with
    marks := (image.marks.setIfInBounds offset (Marks.data.union .lead)).setIfInBounds
      (offset + 1) .data }

theorem Offers.mark_eq {image : Image} {offset : Nat} {value : UInt16}
    (offers : image.Offers offset value) :
    image.mark .data offset JumpTable.slotSize = .ok (image.withSlot offset) := by
  obtain ⟨unattributed, -⟩ := offers_iff.mp offers
  have unknown : image.unknownRun offset JumpTable.slotSize = true :=
    unknownRun_iff.mpr (isUnattributed_iff.mp unattributed).2.2
  have faultless : image.markFault? offset JumpTable.slotSize = none :=
    markFault?_eq_none_of_fits (by decide) offers.fits unknown
  rw [mark, faultless]
  rfl

end Image

namespace JumpTable

/-- `slot` is what a jump at `source` reads while `reference` waits for a slot. -/
structure Reads (program : Program) (reference : Reference) (source : Address) (slot : Slot) :
    Prop where
  waits : reference = .indexed source slot.location
  reached : program.resolve slot.location = some slot.place
  near : (program.resolve source).any (isForeign program · slot.place) = false
  free : program.Free slot.place slotSize
  target : ∃ value place, slot.reference = reference.withTarget ⟨source.referent, value⟩ ∧
    value? program slot.place = some value ∧
    program.resolve ⟨source.referent, value⟩ = some place ∧ program.contains place = true ∧
    ((program.marksAt place).isUnknown || (program.marksAt place).startsCode) = true
  next : slot.next = (slot.location.add? (UInt16.ofNat slotSize)).map (.indexed source)

/-- The slot for which a reference waits cannot be read. -/
def Refuses (program : Program) (reference : Reference) : Prop :=
  ∃ refusal, read program reference = .error refusal

theorem value?_eq_some {program : Program} {slot : Place} {value : UInt16}
    (read : value? program slot = some value) : program.Free slot slotSize := by
  unfold value? at read
  cases found : program.image? slot.image with
  | none => simp [found] at read
  | some image =>
      simp only [found, Option.bind_eq_bind, Option.bind_some] at read
      split at read
      · rename_i unknown
        exact ⟨by decide, image, found, unknown⟩
      · cases read

theorem value?_eq_some_iff {program : Program} {slot : Place} {value : UInt16} :
    value? program slot = some value ↔
      program.Free slot slotSize ∧ program.word? slot = some value := by
  refine ⟨fun read => ⟨value?_eq_some read, word?_of_value? read⟩, fun ⟨free, word⟩ => ?_⟩
  obtain ⟨-, image, found, unknown⟩ := free
  rw [Program.word?, found] at word
  simp only [value?, found, Option.bind_eq_bind, Option.bind_some, if_pos unknown]
  exact word

theorem value?_eq_some_iff_offers {program : Program} {slot : Place} {value : UInt16} :
    value? program slot = some value ↔
      ∃ image, program.image? slot.image = some image ∧ image.Offers slot.offset value := by
  unfold value?
  cases program.image? slot.image with
  | none => simp
  | some image => simp [Image.offers_iff]

theorem read_eq_ok {program : Program} {reference : Reference} {slot : Slot}
    (succeeded : read program reference = .ok slot) :
    ∃ source, Reads program reference source slot := by
  unfold read at succeeded
  split at succeeded
  -- Each way to refuse a slot is one split, and only the last one leaves a slot.
  · rename_i source location
    split at succeeded
    · cases succeeded
    · rename_i place reached
      split at succeeded
      · cases succeeded
      · rename_i near
        split at succeeded
        · cases succeeded
        · rename_i value valueRead
          dsimp only at succeeded
          split at succeeded
          · cases succeeded
          · rename_i targetPlace targetFound
            obtain ⟨targetReached, inside⟩ := Option.filter_eq_some_iff.mp targetFound
            split at succeeded
            · rename_i allowed
              obtain rfl := Except.ok.inj succeeded
              exact ⟨source, rfl, reached, Bool.eq_false_iff.mpr near, value?_eq_some valueRead,
                ⟨value, targetPlace, rfl, valueRead, targetReached, inside, allowed⟩, by dsimp only⟩
            · cases succeeded
  · cases succeeded

namespace Reads

variable {program : Program} {reference : Reference} {source : Address} {slot : Slot}

theorem read_eq (reads : Reads program reference source slot) :
    read program reference = .ok slot := by
  obtain ⟨value, place, followed, word, aimed, inside, allowed⟩ := reads.target
  have found : (program.resolve ⟨source.referent, value⟩).filter program.contains = some place :=
    Option.filter_eq_some_iff.mpr ⟨aimed, inside⟩
  have result : slot = ⟨reference.withTarget ⟨source.referent, value⟩,
      (slot.location.add? (UInt16.ofNat slotSize)).map (.indexed source), slot.place, slot.location⟩ := by
    rw [← followed, ← reads.next]
  rw [reads.waits, Reference.indexed, read]
  simp only [reads.reached, reads.near, word, found, allowed]
  rw [result, reads.waits]
  rfl

/-- The bytes of a slot that can be read can be marked. -/
theorem consume_eq (reads : Reads program reference source slot) :
    consume program slot = (.ok slot, program.paint .data slot.place slotSize) := by
  obtain ⟨value, -, -, word, -⟩ := reads.target
  obtain ⟨image, found, offers⟩ := value?_eq_some_iff_offers.mp word
  simp only [consume, found, offers.mark_eq]
  exact congrArg (Prod.mk _) (Program.modifyImage_congr found rfl)

theorem take_eq (reads : Reads program reference source slot) :
    take program reference = (.ok slot, program.paint .data slot.place slotSize) := by
  rw [take, reads.read_eq]
  exact reads.consume_eq

/-- What can be read when more is known could be read before. -/
theorem of_remarked {before : Program} (reads : Reads program reference source slot)
    (remarked : before.Remarked program) : Reads before reference source slot where
  waits := reads.waits
  reached := (remarked.resolve _).symm.trans reads.reached
  near := by
    have foreign : isForeign before = isForeign program := by
      funext jump place
      have segments : program.blank.segments = before.blank.segments := congrArg _ remarked.blank
      unfold isForeign Program.segmentAt?
      rw [show program.segments = before.segments from segments]
    rw [foreign, ← remarked.resolve]
    exact reads.near
  free := reads.free.of_remarked remarked
  target := by
    obtain ⟨value, place, followed, read, aimed, inside, allowed⟩ := reads.target
    obtain ⟨free, word⟩ := value?_eq_some_iff.mp read
    refine ⟨value, place, followed, value?_eq_some_iff.mpr
      ⟨free.of_remarked remarked, (remarked.word? _).symm.trans word⟩,
      (remarked.resolve _).symm.trans aimed, (remarked.contains place).symm.trans inside, ?_⟩
    rcases Bool.eq_false_or_eq_true (before.marksAt place).isUnknown with unknown | known
    · rw [unknown, Bool.true_or]
    · rwa [remarked.marksAt_of_known known] at allowed
  next := reads.next

theorem source_of_mem (reads : Reads program reference source slot) {task : Task}
    (member : task ∈ Task.recorded slot.reference :: (slot.next.map Task.recorded).toList) :
    task.reference.source = some source := by
  rcases List.mem_cons.mp member with rfl | next
  · obtain ⟨value, place, target, -⟩ := reads.target
    rw [Task.recorded, target, reads.waits]
    rfl
  · rw [reads.next, Option.map_map, Option.mem_toList, Option.map_eq_some_iff] at next
    obtain ⟨location, -, rfl⟩ := next
    rfl

end Reads

/-- A slot is refused where it is read, or it is taken. -/
theorem take_cases (program : Program) (reference : Reference) :
    (∃ refusal, read program reference = .error refusal ∧
      take program reference = (.error refusal, program)) ∨
    ∃ source slot, Reads program reference source slot ∧
      take program reference = (.ok slot, program.paint .data slot.place slotSize) := by
  cases result : read program reference with
  | error refusal =>
      refine .inl ⟨refusal, rfl, ?_⟩
      rw [take, result]
  | ok slot =>
      obtain ⟨source, reads⟩ := read_eq_ok result
      exact .inr ⟨source, slot, reads, reads.take_eq⟩

/-- A slot that is refused stays refused, whatever else becomes known. -/
theorem Refuses.mono {before after : Program} {reference : Reference}
    (refuses : Refuses before reference) (remarked : before.Remarked after) :
    Refuses after reference := by
  obtain ⟨refusal, refused⟩ := refuses
  cases later : read after reference with
  | error other => exact ⟨other, later⟩
  | ok slot =>
      obtain ⟨source, reads⟩ := read_eq_ok later
      rw [(reads.of_remarked remarked).read_eq] at refused
      cases refused

end JumpTable

namespace Analysis

/-- The state after a jump at `source` has consumed a slot. -/
def consumed (state : Analysis) (source : Address) (slot : JumpTable.Slot) : Analysis :=
  { state with
    program := state.program.paint .data slot.place JumpTable.slotSize
    slots := state.slots ++ [⟨slot.place, slot.location, source⟩]
    pending := (Task.recorded slot.reference :: (slot.next.map Task.recorded).toList).foldl
      Queue.enqueue state.pending }

theorem readSlot_eq (state : Analysis) (reference : Reference) :
    JumpTable.Refuses state.program reference ∧ state.readSlot reference = state ∨
      ∃ source slot, JumpTable.Reads state.program reference source slot ∧
        state.readSlot reference = state.consumed source slot := by
  unfold readSlot
  rcases JumpTable.take_cases state.program reference with ⟨refusal, refused, same⟩ | ⟨source, slot, reads, taken⟩
  · refine .inl ⟨⟨refusal, refused⟩, ?_⟩
    rw [same]
  · refine .inr ⟨source, slot, reads, ?_⟩
    have knownSource : reference.source = some source := by rw [reads.waits]; rfl
    rw [knownSource, taken]
    cases next : slot.next <;> simp only [consumed, next] <;> rfl

end Analysis

end RealMode
