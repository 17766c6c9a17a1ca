import RealMode.Proofs.JumpTable
import RealMode.Proofs.Program.Layout

/-! Slots that a jump takes from its table.

A slot is taken as a whole or not at all. Its two bytes become data after the place that its value
leads to has been looked at, and only the first of them has to lie in the segment of the jump. So
the value may lead into the slot itself, and the slot may begin with the last byte of a segment. -/

set_option autoImplicit false

namespace RealMode

theorem Address.add?_slotSize (address : Address) :
    address.add? (UInt16.ofNat JumpTable.slotSize) =
      if address.offset.toNat + 2 ≤ 0xFFFF then some ⟨address.referent, address.offset + 2⟩
      else none := by
  split
  · rename_i fits
    rw [add?, move?_eq_some_iff]
    refine ⟨rfl, ?_⟩
    simp only [JumpTable.slotSize, UInt16.toNat_add, UInt16.reduceToNat, UInt16.reduceOfNat]
    omega
  · rename_i wraps
    rw [Option.eq_none_iff_forall_ne_some]
    intro moved found
    have := moved.offset.toNat_lt
    obtain ⟨-, offset⟩ := move?_eq_some_iff.mp found
    simp only [JumpTable.slotSize, UInt16.reduceToNat, UInt16.reduceOfNat] at offset
    omega

namespace JumpTable

/-- The jump at `source` takes the slot that `reference` waits for. The slot holds `value`, and the
program is `before` until then and `after` from then on. -/
structure Takes (before : Program) (reference : Reference) (slot : Slot) (after : Program)
    (source : Address) (value : UInt16) : Prop where
  waits : reference = .indexed source slot.location
  located : before.resolve slot.location = some slot.place
  near : ∀ jump owner, before.resolve source = some jump → before.segmentAt? jump = some owner →
    (before.segmentAt? slot.place).map Segment.id = some owner.id
  held : ∃ image, before.image? slot.place.image = some image ∧
    image.Offers slot.place.offset value ∧
    image.mark .data slot.place.offset slotSize = .ok (image.withSlot slot.place.offset)
  marked : after = before.modifyImage slot.place.image (·.withSlot slot.place.offset)
  leads : ∃ place, before.resolve ⟨source.referent, value⟩ = some place ∧
    before.contains place = true ∧
    ((before.marksAt place).isUnknown = true ∨ (before.marksAt place).startsCode = true)
  follows : slot.reference = ⟨some source, some ⟨source.referent, value⟩, .indexedJump, some slot.location⟩
  next : slot.next =
    if slot.location.offset.toNat + 2 ≤ 0xFFFF then
      some (.indexed source ⟨slot.location.referent, slot.location.offset + 2⟩)
    else none

theorem not_isForeign_iff {program : Program} {source : Address} {slot : Place} :
    (program.resolve source).any (isForeign program · slot) = false ↔
      ∀ jump owner, program.resolve source = some jump → program.segmentAt? jump = some owner →
        (program.segmentAt? slot).map Segment.id = some owner.id := by
  cases program.resolve source with
  | none => simp
  | some jump =>
      rw [Option.any_some, isForeign]
      constructor
      · intro near other owner same owned
        obtain rfl := Option.some.inj same
        simpa [owned] using near
      · intro near
        cases owned : program.segmentAt? jump with
        | none => rfl
        | some owner => simpa using near jump owner rfl owned

theorem exists_takes_iff {before after : Program} {reference : Reference} {slot : Slot}
    {source : Address} :
    (∃ value, Takes before reference slot after source value) ↔
      Reads before reference source slot ∧ after = before.paint .data slot.place slotSize := by
  constructor
  · rintro ⟨value, takes⟩
    obtain ⟨image, found, offers, -⟩ := takes.held
    have word : value? before slot.place = some value :=
      value?_eq_some_iff_offers.mpr ⟨image, found, offers⟩
    obtain ⟨place, aimed, inside, allowed⟩ := takes.leads
    refine ⟨⟨takes.waits, takes.located, not_isForeign_iff.mpr takes.near, value?_eq_some word,
      ⟨value, place, ?_, word, aimed, inside, Bool.or_eq_true_iff.mpr allowed⟩, ?_⟩, takes.marked⟩
    · rw [takes.follows, takes.waits]
      rfl
    · rw [takes.next, Address.add?_slotSize]
      split <;> rfl
  · rintro ⟨reads, rfl⟩
    obtain ⟨value, place, followed, word, aimed, inside, allowed⟩ := reads.target
    obtain ⟨image, found, offers⟩ := value?_eq_some_iff_offers.mp word
    refine ⟨value, reads.waits, reads.reached, not_isForeign_iff.mp reads.near,
      ⟨image, found, offers, offers.mark_eq⟩, rfl,
      ⟨place, aimed, inside, Bool.or_eq_true_iff.mp allowed⟩, ?_, ?_⟩
    · rw [followed, reads.waits]
      rfl
    · rw [reads.next, Address.add?_slotSize]
      split <;> rfl

theorem take_eq_ok_iff {program after : Program} {reference : Reference} {slot : Slot} :
    take program reference = (.ok slot, after) ↔
      ∃ source, Reads program reference source slot ∧
        after = program.paint .data slot.place slotSize := by
  constructor
  · intro taken
    rcases take_cases program reference with ⟨refusal, -, refused⟩ | ⟨source, other, reads, done⟩
    · cases refused.symm.trans taken
    · obtain ⟨same, rfl⟩ := Prod.mk.inj (done.symm.trans taken)
      obtain rfl := Except.ok.inj same
      exact ⟨source, reads, rfl⟩
  · rintro ⟨source, reads, rfl⟩
    exact reads.take_eq

/-- A slot that is refused leaves the program as it is. -/
theorem eq_of_refused {program kept : Program} {reference : Reference} {refusal : Refusal}
    (refused : take program reference = (.error refusal, kept)) : kept = program := by
  rcases take_cases program reference with ⟨_, -, same⟩ | ⟨_, _, -, done⟩
  · exact (Prod.mk.inj (refused.symm.trans same)).2
  · cases refused.symm.trans done

theorem readSlot_of_refused {state : Analysis} {reference : Reference} {refusal : Refusal} {kept : Program}
    (refused : take state.program reference = (.error refusal, kept)) :
    state.readSlot reference = state := by
  obtain rfl := eq_of_refused refused
  rw [Analysis.readSlot, refused]

theorem program_readSlot {state : Analysis} {reference : Reference} {slot : Slot} {after : Program}
    (taken : take state.program reference = (.ok slot, after)) :
    (state.readSlot reference).program = after := by
  simp only [Analysis.readSlot, taken]
  cases slot.next <;> rfl

/-- A slot that is refused leaves everything as it was. A slot is taken exactly under the conditions of
`Takes`, and then nothing changes in the program but the marks of its two bytes. In a program that
loading can produce, unknown bytes have no marks and first bytes of instructions have two. -/
theorem take_marks_slot_only (state : Analysis) (reference : Reference) :
    (∀ refusal kept, take state.program reference = (.error refusal, kept) →
      kept = state.program ∧ state.readSlot reference = state) ∧
    (∀ slot after, take state.program reference = (.ok slot, after) ↔
      ∃ source value, Takes state.program reference slot after source value) ∧
    (∀ slot after, take state.program reference = (.ok slot, after) →
      (state.readSlot reference).program = after) ∧
    (state.program.Built → ∀ place,
      ((state.program.marksAt place).isUnknown = true ↔ state.program.marksAt place = .empty) ∧
      ((state.program.marksAt place).startsCode = true ↔
        state.program.marksAt place = Marks.code.union .lead)) := by
  refine ⟨fun refusal kept refused => ⟨eq_of_refused refused, readSlot_of_refused refused⟩, fun slot after => ?_,
    fun slot after taken => program_readSlot taken,
    fun built place => ⟨built.isUnknown_iff place, built.startsCode_iff place⟩⟩
  rw [take_eq_ok_iff]
  exact exists_congr fun source => exists_takes_iff.symm

/-- A jump with a table of four slots. The second one holds its own address, and the segment of the jump
ends within the third. -/
def uneven : Program where
  images := #[(Image.fresh 0 "code" #[0x2E, 0xFF, 0xA7, 0x05, 0x00, 0x0D, 0x00, 0x07, 0x00, 0x0D, 0x00,
    0x0D, 0x00, 0xC3]).painted .code 0 5]
  segments := [⟨0, "text", "CODE", 0, 0, 10⟩, ⟨1, "lib", "CODE", 0, 10, 4⟩]
  groups := []
  externals := []
  publics := []
  frameBase := none

theorem uneven_built : uneven.Built := by
  have image := Program.Built.empty.addImage "code"
    #[0x2E, 0xFF, 0xA7, 0x05, 0x00, 0x0D, 0x00, 0x07, 0x00, 0x0D, 0x00, 0x0D, 0x00, 0xC3]
  have text := image.addSegment "text" "CODE" 0 0 10
  have lib := text.addSegment "lib" "CODE" 0 10 4
  exact lib.mark 0 .code 0 5

/-- The jump waits for the slot at an offset. -/
def unevenSlot (offset : UInt16) : Reference := .indexed ⟨.segment 0, 0⟩ ⟨.segment 0, offset⟩

/-- The slot of the table at `offset`, if it is taken with a value. -/
def unevenTaken (offset value : UInt16) : Slot :=
  ⟨(unevenSlot offset).withTarget ⟨.segment 0, value⟩, some (unevenSlot (offset + 2)),
    ⟨0, offset.toNat⟩, ⟨.segment 0, offset⟩⟩

theorem uneven_take_first :
    take uneven (unevenSlot 5) = (.ok (unevenTaken 5 0x0D), uneven.paint .data ⟨0, 5⟩ slotSize) := by
  decide +kernel

/-- The last slot lies in the other segment and is refused. The first one is taken, and the jump waits
for the second. -/
theorem uneven_take_marks_slot_only :
    let state := Analysis.fresh uneven {}
    let after := uneven.paint .data ⟨0, 5⟩ slotSize
    take uneven (unevenSlot 11) = (.error .foreignSegment, uneven) ∧
      state.readSlot (unevenSlot 11) = state ∧
      take uneven (unevenSlot 5) = (.ok (unevenTaken 5 0x0D), after) ∧
      (∃ source value, Takes uneven (unevenSlot 5) (unevenTaken 5 0x0D) after source value) ∧
      (state.readSlot (unevenSlot 5)).program = after ∧
      uneven.Built ∧ uneven.marksAt ⟨0, 0⟩ = Marks.code.union .lead := by
  intro state after
  obtain ⟨unchanged, -, -, -⟩ := take_marks_slot_only state (unevenSlot 11)
  obtain ⟨-, exactly, changed, plain⟩ := take_marks_slot_only state (unevenSlot 5)
  have refused : take uneven (unevenSlot 11) = (.error .foreignSegment, uneven) := by decide +kernel
  exact ⟨refused, (unchanged _ _ refused).2, uneven_take_first, (exactly _ _).mp uneven_take_first,
    changed _ _ uneven_take_first, uneven_built, (plain uneven_built ⟨0, 0⟩).2.mp (by decide +kernel)⟩

/-- After a slot has been taken, the byte that its value leads to is unknown or starts an instruction,
unless it is a byte of the slot. It has been unknown until then and is data from then on in that case. -/
theorem taken_target_outside_slot {program after : Program} {reference : Reference} {slot : Slot}
    (taken : take program reference = (.ok slot, after)) :
    ∃ target place, slot.reference.target = some target ∧ after.resolve target = some place ∧
      after.contains place = true ∧
      (((after.marksAt place).isUnknown = true ∨ (after.marksAt place).startsCode = true) ↔
        ¬place.InRun slot.place slotSize) ∧
      (place.InRun slot.place slotSize →
        (program.marksAt place).isUnknown = true ∧ (after.marksAt place).isData = true) := by
  obtain ⟨source, reads, rfl⟩ := take_eq_ok_iff.mp taken
  obtain ⟨value, place, followed, -, aimed, inside, allowed⟩ := reads.target
  have remarked := reads.free.remarked (show Content.data ≠ .padding by decide)
  have known : slot.reference.target = some ⟨source.referent, value⟩ := by rw [followed]; rfl
  refine ⟨_, place, known, (remarked.resolve _).trans aimed, (remarked.contains place).trans inside,
    ?_, fun own => ?_⟩
  · rw [reads.free.marksAt_paint]
    split
    · rename_i own
      simp [Marks.isUnknown_inRun, Marks.startsCode_inRun, own]
    · rename_i apart
      exact iff_of_true (Bool.or_eq_true_iff.mp allowed) apart
  · refine ⟨reads.free.unknown own, ?_⟩
    rw [reads.free.marksAt_paint, if_pos own, Marks.isData_inRun]
    rfl

theorem uneven_taken_target_outside_slot :
    let after := uneven.paint .data ⟨0, 5⟩ slotSize
    take uneven (unevenSlot 5) = (.ok (unevenTaken 5 0x0D), after) ∧
      after.resolve ⟨.segment 0, 0x0D⟩ = some ⟨0, 13⟩ ∧
      ((after.marksAt ⟨0, 13⟩).isUnknown = true ∨ (after.marksAt ⟨0, 13⟩).startsCode = true) := by
  intro after
  have aimed : after.resolve ⟨.segment 0, 0x0D⟩ = some ⟨0, 13⟩ := by decide +kernel
  obtain ⟨target, place, known, reached, -, stays, -⟩ := taken_target_outside_slot uneven_take_first
  obtain rfl := Option.some.inj known
  obtain rfl := Option.some.inj (aimed.symm.trans reached)
  exact ⟨uneven_take_first, aimed, stays.mpr (by decide)⟩

/-- The second slot is taken, although its value leads to the slot itself, which is data then. -/
theorem uneven_slot_leads_into_itself :
    let after := uneven.paint .data ⟨0, 7⟩ slotSize
    uneven.Built ∧ take uneven (unevenSlot 7) = (.ok (unevenTaken 7 7), after) ∧
      after.resolve ⟨.segment 0, 7⟩ = some ⟨0, 7⟩ ∧
      ¬((after.marksAt ⟨0, 7⟩).isUnknown = true ∨ (after.marksAt ⟨0, 7⟩).startsCode = true) :=
  ⟨uneven_built, by decide +kernel, by decide +kernel, by decide +kernel⟩

/-- A slot that is taken starts in the segment of the jump, if there is one. Its second byte lies there,
too, unless the first is the last byte of the segment. -/
theorem taken_slot_starts_in_segment {program after : Program} (built : program.Built)
    {reference : Reference} {slot : Slot} (taken : take program reference = (.ok slot, after))
    {source : Address} {jump : Place} {owner : Segment} (leaves : reference.source = some source)
    (located : program.resolve source = some jump) (owned : program.segmentAt? jump = some owner) :
    program.segmentAt? slot.place = some owner ∧ owner.covers slot.place = true ∧
      (owner.covers (slot.place.add 1) = true ↔ slot.place.offset + 1 ≠ owner.stop) := by
  obtain ⟨waiting, reads, -⟩ := take_eq_ok_iff.mp taken
  obtain rfl : waiting = source := by
    rw [reads.waits] at leaves
    exact Option.some.inj leaves
  have sameId := not_isForeign_iff.mp reads.near jump owner located owned
  obtain ⟨other, found, equal⟩ := Option.map_eq_some_iff.mp sameId
  obtain ⟨member, covered⟩ := Program.covers_of_segmentAt? found
  obtain rfl : other = owner :=
    built.eq_of_segmentId member (Program.covers_of_segmentAt? owned).1 equal
  refine ⟨found, covered, ?_⟩
  rw [Segment.covers_iff] at covered ⊢
  dsimp only [Place.add]
  omega

theorem uneven_taken_slot_starts_in_segment :
    let text : Segment := ⟨0, "text", "CODE", 0, 0, 10⟩
    let after := uneven.paint .data ⟨0, 5⟩ slotSize
    uneven.Built ∧ take uneven (unevenSlot 5) = (.ok (unevenTaken 5 0x0D), after) ∧
      uneven.resolve ⟨.segment 0, 0⟩ = some ⟨0, 0⟩ ∧ uneven.segmentAt? ⟨0, 0⟩ = some text ∧
      text.covers ⟨0, 5⟩ = true ∧ text.covers ⟨0, 6⟩ = true := by
  intro text after
  have located : uneven.resolve ⟨.segment 0, 0⟩ = some ⟨0, 0⟩ := by decide
  have owned : uneven.segmentAt? ⟨0, 0⟩ = some text := by decide
  obtain ⟨-, first, second⟩ :=
    taken_slot_starts_in_segment uneven_built uneven_take_first rfl located owned
  exact ⟨uneven_built, uneven_take_first, located, owned, first, second.mpr (by decide)⟩

/-- The third slot is taken, although its second byte is the first one of the other segment. -/
theorem uneven_slot_crosses_segments :
    let text : Segment := ⟨0, "text", "CODE", 0, 0, 10⟩
    let after := uneven.paint .data ⟨0, 9⟩ slotSize
    uneven.Built ∧ take uneven (unevenSlot 9) = (.ok (unevenTaken 9 0x0D), after) ∧
      uneven.resolve ⟨.segment 0, 0⟩ = some ⟨0, 0⟩ ∧ uneven.segmentAt? ⟨0, 0⟩ = some text ∧
      text.covers ⟨0, 9⟩ = true ∧ text.covers ⟨0, 10⟩ = false :=
  ⟨uneven_built, by decide +kernel, by decide, by decide, by decide, by decide⟩

end JumpTable

end RealMode
