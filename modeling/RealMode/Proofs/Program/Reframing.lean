import RealMode.Proofs.Program.Settling

/-! Targets of fix-ups in frames.

A fix-up may ask for its target to be counted from another referent. The address is written in
another way then, but it stands for the same place, and it stays as it was where the frame does not
reach that place. -/

set_option autoImplicit false

namespace RealMode.Program

variable {program : Program}

section Frame

variable {address moved : Address} {frame : Referent} {place base : Place}

/-- An address that is reframed counts from the base of the frame to the place that it had. -/
theorem reframe?_eq_some_iff :
    program.reframe? address frame = some moved ↔
      moved.referent = frame ∧ ∃ place base, program.resolve address = some place ∧
        program.base? frame = some base ∧ base.add moved.offset.toNat = place := by
  simp only [reframe?, Option.bind_eq_bind, Option.bind_eq_some_iff]
  constructor
  · rintro ⟨place, located, base, found, reframed⟩
    split at reframed
    · rename_i reaches
      obtain ⟨image, above, near⟩ := reaches
      cases reframed
      refine ⟨rfl, place, base, located, found, ?_⟩
      rw [UInt16.toNat_ofNat_of_lt' near, Place.add, Nat.add_sub_cancel' above, ← image]
    · cases reframed
  · rintro ⟨rfl, _, base, located, found, rfl⟩
    refine ⟨_, located, base, found, ?_⟩
    have distance : (base.add moved.offset.toNat).offset - base.offset = moved.offset.toNat :=
      Nat.add_sub_cancel_left ..
    have reaches : (base.add moved.offset.toNat).image = base.image ∧
        base.offset ≤ (base.add moved.offset.toNat).offset ∧ moved.offset.toNat < 65536 :=
      ⟨rfl, Nat.le_add_right .., moved.offset.toNat_lt⟩
    rw [distance, if_pos reaches, UInt16.ofNat_toNat]

/-- An address stands for the same place in another frame. -/
theorem resolve_of_reframe? (reframed : program.reframe? address frame = some moved) :
    program.resolve moved = program.resolve address := by
  obtain ⟨rfl, place, base, located, found, sum⟩ := reframe?_eq_some_iff.mp reframed
  rw [located]
  exact resolve_eq_some_iff.mpr ⟨base, found, sum⟩

/-- Nothing changes in the frame that an address has. -/
theorem reframe?_own (located : program.resolve address = some place) :
    program.reframe? address address.referent = some address := by
  obtain ⟨base, found, sum⟩ := resolve_eq_some_iff.mp located
  exact reframe?_eq_some_iff.mpr ⟨rfl, place, base, located, found, sum⟩

/-- A frame reaches the 64K from its base on. -/
theorem exists_reframe? (located : program.resolve address = some place)
    (found : program.base? frame = some base) (image : base.image = place.image)
    (above : base.offset ≤ place.offset) (near : place.offset ≤ base.offset + 0xFFFF) :
    ∃ moved, program.reframe? address frame = some moved := by
  have word : (UInt16.ofNat (place.offset - base.offset)).toNat = place.offset - base.offset :=
    UInt16.toNat_ofNat_of_lt' (show _ < 65536 by omega)
  refine ⟨⟨frame, UInt16.ofNat (place.offset - base.offset)⟩,
    reframe?_eq_some_iff.mpr ⟨rfl, place, base, located, found, ?_⟩⟩
  rw [word, Place.add, Nat.add_sub_cancel' above, image]

end Frame

section Fixup

variable {fixup : Fixup} {target address : Address}

theorem requestedFrame?_eq_some_iff {frame : Referent} :
    requestedFrame? fixup = some frame ↔
      fixup.mode = .segmentRelative ∧ fixup.frame = some (.referent frame) := by
  unfold requestedFrame?
  split <;> simp_all

theorem resolve_of_targetAddress? (settled : program.targetAddress? fixup.target = some target) :
    ∃ place, program.resolve target = some place := by
  obtain ⟨_, _, _, starts, -⟩ := targetAddress?_eq_some_iff.mp settled
  exact ⟨_, resolve_of_starts starts⟩

/-- The address of a fix-up is its target in the frame that it asks for, or else as it is. -/
theorem fixupAddress?_eq (settled : program.targetAddress? fixup.target = some target) :
    program.fixupAddress? fixup =
      some (((requestedFrame? fixup).bind (program.reframe? target)).getD target) := by
  obtain ⟨place, located⟩ := resolve_of_targetAddress? settled
  simp only [fixupAddress?, settled, Option.bind_eq_bind, Option.bind_some]
  cases requestedFrame? fixup with
  | none => rfl
  | some frame =>
      dsimp only
      split
      · rename_i own
        rw [own, Option.bind_some, reframe?_own located, Option.getD_some]
      · rfl

theorem exists_target_of_fixupAddress? (found : program.fixupAddress? fixup = some address) :
    ∃ target, program.targetAddress? fixup.target = some target := by
  simp only [fixupAddress?, Option.bind_eq_bind, Option.bind_eq_some_iff] at found
  obtain ⟨target, settled, -⟩ := found
  exact ⟨target, settled⟩

/-- The address of a fix-up is its target, or it comes from there by a change of frame. -/
theorem fixupAddress?_cases (settled : program.targetAddress? fixup.target = some target)
    (found : program.fixupAddress? fixup = some address) :
    (requestedFrame? fixup).bind (program.reframe? target) = none ∧ address = target ∨
      requestedFrame? fixup = some address.referent ∧
        program.reframe? target address.referent = some address := by
  rw [fixupAddress?_eq settled, Option.some.injEq] at found
  cases reframed : (requestedFrame? fixup).bind (program.reframe? target) with
  | none =>
      rw [reframed, Option.getD_none] at found
      exact .inl ⟨rfl, found.symm⟩
  | some moved =>
      rw [reframed, Option.getD_some] at found
      subst found
      obtain ⟨frame, requested, reframed⟩ := Option.bind_eq_some_iff.mp reframed
      obtain ⟨rfl, -⟩ := reframe?_eq_some_iff.mp reframed
      exact .inr ⟨requested, reframed⟩

theorem resolve_of_fixupAddress? (settled : program.targetAddress? fixup.target = some target)
    (found : program.fixupAddress? fixup = some address) :
    program.resolve address = program.resolve target := by
  rcases fixupAddress?_cases settled found with ⟨-, rfl⟩ | ⟨-, reframed⟩
  · rfl
  · exact resolve_of_reframe? reframed

/-- Whatever address a fix-up has, it resolves. -/
theorem exists_place_of_fixupAddress? (found : program.fixupAddress? fixup = some address) :
    ∃ place, program.resolve address = some place := by
  obtain ⟨target, settled⟩ := exists_target_of_fixupAddress? found
  rw [resolve_of_fixupAddress? settled found]
  exact resolve_of_targetAddress? settled

end Fixup

/-- A branch goes to a place if its operand is patched, be it as a whole or only its offset or
selector. -/
theorem exists_place_of_branchTarget? {instruction : Instruction} {source address : Address}
    {operand : Operand} {patch : Operand.Patch} (first : instruction.operands.head? = some operand)
    (patched : operand.patch = some patch)
    (points : program.branchTarget? instruction source = some address) :
    ∃ place, program.resolve address = some place := by
  obtain ⟨kind, _⟩ := operand
  dsimp only at patched
  subst patched
  simp only [branchTarget?, first, Option.bind_eq_bind, Option.bind_some] at points
  cases kind with
  | relative target => exact exists_place_of_fixupAddress? points
  | pointer selector offset =>
      cases field : patch.field with
      | whole | offset =>
          simp only [field] at points
          exact exists_place_of_fixupAddress? points
      | selector =>
          simp only [field, Option.bind_eq_some_iff, Option.some.injEq] at points
          obtain ⟨base, found, rfl⟩ := points
          exact ⟨_, resolve_eq_some_iff.mpr ⟨base, found, rfl⟩⟩
  | memory _ _ _ _ | register _ | immediate _ _ | other => cases points

/-- A fix-up has an address if and only if its target has one, and both stand for the same place,
whatever the mode and the frame. The address counts from the frame that is asked for if that reaches
the place. So a branch whose operand is patched never goes to an address that does not resolve. -/
theorem reframing_keeps_places (program : Program) :
    (∀ fixup, (program.fixupAddress? fixup).isSome = true ↔
      (program.targetAddress? fixup.target).isSome = true) ∧
    (∀ fixup target address, program.targetAddress? fixup.target = some target →
      program.fixupAddress? fixup = some address →
      ∃ place, program.resolve target = some place ∧ program.resolve address = some place ∧
        (address = target ∨
          fixup.mode = .segmentRelative ∧ fixup.frame = some (.referent address.referent)) ∧
        ∀ frame base, fixup.mode = .segmentRelative → fixup.frame = some (.referent frame) →
          program.base? frame = some base → base.image = place.image →
          base.offset ≤ place.offset → place.offset ≤ base.offset + 0xFFFF →
          address.referent = frame) ∧
    ∀ instruction source operand patch address, instruction.operands.head? = some operand →
      operand.patch = some patch →
      (∃ target, operand.kind = .relative target) ∨
        (∃ selector offset, operand.kind = .pointer selector offset) →
      program.branchTarget? instruction source = some address →
      ∃ place, program.resolve address = some place := by
  refine ⟨fun fixup => ?_, fun fixup target address settled found => ?_,
    fun instruction source operand patch address first patched _ points =>
      exists_place_of_branchTarget? first patched points⟩
  · simp only [Option.isSome_iff_exists]
    constructor
    · rintro ⟨address, found⟩
      exact exists_target_of_fixupAddress? found
    · rintro ⟨target, settled⟩
      exact ⟨_, fixupAddress?_eq settled⟩
  · obtain ⟨place, located⟩ := resolve_of_targetAddress? settled
    refine ⟨place, located, (resolve_of_fixupAddress? settled found).trans located, ?_⟩
    rcases fixupAddress?_cases settled found with ⟨unreached, same⟩ | ⟨requested, -⟩
    · refine ⟨.inl same, fun frame base mode named found image above near => ?_⟩
      obtain ⟨moved, reframed⟩ := exists_reframe? located found image above near
      rw [requestedFrame?_eq_some_iff.mpr ⟨mode, named⟩, Option.bind_some, reframed] at unreached
      cases unreached
    · refine ⟨.inr (requestedFrame?_eq_some_iff.mp requested), fun frame _ mode named _ _ _ _ => ?_⟩
      have requestedToo := requestedFrame?_eq_some_iff.mpr ⟨mode, named⟩
      exact Option.some.inj (requested.symm.trans requestedToo)

/-- Two images. The first has two segments, of which one starts 64K behind the other, a group of both,
and an external that stands for a byte between them. Physical frames lie in the second image. -/
def spread : Program where
  images := #[.fresh 0 "code" #[0xC3], .fresh 1 "rest" #[0xC3]]
  segments := [⟨0, "low", "CODE", 0, 0, 0x20⟩, ⟨1, "high", "CODE", 0, 0x10000, 0x20⟩,
    ⟨2, "other", "CODE", 1, 0, 0x20⟩]
  groups := [⟨0, "both", [1, 0]⟩]
  externals := [⟨0, "middle"⟩, ⟨1, "missing"⟩]
  publics := [⟨"middle", ⟨.group 0, 0x8000⟩⟩]
  frameBase := some ⟨1, 0x1000⟩

/-- A fix-up that asks for the fourth byte of the high segment in a frame. -/
def frameFixup (frame : Referent) : Fixup :=
  ⟨1, .offset16, .segmentRelative, ⟨.segment 1, 4⟩, some (.referent frame)⟩

/-- Of these frames only the first external changes the address: the group starts too low, physical
frames lie in another image, and the second external is unresolved. A far call whose selector is patched
with the first external goes to a place, too. -/
theorem spread_reframing_keeps_places :
    let call : Instruction := ⟨0, 0, 5, "call", "call", .call true,
      [⟨.pointer 0 6, some ⟨.selector, { frameFixup (.group 0) with target := ⟨.external 0, 0⟩ }⟩⟩]⟩
    (∀ frame, (spread.fixupAddress? (frameFixup frame)).isSome = true) ∧
    spread.fixupAddress? (frameFixup (.external 0)) = some ⟨.external 0, 0x8004⟩ ∧
    (∀ frame ∈ [.group 0, .segment 0, .segment 1, .segment 2, .frame 0x1000, .external 1],
      spread.fixupAddress? (frameFixup frame) = some ⟨.segment 1, 4⟩) ∧
    spread.resolve ⟨.external 0, 0x8004⟩ = spread.resolve ⟨.segment 1, 4⟩ ∧
    spread.branchTarget? call ⟨.segment 0, 0⟩ = some ⟨.external 0, 6⟩ ∧
    ∃ place, spread.resolve ⟨.external 0, 6⟩ = some place := by
  intro call
  obtain ⟨defined, same, goes⟩ := reframing_keeps_places spread
  have settled : spread.targetAddress? ⟨.segment 1, 4⟩ = some ⟨.segment 1, 4⟩ := by decide
  have moved : spread.fixupAddress? (frameFixup (.external 0)) = some ⟨.external 0, 0x8004⟩ := by
    decide
  have branch : spread.branchTarget? call ⟨.segment 0, 0⟩ = some ⟨.external 0, 6⟩ := by decide
  obtain ⟨place, target, address, -⟩ := same (frameFixup (.external 0)) _ _ settled moved
  refine ⟨fun frame => (defined (frameFixup frame)).mpr ?_, moved, by decide,
    address.trans target.symm, branch, ?_⟩
  · rw [frameFixup, settled, Option.isSome_some]
  · exact goes call _ _ _ _ rfl rfl (.inr ⟨_, _, rfl⟩) branch

end RealMode.Program
