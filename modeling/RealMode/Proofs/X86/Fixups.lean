import RealMode.Proofs.X86.Contract

/-! Which constants of an instruction the fix-ups of an image patch.

A fix-up patches a field of an operand if it covers the bytes of the field and no others. Fields of different
operands share no byte, and of the fields of a far pointer no two begin and end alike. So a fix-up patches one
field at most, and two fix-ups patch the same operand only if it is a far pointer and the first one patches
its offset and the second one its selector. -/

set_option autoImplicit false

namespace RealMode.X86

/-- The operand has a field of `length` bytes, of which the first is `start` bytes behind the start of the
instruction. -/
inductive Value.HasField : Value → Operand.Field → (start length : Nat) → Prop where
  | displacement {location : Memory} {keyword : String} {constant : Constant} :
      location.constant = some constant →
      HasField (.memory location keyword) .whole constant.start constant.length
  | immediate {value bits : Nat} {constant : Constant} :
      HasField (.immediate value bits (some constant)) .whole constant.start constant.length
  | branch {displacement : Nat} {isShort : Bool} {constant : Constant} :
      HasField (.branch displacement isShort constant) .whole constant.start constant.length
  | pointer {offset selector : Constant} :
      HasField (.farPointer offset selector) .whole offset.start (offset.length + selector.length)
  | pointerOffset {offset selector : Constant} :
      HasField (.farPointer offset selector) .offset offset.start offset.length
  | pointerSelector {offset selector : Constant} :
      HasField (.farPointer offset selector) .selector selector.start selector.length

namespace Value

variable {value : Value} {field other : Operand.Field} {start length : Nat}

theorem mem_sites_iff {operand : Nat} {site : PatchSite} :
    site ∈ value.sites operand ↔
      site.operand = operand ∧ value.HasField site.field site.start site.length := by
  obtain ⟨start, length, number, field⟩ := site
  constructor
  · intro member
    unfold sites at member
    split at member
    · split at member
      · rename_i found
        obtain ⟨rfl, rfl, rfl, rfl⟩ := PatchSite.mk.inj (List.mem_singleton.mp member)
        exact ⟨rfl, .displacement found⟩
      · cases member
    · obtain ⟨rfl, rfl, rfl, rfl⟩ := PatchSite.mk.inj (List.mem_singleton.mp member)
      exact ⟨rfl, .immediate⟩
    · obtain ⟨rfl, rfl, rfl, rfl⟩ := PatchSite.mk.inj (List.mem_singleton.mp member)
      exact ⟨rfl, .branch⟩
    · simp only [List.mem_cons, PatchSite.mk.injEq, List.not_mem_nil, or_false] at member
      rcases member with ⟨rfl, rfl, rfl, rfl⟩ | ⟨rfl, rfl, rfl, rfl⟩ | ⟨rfl, rfl, rfl, rfl⟩
      · exact ⟨rfl, .pointer⟩
      · exact ⟨rfl, .pointerOffset⟩
      · exact ⟨rfl, .pointerSelector⟩
    all_goals cases member
  · rintro ⟨rfl, has⟩
    cases has with
    | displacement found => simp [sites, found]
    | immediate | branch | pointer | pointerOffset | pointerSelector => simp [sites]

/-- A field begins where a constant of its operand does. -/
theorem HasField.exists_constant (has : value.HasField field start length) :
    ∃ constant ∈ value.constants, constant.start = start := by
  cases has with
  | displacement found => exact ⟨_, by simp [constants, found], rfl⟩
  | immediate | branch | pointer | pointerOffset | pointerSelector =>
      exact ⟨_, by simp [constants], rfl⟩

section Geometry

variable {otherStart otherLength : Nat} (filled : ∀ constant ∈ value.constants, 0 < constant.length)
  (joined : value.Joined)

include filled

theorem HasField.length_pos (has : value.HasField field start length) : 0 < length := by
  cases has with
  | displacement found => exact filled _ (by simp [constants, found])
  | immediate | branch | pointerOffset | pointerSelector => exact filled _ (by simp [constants])
  | pointer => exact Nat.add_pos_left (filled _ (by simp [constants])) _

include joined

/-- Fields of an operand that begin and end alike are the same part of it. -/
theorem HasField.field_unique (has : value.HasField field start length)
    (also : value.HasField other otherStart otherLength) (starts : start = otherStart)
    (lengths : length = otherLength) : field = other := by
  cases value with
  | farPointer offset selector =>
      have low : 0 < offset.length := filled offset (by simp [constants])
      have high : 0 < selector.length := filled selector (by simp [constants])
      simp only [Joined, Constant.stop] at joined
      cases has with
      | pointer =>
          cases also with
          | pointer => rfl
          | pointerOffset | pointerSelector => omega
      | pointerOffset =>
          cases also with
          | pointerOffset => rfl
          | pointer | pointerSelector => omega
      | pointerSelector =>
          cases also with
          | pointerSelector => rfl
          | pointer | pointerOffset => omega
  | _ => cases has <;> cases also <;> rfl

/-- A field of an operand that ends before another is the offset of a far pointer. -/
theorem HasField.of_ends_before (has : value.HasField field start length)
    (also : value.HasField other otherStart otherLength) (before : start + length ≤ otherStart) :
    field = .offset ∧ other = .selector := by
  have positive := has.length_pos filled
  cases value with
  | farPointer offset selector =>
      have low : 0 < offset.length := filled offset (by simp [constants])
      have high : 0 < selector.length := filled selector (by simp [constants])
      simp only [Joined, Constant.stop] at joined
      cases has with
      | pointerOffset =>
          cases also with
          | pointerSelector => exact ⟨rfl, rfl⟩
          | pointer | pointerOffset => omega
      | pointer | pointerSelector => cases also <;> omega
  | memory location keyword =>
      obtain ⟨found⟩ := has
      obtain ⟨again⟩ := also
      obtain rfl := Option.some.inj (found.symm.trans again)
      omega
  | _ => cases has <;> cases also <;> omega

end Geometry

end Value

namespace Machine

variable {machine : Machine} {offset operand number : Nat} {fixup other : Fixup}
  {field otherField : Operand.Field}

/-- An operand of the instruction has a field of `length` bytes, of which the first is `start` bytes behind
the start of the instruction. -/
def HasField (machine : Machine) (operand : Nat) (field : Operand.Field) (start length : Nat) : Prop :=
  ∃ value, machine.values[operand]? = some value ∧ value.HasField field start length

/-- The fix-up covers a field of an operand of the instruction at `offset`, and no other byte. -/
def Patches (machine : Machine) (offset : Nat) (fixup : Fixup) (operand : Nat) (field : Operand.Field) :
    Prop :=
  ∃ start, offset + start = fixup.start ∧ machine.HasField operand field start fixup.length

theorem mem_sitesFrom_iff {values : List Value} {first : Nat} {site : PatchSite} :
    site ∈ sitesFrom first values ↔ ∃ index value, values[index]? = some value ∧
      site.operand = first + index ∧ value.HasField site.field site.start site.length := by
  induction values generalizing first with
  | nil => simp [sitesFrom]
  | cons value rest ih =>
      rw [sitesFrom, List.mem_append, Value.mem_sites_iff, ih]
      constructor
      · rintro (⟨same, has⟩ | ⟨index, found, listed, same, has⟩)
        · exact ⟨0, value, rfl, same, has⟩
        · exact ⟨index + 1, found, listed, by omega, has⟩
      · rintro ⟨index, found, listed, same, has⟩
        cases index with
        | zero =>
            obtain rfl := Option.some.inj listed
            exact .inl ⟨same, has⟩
        | succ index => exact .inr ⟨index, found, listed, by omega, has⟩

theorem mem_sites_iff {site : PatchSite} :
    site ∈ machine.sites ↔ machine.HasField site.operand site.field site.start site.length := by
  rw [sites, mem_sitesFrom_iff]
  constructor
  · rintro ⟨index, value, listed, same, has⟩
    rw [Nat.zero_add] at same
    exact ⟨value, same ▸ listed, has⟩
  · rintro ⟨value, listed, has⟩
    exact ⟨site.operand, value, listed, (Nat.zero_add _).symm, has⟩

section Unique

variable (tidy : machine.Tidy)

include tidy

theorem Tidy.filled_of_listed {value : Value} (listed : machine.values[operand]? = some value) :
    ∀ constant ∈ value.constants, 0 < constant.length := fun constant member =>
  tidy.filled constant (List.mem_flatMap.mpr ⟨value, List.mem_of_getElem? listed, member⟩)

/-- Constants of different operands begin at different bytes. -/
theorem Tidy.start_ne {value otherValue : Value} {constant otherConstant : Constant}
    (listed : machine.values[operand]? = some value)
    (otherListed : machine.values[number]? = some otherValue) (before : operand < number)
    (member : constant ∈ value.constants) (otherMember : otherConstant ∈ otherValue.constants) :
    constant.start ≠ otherConstant.start := by
  have between := (List.pairwise_flatMap.mp tidy.apart).2
  rw [List.pairwise_iff_getElem] at between
  obtain ⟨inside, same⟩ := List.getElem?_eq_some_iff.mp listed
  obtain ⟨otherInside, otherSame⟩ := List.getElem?_eq_some_iff.mp otherListed
  have apart := between operand number inside otherInside before constant (same ▸ member) otherConstant
    (otherSame ▸ otherMember)
  have positive := tidy.filled_of_listed listed constant member
  have otherPositive := tidy.filled_of_listed otherListed otherConstant otherMember
  unfold Constant.Apart Constant.Precedes Constant.stop at apart
  omega

/-- A fix-up patches one field at most. -/
theorem Tidy.patches_unique (patches : machine.Patches offset fixup operand field)
    (also : machine.Patches offset fixup number otherField) : operand = number ∧ field = otherField := by
  obtain ⟨start, begins, value, listed, has⟩ := patches
  obtain ⟨otherStart, otherBegins, otherValue, otherListed, otherHas⟩ := also
  obtain rfl : start = otherStart := Nat.add_left_cancel (begins.trans otherBegins.symm)
  obtain ⟨constant, member, starts⟩ := has.exists_constant
  obtain ⟨otherConstant, otherMember, otherStarts⟩ := otherHas.exists_constant
  have same : operand = number := by
    rcases Nat.lt_trichotomy operand number with before | same | behind
    · exact absurd (starts.trans otherStarts.symm)
        (tidy.start_ne listed otherListed before member otherMember)
    · exact same
    · exact absurd (otherStarts.trans starts.symm)
        (tidy.start_ne otherListed listed behind otherMember member)
  subst same
  obtain rfl := Option.some.inj (listed.symm.trans otherListed)
  exact ⟨rfl, has.field_unique (tidy.filled_of_listed listed)
    (tidy.joined value (List.mem_of_getElem? listed)) otherHas rfl rfl⟩

theorem Tidy.existsUnique_patches (patches : machine.Patches offset fixup operand field) :
    ∃! spot : Nat × Operand.Field, machine.Patches offset fixup spot.1 spot.2 := by
  refine ⟨(operand, field), patches, fun spot also => ?_⟩
  obtain ⟨sameOperand, sameField⟩ := tidy.patches_unique also patches
  exact Prod.ext sameOperand sameField

/-- Of two fix-ups that patch the same operand, the first patches the offset of a far pointer and the
second its selector. -/
theorem Tidy.fields_of_precedes (precedes : fixup.Precedes other)
    (patches : machine.Patches offset fixup operand field)
    (also : machine.Patches offset other operand otherField) :
    field = .offset ∧ otherField = .selector := by
  obtain ⟨start, begins, value, listed, has⟩ := patches
  obtain ⟨otherStart, otherBegins, otherValue, otherListed, otherHas⟩ := also
  obtain rfl := Option.some.inj (listed.symm.trans otherListed)
  refine has.of_ends_before (tidy.filled_of_listed listed)
    (tidy.joined value (List.mem_of_getElem? listed)) otherHas ?_
  unfold Fixup.Precedes at precedes
  omega

end Unique

section Attaching

variable {operands result : List Operand} {fixups rest done : List Fixup}

/-- The fix-up patches a field. -/
def Matched (machine : Machine) (offset : Nat) (fixup : Fixup) : Prop :=
  ∃ operand field, machine.Patches offset fixup operand field

theorem patches_of_mem_sites {site : PatchSite} (member : site ∈ machine.sites)
    (fits : offset + site.start = fixup.start ∧ site.length = fixup.length) :
    machine.Patches offset fixup site.operand site.field :=
  ⟨site.start, fits.1, fits.2 ▸ mem_sites_iff.mp member⟩

theorem matched_iff : machine.Matched offset fixup ↔
    ∃ site ∈ machine.sites, offset + site.start = fixup.start ∧ site.length = fixup.length := by
  constructor
  · rintro ⟨operand, field, start, begins, has⟩
    exact ⟨⟨start, fixup.length, operand, field⟩, mem_sites_iff.mpr has, begins, rfl⟩
  · rintro ⟨site, member, fits⟩
    exact ⟨site.operand, site.field, patches_of_mem_sites member fits⟩

instance : Decidable (machine.Matched offset fixup) := decidable_of_iff _ matched_iff.symm

theorem attach_of_not_matched (unmatched : ¬machine.Matched offset fixup) :
    attach offset machine.sites operands (fixup :: rest) = .error (.brokenFixup offset fixup.start) := by
  rw [attach]
  split
  · rfl
  · rename_i site found
    have fits := of_decide_eq_true (List.find?_some found :)
    exact absurd (matched_iff.mpr ⟨site, List.mem_of_find?_eq_some found, fits⟩) unmatched

theorem Tidy.attach_of_patches (tidy : machine.Tidy)
    (patches : machine.Patches offset fixup operand field) :
    attach offset machine.sites operands (fixup :: rest) =
      attach offset machine.sites (operands.modify operand (patched · field fixup)) rest := by
  rw [attach]
  split
  · rename_i missing
    obtain ⟨start, begins, has⟩ := patches
    have absent := List.find?_eq_none.mp missing ⟨start, fixup.length, operand, field⟩
      (mem_sites_iff.mpr has)
    simp [begins] at absent
  · rename_i site found
    have fits := of_decide_eq_true (List.find?_some found :)
    obtain ⟨rfl, rfl⟩ := tidy.patches_unique patches
      (patches_of_mem_sites (List.mem_of_find?_eq_some found) fits)
    rfl

/-- Fix-ups are attached as long as they patch a field, and the first one that patches none is named. -/
theorem Tidy.attach_cases (tidy : machine.Tidy) (operands : List Operand) (fixups : List Fixup) :
    ((∀ fixup ∈ fixups, machine.Matched offset fixup) ∧
      ∃ result, attach offset machine.sites operands fixups = .ok result) ∨
    ∃ front fixup back, fixups = front ++ fixup :: back ∧
      (∀ other ∈ front, machine.Matched offset other) ∧ ¬machine.Matched offset fixup ∧
      attach offset machine.sites operands fixups = .error (.brokenFixup offset fixup.start) := by
  -- Attaching changes the operands, but whether a fix-up patches a field does not depend on them.
  induction fixups generalizing operands with
  | nil => exact .inl ⟨by simp, operands, rfl⟩
  | cons fixup rest ih =>
      by_cases matched : machine.Matched offset fixup
      · obtain ⟨operand, field, patches⟩ := matched
        rw [tidy.attach_of_patches patches]
        have here : machine.Matched offset fixup := ⟨operand, field, patches⟩
        rcases ih (operands.modify operand (patched · field fixup)) with
          ⟨all, done⟩ | ⟨front, broken, back, rfl, all, unmatched, failed⟩
        · exact .inl ⟨List.forall_mem_cons.mpr ⟨here, all⟩, done⟩
        · exact .inr ⟨fixup :: front, broken, back, rfl, List.forall_mem_cons.mpr ⟨here, all⟩, unmatched,
            failed⟩
      · exact .inr ⟨[], fixup, rest, rfl, by simp, matched, attach_of_not_matched matched⟩

/-- What an operand carries when the fix-ups `done` have been attached: the one that patches it, or if two
do, the first of them. -/
structure Carries (machine : Machine) (offset : Nat) (done : List Fixup) (operand : Nat)
    (patch : Option Operand.Patch) : Prop where
  bare : (∀ fixup ∈ done, ∀ field, ¬machine.Patches offset fixup operand field) → patch = none
  attached : ∀ fixup ∈ done, ∀ field, machine.Patches offset fixup operand field →
    patch = some ⟨field, fixup⟩ ∨
    field = .selector ∧ ∃ other ∈ done, machine.Patches offset other operand .offset ∧
      patch = some ⟨.offset, other⟩

namespace Carries

variable {patch : Option Operand.Patch}

theorem empty (machine : Machine) (offset operand : Nat) : machine.Carries offset [] operand none :=
  ⟨fun _ => rfl, by simp⟩

theorem elsewhere (carries : machine.Carries offset done operand patch)
    (unpatched : ∀ field, ¬machine.Patches offset fixup operand field) :
    machine.Carries offset (done ++ [fixup]) operand patch := by
  constructor
  · intro none
    exact carries.bare fun other member => none other (List.mem_append_left _ member)
  · intro other member field patches
    rcases List.mem_append.mp member with member | member
    · rcases carries.attached other member field patches with held | ⟨rfl, first, found, patched, held⟩
      · exact .inl held
      · exact .inr ⟨rfl, first, List.mem_append_left _ found, patched, held⟩
    · obtain rfl := List.mem_singleton.mp member
      exact absurd patches (unpatched field)

theorem next (tidy : machine.Tidy) {entry : Operand}
    (carries : machine.Carries offset done operand entry.patch)
    (behind : ∀ earlier ∈ done, earlier.Precedes fixup)
    (patches : machine.Patches offset fixup operand field) :
    machine.Carries offset (done ++ [fixup]) operand (patched entry field fixup).patch := by
  have member : fixup ∈ done ++ [fixup] := List.mem_append_right _ (List.mem_singleton_self fixup)
  refine ⟨fun none => absurd patches (none fixup member field), ?_⟩
  cases held : entry.patch with
  | none =>
      -- Nothing was attached yet, so no earlier fix-up patches the operand.
      have alone : ∀ earlier ∈ done, ∀ field, ¬machine.Patches offset earlier operand field := by
        intro earlier found field also
        rcases carries.attached earlier found field also with same | ⟨-, _, -, -, same⟩ <;>
          simp [held] at same
      have carried : (patched entry field fixup).patch = some ⟨field, fixup⟩ := by
        simp [patched, held, Operand.withPatch]
      intro other found otherField also
      rcases List.mem_append.mp found with earlier | last
      · exact absurd also (alone other earlier otherField)
      · obtain rfl := List.mem_singleton.mp last
        obtain ⟨-, rfl⟩ := tidy.patches_unique patches also
        exact .inl carried
  | some patch =>
      -- What was attached is the fix-up of the offset of a far pointer, and this one is that of the selector.
      obtain ⟨first, found, _, firstPatches⟩ :
          ∃ first ∈ done, ∃ field, machine.Patches offset first operand field := by
        by_contra none
        have bare := carries.bare fun earlier found field also => none ⟨earlier, found, field, also⟩
        simp [held] at bare
      obtain ⟨rfl, rfl⟩ := tidy.fields_of_precedes (behind first found) firstPatches patches
      have kept : patched entry .selector fixup = entry := by simp [patched, held]
      rw [kept]
      intro other member otherField also
      rcases List.mem_append.mp member with earlier | last
      · rcases carries.attached other earlier otherField also with same | ⟨rfl, holder, listed, holds, same⟩
        · exact .inl same
        · exact .inr ⟨rfl, holder, List.mem_append_left _ listed, holds, same⟩
      · obtain rfl := List.mem_singleton.mp last
        obtain ⟨-, rfl⟩ := tidy.patches_unique patches also
        rcases carries.attached first found .offset firstPatches with same | ⟨differ, -⟩
        · exact .inr ⟨rfl, first, List.mem_append_left _ found, firstPatches, same⟩
        · cases differ

end Carries

theorem kind_patched (entry : Operand) (field : Operand.Field) (fixup : Fixup) :
    (patched entry field fixup).kind = entry.kind := by
  unfold patched
  split <;> rfl

theorem map_kind_modify (operands : List Operand) (operand : Nat) (field : Operand.Field)
    (fixup : Fixup) :
    (operands.modify operand (patched · field fixup)).map Operand.kind = operands.map Operand.kind := by
  apply List.ext_getElem?
  intro number
  simp only [List.getElem?_map, List.getElem?_modify, Option.map_eq_map, Option.map_map]
  congr 1
  funext entry
  simp only [Function.comp_apply]
  split
  · exact kind_patched entry field fixup
  · rfl

/-- Attaching fix-ups in the order of their places changes nothing of an operand but what it carries. -/
theorem Tidy.attach_carries (tidy : machine.Tidy) (ordered : (done ++ fixups).Pairwise Fixup.Precedes)
    (carries : ∀ (number : Nat) (entry : Operand), operands[number]? = some entry →
      machine.Carries offset done number entry.patch)
    (attached : attach offset machine.sites operands fixups = .ok result) :
    result.map Operand.kind = operands.map Operand.kind ∧
      ∀ (number : Nat) (entry : Operand), result[number]? = some entry →
        machine.Carries offset (done ++ fixups) number entry.patch := by
  -- `done` grows by one fix-up a step, and all of it precedes what is left.
  induction fixups generalizing operands done with
  | nil =>
      obtain rfl := Except.ok.inj attached
      exact ⟨rfl, by simpa using carries⟩
  | cons fixup rest ih =>
      by_cases matched : machine.Matched offset fixup
      · obtain ⟨operand, field, patches⟩ := matched
        rw [tidy.attach_of_patches patches] at attached
        have behind : ∀ earlier ∈ done, earlier.Precedes fixup := fun earlier member =>
          (List.pairwise_append.mp ordered).2.2 earlier member fixup List.mem_cons_self
        have carried (number : Nat) (entry : Operand)
            (listed : (operands.modify operand (patched · field fixup))[number]? = some entry) :
            machine.Carries offset (done ++ [fixup]) number entry.patch := by
          rw [List.getElem?_modify, Option.map_eq_map, Option.map_eq_some_iff] at listed
          obtain ⟨earlier, found, rfl⟩ := listed
          split
          · rename_i same
            subst same
            exact (carries operand earlier found).next tidy behind patches
          · rename_i different
            exact (carries number earlier found).elsewhere fun _ also =>
              different (tidy.patches_unique patches also).1
        rw [List.append_cons] at ordered ⊢
        obtain ⟨kinds, all⟩ := ih ordered carried attached
        exact ⟨kinds.trans (map_kind_modify operands operand field fixup), all⟩
      · rw [attach_of_not_matched matched] at attached
        cases attached

end Attaching

end Machine

section Decoding

variable {image : Image} {machine : Machine} {offset : Nat} {ip : UInt16}

/-- The fix-up is recorded in the image and shares a byte with the instruction at `offset`. -/
def Machine.Touched (machine : Machine) (image : Image) (offset : Nat) (fixup : Fixup) : Prop :=
  fixup ∈ image.fixups.entries ∧ fixup.Touches offset (offset + machine.length)

/-- What an operand of an instruction carries. -/
def patchAt? (instruction : Instruction) (operand : Nat) : Option Operand.Patch :=
  instruction.operands[operand]?.bind Operand.patch

theorem decoder_of_attach_error {fault : DecodeError} (raw : machineAt image offset = .ok machine)
    (failed : attach offset machine.sites (machine.operands ip)
      (image.fixups.overlapping offset (offset + machine.length)) = .error fault) :
    decoder image offset ip = .error fault := by
  simp [decoder, raw, failed, bind, Except.bind]

theorem tidy_of_machineAt (raw : machineAt image offset = .ok machine) : machine.Tidy :=
  (Machine.fills_read (machineAt_eq_ok_iff.mp raw).2).2.tidy

/-- Before fix-ups are attached, no operand carries one. -/
theorem Machine.carries_operands {number : Nat} {entry : Operand}
    (listed : (machine.operands ip)[number]? = some entry) :
    machine.Carries offset [] number entry.patch := by
  rw [Machine.operands, List.getElem?_map, Option.map_eq_some_iff] at listed
  obtain ⟨value, -, rfl⟩ := listed
  exact .empty machine offset number

section Recorded

variable (ordered : image.fixups.Ordered) (raw : machineAt image offset = .ok machine)

include ordered raw

theorem mem_overlapping_iff_touched (fixup : Fixup) :
    fixup ∈ image.fixups.overlapping offset (offset + machine.length) ↔
      machine.Touched image offset fixup :=
  ordered.mem_overlapping_iff (Nat.lt_add_of_pos_right (length_of_machineAt raw).1)

/-- An instruction is decoded if all fix-ups that touch it patch a field, and the first one that does not is
named otherwise. -/
theorem decoder_cases (ip : UInt16) :
    ((∀ fixup, machine.Touched image offset fixup → machine.Matched offset fixup) ∧
      ∃ instruction, decoder image offset ip = .ok instruction) ∨
    ∃ fixup, (machine.Touched image offset fixup ∧ ¬machine.Matched offset fixup ∧
      ∀ other, machine.Touched image offset other → ¬machine.Matched offset other →
        fixup.start ≤ other.start) ∧
      decoder image offset ip = .error (.brokenFixup offset fixup.start) := by
  have touched := mem_overlapping_iff_touched ordered raw
  rcases (tidy_of_machineAt raw).attach_cases (machine.operands ip)
      (image.fixups.overlapping offset (offset + machine.length)) with
    ⟨all, operands, attached⟩ | ⟨front, fixup, back, listed, all, unmatched, failed⟩
  · exact .inl ⟨fun fixup touches => all fixup ((touched fixup).mpr touches), _,
      decoder_eq_ok_iff.mpr ⟨machine, operands, raw, attached, rfl⟩⟩
  · refine .inr ⟨fixup, ⟨(touched fixup).mp (by simp [listed]), unmatched, ?_⟩,
      decoder_of_attach_error raw failed⟩
    -- Those before it in the list all patch a field, and those behind it begin later.
    intro other touches otherUnmatched
    have ascending := ordered.overlapping_pairwise offset (offset + machine.length)
    have member := (touched other).mpr touches
    rw [listed] at ascending member
    rcases List.mem_append.mp member with early | later
    · exact absurd (all other early) otherUnmatched
    rcases List.mem_cons.mp later with rfl | behind
    · exact Nat.le_refl _
    · have first := List.rel_of_pairwise_cons (List.pairwise_append.mp ascending).2.1 behind
      exact first.start_lt.le

/-- The operands of an instruction are those that its bytes give, and carry the fix-ups that touch it. -/
theorem decoder_carries {instruction : Instruction} (decoded : decoder image offset ip = .ok instruction) :
    instruction.operands.map Operand.kind = machine.values.map (machine.operandKind ip) ∧
      ∀ (number : Nat) (entry : Operand), instruction.operands[number]? = some entry →
        machine.Carries offset (image.fixups.overlapping offset (offset + machine.length)) number
          entry.patch := by
  obtain ⟨_, operands, again, attached, rfl⟩ := decoder_eq_ok_iff.mp decoded
  obtain rfl := Except.ok.inj (raw.symm.trans again)
  obtain ⟨kinds, carries⟩ := (tidy_of_machineAt raw).attach_carries
    (ordered.overlapping_pairwise offset (offset + machine.length))
    (fun number entry => Machine.carries_operands) attached
  refine ⟨kinds.trans ?_, carries⟩
  rw [Machine.operands, List.map_map]
  rfl

theorem patchAt?_of_patches {instruction : Instruction}
    (decoded : decoder image offset ip = .ok instruction) {fixup : Fixup} {operand : Nat}
    {field : Operand.Field} (touches : machine.Touched image offset fixup)
    (patches : machine.Patches offset fixup operand field)
    (alone : field = .selector → ∀ other, machine.Touched image offset other →
      ¬machine.Patches offset other operand .offset) :
    patchAt? instruction operand = some ⟨field, fixup⟩ := by
  have touched := mem_overlapping_iff_touched ordered raw
  obtain ⟨kinds, carries⟩ := decoder_carries ordered raw decoded
  have inside : operand < instruction.operands.length := by
    obtain ⟨-, -, value, listed, -⟩ := patches
    have count := congrArg List.length kinds
    rw [List.length_map, List.length_map] at count
    rw [count]
    exact (List.getElem?_eq_some_iff.mp listed).1
  have listed := List.getElem?_eq_getElem inside
  rw [patchAt?, listed]
  rcases (carries operand _ listed).attached fixup ((touched fixup).mpr touches) field patches with
    held | ⟨selects, other, member, also, -⟩
  · exact held
  · exact absurd also (alone selects other ((touched other).mp member))

theorem patchAt?_of_bare {instruction : Instruction}
    (decoded : decoder image offset ip = .ok instruction) {operand : Nat}
    (bare : ∀ fixup field, machine.Touched image offset fixup →
      ¬machine.Patches offset fixup operand field) : patchAt? instruction operand = none := by
  rw [patchAt?, Option.bind_eq_none_iff]
  intro entry listed
  exact ((decoder_carries ordered raw decoded).2 operand entry listed).bare fun fixup member field =>
    bare fixup field ((mem_overlapping_iff_touched ordered raw fixup).mp member)

end Recorded

end Decoding

end RealMode.X86
