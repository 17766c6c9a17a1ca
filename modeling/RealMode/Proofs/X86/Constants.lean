import Mathlib.Data.List.Perm.Subperm
import RealMode.Proofs.X86.Reader

/-! Where the constants of an instruction are written.

The memory of a ModRM byte is read before all other operands, which are read in their order. At most one
operand is that memory. So the constants of an instruction share no byte, whatever the order in which the
operands name them. -/

set_option autoImplicit false

namespace RealMode.X86

section Forms

/-- Whether the value of an operand is the register or memory of the ModRM byte. -/
def Argument.isRegisterOrMemory : Argument → Bool
  | .registerOrMemory _ _ | .memory _ | .address => true
  | _ => false

/-- At most one operand is the register or memory of the ModRM byte. -/
def Form.NamesMemoryOnce (form : Form) : Prop :=
  form.arguments.countP Argument.isRegisterOrMemory ≤ 1

namespace Encoding

/-- Every form that an opcode can stand for has a property. -/
def Every (property : Form → Prop) : Encoding → Prop
  | .plain form | .modrm form => property form
  | .group forms => ∀ number form, forms number = some form → property form
  | .escape | .unknown => True

section Every

variable {property : Form → Prop} {form : Form} {forms : Nat → Option Form}

@[simp] theorem every_plain : (Encoding.plain form).Every property ↔ property form := .rfl

@[simp] theorem every_modrm : (Encoding.modrm form).Every property ↔ property form := .rfl

@[simp] theorem every_group : (Encoding.group forms).Every property ↔
    ∀ number form, forms number = some form → property form := .rfl

@[simp] theorem every_escape : Encoding.escape.Every property := trivial

@[simp] theorem every_unknown : Encoding.unknown.Every property := trivial

end Every

variable (modifiers : Modifiers) (opcode : Nat)

theorem every_arithmetic : (arithmetic opcode).Every Form.NamesMemoryOnce := by
  unfold arithmetic
  split <;> simp [Form.NamesMemoryOnce, List.countP_cons, Argument.isRegisterOrMemory, rm,
    accumulator]

theorem every_unaryGroup (size : Size) : (unaryGroup size).Every Form.NamesMemoryOnce := by
  intro number form given
  dsimp only at given
  split at given <;> cases given <;>
    simp [Form.NamesMemoryOnce, List.countP_cons, Argument.isRegisterOrMemory, rmShown]

theorem every_indirectGroup (size : Size) :
    (indirectGroup modifiers size).Every Form.NamesMemoryOnce := by
  intro number form given
  have single : form.arguments.length ≤ 1 := by
    dsimp only at given
    repeat' split at given
    all_goals cases given <;> simp
  exact Nat.le_trans List.countP_le_length single

theorem every_individual : (individual modifiers opcode).Every Form.NamesMemoryOnce := by
  unfold individual
  dsimp only
  split <;> simp [Form.NamesMemoryOnce, List.countP_cons, Argument.isRegisterOrMemory, rm,
    rmShown, accumulator, hiddenAccumulator, simple, single, string, arithmeticGroup, shiftGroup,
    every_unaryGroup, every_indirectGroup]

theorem every_ofOpcode : (ofOpcode modifiers opcode).Every Form.NamesMemoryOnce := by
  unfold ofOpcode
  dsimp only
  repeat' split
  all_goals simp [Form.NamesMemoryOnce, Argument.isRegisterOrMemory, accumulator, conditionalJump,
    every_arithmetic, every_individual]

theorem every_ofEscaped : (ofEscaped opcode).Every Form.NamesMemoryOnce := by
  unfold ofEscaped
  repeat' split
  all_goals simp [Form.NamesMemoryOnce, List.countP_cons, Argument.isRegisterOrMemory,
    rmShown, conditionalJump]

end Encoding

end Forms

namespace Constant

/-- The number that bytes spell, the low ones first. -/
def number : List UInt8 → Nat
  | [] => 0
  | low :: high => low.toNat + 256 * number high

def stop (constant : Constant) : Nat := constant.start + constant.length

/-- The constant is spelled by some of the bytes, of which the first is at `position`. -/
def WrittenIn (constant : Constant) (position : Nat) (bytes : List UInt8) : Prop :=
  ∃ front own back, bytes = front ++ own ++ back ∧ own ≠ [] ∧
    constant = ⟨number own, position + front.length, own.length⟩

/-- `left` ends before `right` begins. -/
def Precedes (left right : Constant) : Prop := left.stop ≤ right.start

/-- The constants share no byte. -/
def Apart (left right : Constant) : Prop := left.Precedes right ∨ right.Precedes left

variable {constant : Constant} {position : Nat} {front back used : List UInt8}

theorem WrittenIn.length_pos (written : constant.WrittenIn position used) : 0 < constant.length := by
  obtain ⟨before, own, behind, rfl, filled, rfl⟩ := written
  exact List.length_pos_of_ne_nil filled

theorem WrittenIn.le_start (written : constant.WrittenIn position used) :
    position ≤ constant.start := by
  obtain ⟨before, own, behind, rfl, -, rfl⟩ := written
  exact Nat.le_add_right ..

theorem WrittenIn.stop_le (written : constant.WrittenIn position used) :
    constant.stop ≤ position + used.length := by
  obtain ⟨before, own, behind, rfl, -, rfl⟩ := written
  simp only [stop, List.length_append]
  omega

theorem WrittenIn.append (written : constant.WrittenIn position front) (back : List UInt8) :
    constant.WrittenIn position (front ++ back) := by
  obtain ⟨before, own, behind, rfl, filled, same⟩ := written
  exact ⟨before, own, behind ++ back, by simp, filled, same⟩

theorem WrittenIn.prepend (written : constant.WrittenIn (position + front.length) back) :
    constant.WrittenIn position (front ++ back) := by
  obtain ⟨before, own, behind, rfl, filled, same⟩ := written
  exact ⟨front ++ before, own, behind, by simp, filled, by simpa [Nat.add_assoc] using same⟩

theorem yields_littleEndian {length value : Nat}
    (yields : (Reader.littleEndian length).Yields position used value) :
    used.length = length ∧ value = number used := by
  induction length generalizing position used value with
  | zero =>
      obtain ⟨rfl, rfl⟩ := Reader.yields_pure_iff.mp yields
      exact ⟨rfl, rfl⟩
  | succ length ih =>
      obtain ⟨low, _, _, rfl, taken, yields⟩ := Reader.Local.byte.yields_bind_iff.mp yields
      obtain ⟨high, _, _, rfl, others, yields⟩ :=
        (Reader.local_littleEndian length).yields_bind_iff.mp yields
      obtain rfl := Reader.yields_byte_iff.mp taken
      obtain ⟨rfl, rfl⟩ := Reader.yields_pure_iff.mp yields
      obtain ⟨rfl, rfl⟩ := ih others
      simp [number]

theorem yields_read {length : Nat} (yields : (Constant.read length).Yields position used constant) :
    constant = ⟨number used, position, length⟩ ∧ used.length = length := by
  have yields := (Reader.yields_atPosition_iff (readAt length)).mp yields
  obtain ⟨value, _, _, rfl, taken, yields⟩ := (Reader.local_littleEndian length).yields_bind_iff.mp yields
  obtain ⟨rfl, rfl⟩ := Reader.yields_pure_iff.mp yields
  obtain ⟨ends, rfl⟩ := yields_littleEndian taken
  rw [List.append_nil]
  exact ⟨rfl, ends⟩

/-- Constants are written one behind the other in bytes of which the first is at `position`. -/
structure Laid (position : Nat) (bytes : List UInt8) (constants : List Constant) : Prop where
  written : ∀ constant ∈ constants, constant.WrittenIn position bytes
  ascending : constants.Pairwise Precedes

namespace Laid

theorem nil (position : Nat) (bytes : List UInt8) : Laid position bytes [] :=
  ⟨by simp, .nil⟩

theorem append {constants others : List Constant} (first : Laid position front constants)
    (second : Laid (position + front.length) back others) :
    Laid position (front ++ back) (constants ++ others) := by
  constructor
  · intro constant member
    rcases List.mem_append.mp member with member | member
    · exact (first.written constant member).append back
    · exact (second.written constant member).prepend
  · rw [List.pairwise_append]
    refine ⟨first.ascending, second.ascending, fun left inFirst right inSecond => ?_⟩
    exact Nat.le_trans (first.written left inFirst).stop_le (second.written right inSecond).le_start

theorem read {length : Nat} (positive : 0 < length)
    (yields : (Constant.read length).Yields position used constant) :
    Laid position used [constant] := by
  obtain ⟨rfl, rfl⟩ := yields_read yields
  refine ⟨?_, List.pairwise_singleton _ _⟩
  simp only [List.mem_singleton, forall_eq]
  exact ⟨[], used, [], by simp, List.ne_nil_of_length_pos positive, rfl⟩

theorem behind {constants : List Constant} (front : List UInt8)
    (laid : Laid (position + front.length) back constants) :
    Laid position (front ++ back) constants :=
  (nil position front).append laid

end Laid

end Constant

section Reading

variable {modifiers : Modifiers} {position : Nat} {used : List UInt8}

namespace Memory

variable {memory : Memory}

theorem laid_readDisplacement {length : Nat} {step : Nat × Option Constant}
    (yields : (readDisplacement modifiers length).Yields position used step) :
    Constant.Laid position used step.2.toList := by
  unfold readDisplacement at yields
  split at yields
  · obtain ⟨rfl, rfl⟩ := Reader.yields_pure_iff.mp yields
    exact .nil position []
  · rename_i some
    obtain ⟨constant, _, _, rfl, taken, yields⟩ := (Constant.local_read length).yields_bind_iff.mp yields
    obtain ⟨rfl, rfl⟩ := Reader.yields_pure_iff.mp yields
    rw [List.append_nil]
    exact .read (Nat.pos_of_ne_zero some) taken

theorem laid_displaced {length : Nat} {located : Nat → Option Constant → Memory}
    (keeps : ∀ value constant, (located value constant).constant = constant)
    (yields : (do let (value, constant) ← readDisplacement modifiers length
                  pure (located value constant) : Reader Memory).Yields position used memory) :
    Constant.Laid position used memory.constant.toList := by
  obtain ⟨step, _, _, rfl, taken, yields⟩ :=
    (local_readDisplacement modifiers length).yields_bind_iff.mp yields
  obtain ⟨rfl, rfl⟩ := Reader.yields_pure_iff.mp yields
  rw [List.append_nil, keeps]
  exact laid_readDisplacement taken

theorem laid_readWordAddress {mode number : Nat}
    (yields : (readWordAddress modifiers mode number).Yields position used memory) :
    Constant.Laid position used memory.constant.toList := by
  unfold readWordAddress at yields
  split at yields
  · exact laid_displaced (fun _ _ => rfl) yields
  · exact laid_displaced (fun _ _ => rfl) yields

theorem laid_readScaled {mode : Nat}
    (yields : (readScaled modifiers mode).Yields position used memory) :
    Constant.Laid position used memory.constant.toList := by
  obtain ⟨registers, front, _, rfl, -, yields⟩ := Reader.Local.byte.yields_bind_iff.mp yields
  apply Constant.Laid.behind front
  dsimp only at yields
  split at yields
  · exact laid_displaced (fun _ _ => rfl) yields
  · exact laid_displaced (fun _ _ => rfl) yields

theorem laid_readDoubleAddress {mode number : Nat}
    (yields : (readDoubleAddress modifiers mode number).Yields position used memory) :
    Constant.Laid position used memory.constant.toList := by
  unfold readDoubleAddress at yields
  split at yields
  · exact laid_readScaled yields
  · split at yields
    · exact laid_displaced (fun _ _ => rfl) yields
    · exact laid_displaced (fun _ _ => rfl) yields

theorem laid_read {mode number : Nat}
    (yields : (read modifiers mode number).Yields position used memory) :
    Constant.Laid position used memory.constant.toList := by
  unfold read at yields
  split at yields
  · exact laid_readDoubleAddress yields
  · exact laid_readWordAddress yields

theorem laid_readAbsolute (yields : (readAbsolute modifiers).Yields position used memory) :
    Constant.Laid position used memory.constant.toList :=
  laid_displaced (fun _ _ => rfl) yields

end Memory

/-- The constants of an operand in the order in which they are written. -/
def Value.constants : Value → List Constant
  | .memory location _ => location.constant.toList
  | .immediate _ _ constant => constant.toList
  | .branch _ _ constant => [constant]
  | .farPointer offset selector => [offset, selector]
  | .register _ _ | .tableEntry _ | .stringSource | .stringDestination => []

/-- The selector of a far pointer is written right behind the offset. -/
def Value.Joined : Value → Prop
  | .farPointer offset selector => selector.start = offset.stop
  | _ => True

namespace Machine

def ModRM.constants (modrm : ModRM) : List Constant := (modrm.memory.bind Memory.constant).toList

theorem laid_readModRM {byte : UInt8} {modrm : ModRM}
    (yields : (readModRM modifiers byte).Yields position used modrm) :
    Constant.Laid position used modrm.constants := by
  unfold readModRM at yields
  dsimp only at yields
  split at yields
  · obtain ⟨rfl, rfl⟩ := Reader.yields_pure_iff.mp yields
    exact .nil position []
  · obtain ⟨memory, _, _, rfl, taken, yields⟩ :=
      (Memory.local_read modifiers _ _).yields_bind_iff.mp yields
    obtain ⟨rfl, rfl⟩ := Reader.yields_pure_iff.mp yields
    rw [List.append_nil]
    exact Memory.laid_read taken

section Values

variable {modrm : ModRM} {argument : Argument} {value : Value}

/-- The register or memory of the ModRM byte takes no more bytes. -/
theorem readValue_registerOrMemory (shared : argument.isRegisterOrMemory = true)
    (yields : (readValue modifiers modrm argument).Yields position used value) :
    used = [] ∧ value.constants = modrm.constants ∧ value.Joined := by
  cases argument with
  | registerOrMemory size showsSize =>
      unfold readValue at yields
      dsimp only at yields
      split at yields <;>
        rename_i found <;>
        obtain ⟨rfl, rfl⟩ := Reader.yields_pure_iff.mp yields <;>
        simp [Value.constants, ModRM.constants, found, Value.Joined]
  | memory keyword | address =>
      unfold readValue at yields
      dsimp only at yields
      split at yields
      · rename_i found
        obtain ⟨rfl, rfl⟩ := Reader.yields_pure_iff.mp yields
        simp [Value.constants, ModRM.constants, found, Value.Joined]
      · exact absurd yields Reader.not_yields_fail
  | _ => cases shared

/-- What is common to operands that are one constant. -/
theorem laid_readConstant {length : Nat} {form : Constant → Value} (positive : 0 < length)
    (yields : (do let constant ← Constant.read length; pure (form constant) : Reader Value).Yields
      position used value)
    (single : ∀ constant, (form constant).constants = [constant] ∧ (form constant).Joined) :
    Constant.Laid position used value.constants ∧ value.Joined := by
  obtain ⟨constant, _, _, rfl, taken, yields⟩ := (Constant.local_read length).yields_bind_iff.mp yields
  obtain ⟨rfl, rfl⟩ := Reader.yields_pure_iff.mp yields
  rw [List.append_nil, (single constant).1]
  exact ⟨.read positive taken, (single constant).2⟩

theorem operandBytes_pos (modifiers : Modifiers) : 0 < modifiers.operandBits / 8 := by
  unfold Modifiers.operandBits
  split <;> decide

theorem sizeBytes_pos (size : Size) (modifiers : Modifiers) : 0 < size.bits modifiers / 8 := by
  cases size with
  | byte | word => simp [Size.bits]
  | operand => exact operandBytes_pos modifiers

theorem laid_farPointer (yields : (readValue modifiers modrm .farPointer).Yields position used value) :
    Constant.Laid position used value.constants ∧ value.Joined := by
  obtain ⟨offset, front, _, rfl, low, yields⟩ := (Constant.local_read _).yields_bind_iff.mp yields
  obtain ⟨selector, _, _, rfl, high, yields⟩ := (Constant.local_read 2).yields_bind_iff.mp yields
  obtain ⟨rfl, rfl⟩ := Reader.yields_pure_iff.mp yields
  rw [List.append_nil]
  refine ⟨(Constant.Laid.read (operandBytes_pos modifiers) low).append (.read Nat.two_pos high), ?_⟩
  obtain ⟨rfl, ends⟩ := Constant.yields_read low
  obtain ⟨rfl, -⟩ := Constant.yields_read high
  simp only [Value.Joined, Constant.stop, ends]

/-- All other operands are written where they are read. -/
theorem laid_readValue (own : argument.isRegisterOrMemory = false)
    (yields : (readValue modifiers modrm argument).Yields position used value) :
    Constant.Laid position used value.constants ∧ value.Joined := by
  cases argument with
  | registerOrMemory | memory | address => cases own
  | middleSegment loadable =>
      unfold readValue at yields
      dsimp only at yields
      repeat' split at yields
      case h_1.isFalse =>
        obtain ⟨rfl, rfl⟩ := Reader.yields_pure_iff.mp yields
        exact ⟨.nil position [], trivial⟩
      all_goals exact absurd yields Reader.not_yields_fail
  | middle size | numbered size number | fixed name | hidden name | one | tableEntry | stringSource
  | stringDestination =>
      obtain ⟨rfl, rfl⟩ := Reader.yields_pure_iff.mp yields
      exact ⟨.nil position [], trivial⟩
  | immediate size =>
      exact laid_readConstant (sizeBytes_pos size modifiers) yields fun _ => ⟨rfl, trivial⟩
  | extendedByte | shortBranch isNamed =>
      exact laid_readConstant Nat.one_pos yields fun _ => ⟨rfl, trivial⟩
  | nearBranch => exact laid_readConstant (operandBytes_pos modifiers) yields fun _ => ⟨rfl, trivial⟩
  | farPointer => exact laid_farPointer yields
  | absolute =>
      obtain ⟨memory, _, _, rfl, taken, yields⟩ :=
        (Memory.local_readAbsolute modifiers).yields_bind_iff.mp yields
      obtain ⟨rfl, rfl⟩ := Reader.yields_pure_iff.mp yields
      rw [List.append_nil]
      exact ⟨Memory.laid_readAbsolute taken, trivial⟩

end Values

/-- Operands of which at most one is the register or memory of the ModRM byte have its constants and such as
are written where they are read. -/
theorem laid_readValues {modrm : ModRM} {arguments : List Argument} {values : List Value}
    (once : arguments.countP Argument.isRegisterOrMemory ≤ 1)
    (yields : (readValues modifiers modrm arguments).Yields position used values) :
    (∀ value ∈ values, value.Joined) ∧ ∃ constants, Constant.Laid position used constants ∧
      (values.flatMap Value.constants).Subperm
        ((if arguments.any Argument.isRegisterOrMemory then modrm.constants else []) ++ constants) := by
  induction arguments generalizing position used values with
  | nil =>
      obtain ⟨rfl, rfl⟩ := Reader.yields_pure_iff.mp yields
      exact ⟨by simp, [], .nil position [], by simp⟩
  | cons argument rest ih =>
      obtain ⟨value, front, _, rfl, first, yields⟩ :=
        (local_readValue modifiers modrm argument).yields_bind_iff.mp yields
      obtain ⟨values, back, _, rfl, second, yields⟩ :=
        (local_readValues modifiers modrm rest).yields_bind_iff.mp yields
      obtain ⟨rfl, rfl⟩ := Reader.yields_pure_iff.mp yields
      rw [List.countP_cons] at once
      obtain ⟨joined, constants, laid, covered⟩ := ih (by omega) second
      rw [List.append_nil, List.flatMap_cons, List.forall_mem_cons, List.any_cons]
      cases shared : argument.isRegisterOrMemory with
      | true =>
          -- This operand is the memory of the ModRM byte, so none of the others is.
          obtain ⟨rfl, same, alone⟩ := readValue_registerOrMemory shared first
          have unshared : rest.any Argument.isRegisterOrMemory = false := by
            rw [shared, if_pos rfl] at once
            rw [List.any_eq_false, ← List.countP_eq_zero]
            omega
          rw [unshared, if_neg Bool.false_ne_true, List.nil_append] at covered
          refine ⟨⟨alone, joined⟩, constants, laid, ?_⟩
          rw [same, Bool.true_or, if_pos rfl, List.subperm_append_left]
          exact covered
      | false =>
          obtain ⟨placed, alone⟩ := laid_readValue shared first
          refine ⟨⟨alone, joined⟩, value.constants ++ constants, placed.append laid, ?_⟩
          rw [Bool.false_or]
          exact ((List.subperm_append_left value.constants).mpr covered).trans
            (List.perm_append_comm_assoc ..).subperm

/-- The constants of the operands, one operand behind the other. -/
def constants (machine : Machine) : List Constant := machine.values.flatMap Value.constants

/-- The instruction ends with the bytes, of which the first is at `position`. Its constants are written in
them, apart from those that are `shared` with what was read before. -/
structure Fills (machine : Machine) (position : Nat) (bytes : List UInt8) (shared : List Constant) :
    Prop where
  length : machine.length = position + bytes.length
  joined : ∀ value ∈ machine.values, value.Joined
  covered : ∃ constants, Constant.Laid position bytes constants ∧
    machine.constants.Subperm (shared ++ constants)

theorem Fills.prepend {machine : Machine} {front back : List UInt8} {shared : List Constant}
    (laid : Constant.Laid position front shared)
    (fills : machine.Fills (position + front.length) back shared) :
    machine.Fills position (front ++ back) [] := by
  obtain ⟨constants, placed, covered⟩ := fills.covered
  refine ⟨?_, fills.joined, shared ++ constants, laid.append placed, covered⟩
  rw [fills.length, List.length_append, Nat.add_assoc]

theorem fills_readForm {modrm : ModRM} {form : Form} {machine : Machine} (once : form.NamesMemoryOnce)
    (yields : (readForm modifiers modrm form).Yields position used machine) :
    machine.Fills position used modrm.constants := by
  obtain ⟨values, front, _, rfl, taken, yields⟩ :=
    (local_readValues modifiers modrm form.arguments).yields_bind_iff.mp yields
  split at yields
  · obtain ⟨_, _, _, -, failed, -⟩ := Reader.Local.fail.yields_bind_iff.mp yields
    exact absurd failed Reader.not_yields_fail
  · obtain ⟨rfl, rfl⟩ := Reader.yields_pure_iff.mp ((Reader.yields_atPosition_iff fun position =>
      pure (⟨modifiers, form, values, position⟩ : Machine)).mp yields)
    rw [List.append_nil]
    obtain ⟨joined, constants, laid, covered⟩ := laid_readValues once taken
    refine ⟨rfl, joined, constants, laid, covered.trans ?_⟩
    split
    · exact .refl _
    · exact (List.sublist_append_right ..).subperm

theorem fills_behindByte {byte : UInt8} {form : Form} {machine : Machine} (once : form.NamesMemoryOnce)
    (yields : (do let modrm ← readModRM modifiers byte
                  readForm modifiers modrm form : Reader Machine).Yields position used machine) :
    machine.Fills position used [] := by
  obtain ⟨modrm, front, back, rfl, first, second⟩ :=
    (local_readModRM modifiers byte).yields_bind_iff.mp yields
  exact .prepend (laid_readModRM first) (fills_readForm once second)

theorem fills_readEncoding {encoding : Encoding} {machine : Machine}
    (once : encoding.Every Form.NamesMemoryOnce)
    (yields : (readEncoding modifiers encoding).Yields position used machine) :
    machine.Fills position used [] := by
  cases encoding with
  | plain form => exact fills_readForm once yields
  | modrm form =>
      obtain ⟨byte, front, back, rfl, -, second⟩ := Reader.Local.byte.yields_bind_iff.mp yields
      exact .prepend (.nil position front) (fills_behindByte once second)
  | group forms =>
      obtain ⟨byte, front, back, rfl, -, second⟩ := Reader.Local.byte.yields_bind_iff.mp yields
      split at second
      · exact absurd second Reader.not_yields_fail
      · rename_i form found
        exact .prepend (.nil position front) (fills_behindByte (once _ form found) second)
  | escape | unknown => exact absurd yields Reader.not_yields_fail

theorem fills_read {machine : Machine} (yields : Machine.read.Yields position used machine) :
    used ≠ [] ∧ machine.Fills position used [] := by
  obtain ⟨⟨modifiers, opcode⟩, front, _, rfl, first, yields⟩ :=
    Modifiers.local_read.yields_bind_iff.mp yields
  refine ⟨List.append_ne_nil_of_left_ne_nil (Modifiers.used_ne_nil_of_yields first) _, ?_⟩
  -- The bytes before the operands hold no constants.
  apply Fills.prepend (.nil position front)
  dsimp only at yields
  split at yields
  · obtain ⟨second, escape, back, rfl, -, yields⟩ := Reader.Local.byte.yields_bind_iff.mp yields
    exact .prepend (.nil _ escape) (fills_readEncoding (Encoding.every_ofEscaped _) yields)
  · exact fills_readEncoding (Encoding.every_ofOpcode modifiers _) yields

/-- The constants of the operands are not empty and share no byte, and far pointers are in one piece. -/
structure Tidy (machine : Machine) : Prop where
  filled : ∀ constant ∈ machine.constants, 0 < constant.length
  apart : machine.constants.Pairwise Constant.Apart
  joined : ∀ value ∈ machine.values, value.Joined

namespace Fills

variable {machine : Machine} (fills : machine.Fills position used [])

include fills

theorem written (constant : Constant) (member : constant ∈ machine.constants) :
    constant.WrittenIn position used := by
  obtain ⟨constants, laid, covered⟩ := fills.covered
  exact laid.written constant (covered.subset member)

theorem tidy : machine.Tidy := by
  refine ⟨fun constant member => (fills.written constant member).length_pos, ?_, fills.joined⟩
  obtain ⟨constants, laid, listed, perm, sublist⟩ := fills.covered
  -- Operands are not listed in the order of their bytes, but `Apart` is symmetric.
  have ascending : listed.Pairwise Constant.Apart := (laid.ascending.sublist sublist).imp Or.inl
  exact (perm.pairwise_iff Or.symm).mp ascending

end Fills

end Machine

end Reading

end RealMode.X86
