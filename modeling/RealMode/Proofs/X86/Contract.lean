import RealMode.Proofs.Decoder.Contract
import RealMode.Proofs.Fixup.Table
import RealMode.Proofs.X86.Constants
import RealMode.X86.Decoder

/-! What analysis can rely on in the decoder for 16-bit code.

An instruction depends on its own bytes and on the fix-ups that touch them. The instruction pointer moves the
targets of branches and changes nothing else. -/

set_option autoImplicit false

namespace RealMode

/-- The bytes from `offset` on, `length` of them if there are as many. -/
def Image.run (image : Image) (offset length : Nat) : List UInt8 :=
  (image.bytes.extract offset (offset + length)).toList

namespace Image

variable {image other : Image} {offset length : Nat}

theorem run_eq (image : Image) (offset length : Nat) :
    image.run offset length = (image.bytes.toList.drop offset).take length := by
  rw [run, Array.toList_extract, List.extract_eq_take_drop, Nat.add_sub_cancel_left]

theorem length_run (image : Image) (offset length : Nat) :
    (image.run offset length).length = min length (image.size - offset) := by
  rw [run_eq, List.length_take, List.length_drop, Array.length_toList, size]

theorem take_run {limit : Nat} (low : length ≤ limit) :
    (image.run offset limit).take length = image.run offset length := by
  rw [run_eq, run_eq, List.take_take, Nat.min_eq_left low]

theorem run_congr (same : ∀ place, offset ≤ place → place < offset + length →
    other.bytes[place]? = image.bytes[place]?) : other.run offset length = image.run offset length := by
  apply List.ext_getElem?
  intro index
  rw [run_eq, run_eq, List.getElem?_take, List.getElem?_take]
  split
  · rename_i inside
    rw [List.getElem?_drop, List.getElem?_drop, Array.getElem?_toList, Array.getElem?_toList]
    exact same (offset + index) (Nat.le_add_right ..) (Nat.add_lt_add_left inside offset)
  · rfl

end Image

namespace Operand

/-- The value of an operand whose instruction is moved: targets of branches move along. -/
def Kind.moved (distance : UInt16) : Kind → Kind
  | .relative target => .relative (target + distance)
  | kind => kind

def moved (distance : UInt16) (operand : Operand) : Operand :=
  { operand with kind := operand.kind.moved distance }

end Operand

namespace X86

variable {image other : Image} {offset : Nat} {ip otherIp : UInt16} {machine : Machine}
  {instruction : Instruction}

section Reading

/-- There is an instruction at an offset if and only if its own bytes give it. -/
theorem machineAt_eq_ok_iff :
    machineAt image offset = .ok machine ↔ machine.length ≤ longest ∧
      Machine.read.Yields 0 (image.run offset machine.length) machine := by
  have bytes : window image offset = image.run offset longest := rfl
  unfold machineAt
  dsimp only
  rw [bytes]
  constructor
  · intro decoded
    split at decoded
    · rename_i found cursor read
      rw [Except.ok.inj decoded] at read
      obtain ⟨used, parted, -, yields⟩ := Machine.local_read read
      have length : machine.length = used.length := by
        simpa using (Machine.fills_read yields).2.length
      have within : used.length ≤ longest := by
        have := congrArg List.length parted
        rw [Image.length_run, List.length_append] at this
        omega
      have own : image.run offset used.length = used := by
        rw [← Image.take_run within, parted, List.take_left]
      rw [length, own]
      exact ⟨within, yields⟩
    · cases decoded
    · split at decoded <;> cases decoded
  · rintro ⟨within, yields⟩
    have parted := List.take_append_drop machine.length (image.run offset longest)
    rw [Image.take_run within] at parted
    rw [← parted, yields]

theorem length_of_machineAt (decoded : machineAt image offset = .ok machine) :
    0 < machine.length ∧ machine.length ≤ longest ∧ offset + machine.length ≤ image.size := by
  obtain ⟨within, yields⟩ := machineAt_eq_ok_iff.mp decoded
  obtain ⟨filled, fills⟩ := Machine.fills_read yields
  have length := fills.length
  have positive := List.length_pos_of_ne_nil filled
  rw [Image.length_run] at length positive
  omega

theorem machineAt_of_run_eq (decoded : machineAt image offset = .ok machine)
    (same : other.run offset machine.length = image.run offset machine.length) :
    machineAt other offset = .ok machine := by
  rw [machineAt_eq_ok_iff] at decoded ⊢
  rw [same]
  exact decoded

end Reading

section Moving

/-- Of the target of a branch only the low word is kept, so the modulus of the operand does not matter. -/
theorem ofNat_branchTarget (machine : Machine) (ip : UInt16) (displacement : Nat) :
    UInt16.ofNat (machine.branchTarget ip displacement) =
      ip + UInt16.ofNat (machine.length + displacement) := by
  apply UInt16.toNat_inj.mp
  rw [UInt16.toNat_add, UInt16.toNat_ofNat', UInt16.toNat_ofNat', Machine.branchTarget,
    Modifiers.operandBits]
  split
  · rw [show 1 <<< 32 = 4294967296 from rfl]
    omega
  · rw [show 1 <<< 16 = 65536 from rfl]
    omega

theorem operandKind_moved (machine : Machine) (ip otherIp : UInt16) (value : Value) :
    machine.operandKind otherIp value = (machine.operandKind ip value).moved (otherIp - ip) := by
  cases value with
  | branch displacement isShort constant =>
      simp only [Machine.operandKind, Operand.Kind.moved, ofNat_branchTarget]
      exact congrArg Operand.Kind.relative (by grind)
  | _ => rfl

theorem operands_moved (machine : Machine) (ip otherIp : UInt16) :
    machine.operands otherIp = (machine.operands ip).map (Operand.moved (otherIp - ip)) := by
  simp only [Machine.operands, List.map_map]
  refine List.map_congr_left fun value _ => ?_
  rw [operandKind_moved machine ip otherIp value]
  rfl

theorem patched_moved (distance : UInt16) (operand : Operand) (field : Operand.Field) (fixup : Fixup) :
    patched (operand.moved distance) field fixup = (patched operand field fixup).moved distance := by
  unfold patched Operand.moved
  split <;> rfl

theorem modify_map_moved (distance : UInt16) (operands : List Operand) (site : PatchSite)
    (fixup : Fixup) :
    (operands.map (Operand.moved distance)).modify site.operand (patched · site.field fixup) =
      (operands.modify site.operand (patched · site.field fixup)).map (Operand.moved distance) := by
  apply List.ext_getElem?
  intro index
  simp only [List.getElem?_modify, List.getElem?_map, Option.map_eq_map, Option.map_map]
  congr 1
  funext operand
  simp only [Function.comp_apply]
  split
  · exact patched_moved ..
  · rfl

/-- Fix-ups are attached to operands whatever these are. -/
theorem attach_moved (distance : UInt16) (sites : List PatchSite) (operands : List Operand)
    (fixups : List Fixup) :
    attach offset sites (operands.map (Operand.moved distance)) fixups =
      (attach offset sites operands fixups).map (List.map (Operand.moved distance)) := by
  induction fixups generalizing operands with
  | nil => rfl
  | cons fixup rest ih =>
      simp only [attach]
      split
      · rfl
      · rename_i site _
        rw [modify_map_moved, ih]

end Moving

section Decoding

theorem decoder_eq_ok_iff :
    decoder image offset ip = .ok instruction ↔
      ∃ machine operands, machineAt image offset = .ok machine ∧
        attach offset machine.sites (machine.operands ip)
          (image.fixups.overlapping offset (offset + machine.length)) = .ok operands ∧
        instruction = ⟨offset, ip, machine.length, machine.form.mnemonic, machine.text ip,
          machine.form.flow, operands⟩ := by
  unfold decoder
  cases decoded : machineAt image offset with
  | error error => simp [bind, Except.bind]
  | ok machine =>
      cases attached : attach offset machine.sites (machine.operands ip)
          (image.fixups.overlapping offset (offset + machine.length)) with
      | error error => simp [bind, Except.bind, attached]
      | ok operands => simp [bind, Except.bind, attached, eq_comm]

theorem decoder_moved (decoded : decoder image offset ip = .ok instruction) (otherIp : UInt16) :
    ∃ moved, decoder image offset otherIp = .ok moved ∧ moved.offset = offset ∧ moved.ip = otherIp ∧
      moved.length = instruction.length ∧ moved.flow = instruction.flow ∧
      moved.mnemonic = instruction.mnemonic ∧
      moved.operands = instruction.operands.map (Operand.moved (otherIp - ip)) := by
  obtain ⟨machine, operands, read, attached, rfl⟩ := decoder_eq_ok_iff.mp decoded
  refine ⟨⟨offset, otherIp, machine.length, machine.form.mnemonic, machine.text otherIp,
    machine.form.flow, operands.map (Operand.moved (otherIp - ip))⟩, ?_, rfl, rfl, rfl, rfl, rfl, rfl⟩
  rw [decoder_eq_ok_iff]
  refine ⟨machine, _, read, ?_, rfl⟩
  rw [operands_moved machine ip otherIp, attach_moved, attached]
  rfl

theorem decoder_congr (bytes : other.bytes = image.bytes) (fixups : other.fixups = image.fixups) :
    decoder other offset ip = decoder image offset ip := by
  have read : machineAt other offset = machineAt image offset := by
    unfold machineAt window
    rw [bytes]
  simp only [decoder, read, fixups]

theorem decoder_placed : Decoder.Placed decoder := by
  intro image offset ip instruction decoded
  obtain ⟨machine, operands, read, -, rfl⟩ := decoder_eq_ok_iff.mp decoded
  obtain ⟨positive, within, -⟩ := length_of_machineAt read
  exact ⟨rfl, positive, within⟩

theorem decoder_pointed : Decoder.Pointed decoder := by
  intro image offset ip instruction decoded
  obtain ⟨machine, operands, -, -, rfl⟩ := decoder_eq_ok_iff.mp decoded
  rfl

theorem decoder_blind : Decoder.Blind decoder := by
  intro image other offset ip same
  have bytes : image.blank.bytes = other.blank.bytes := congrArg Image.bytes same
  have fixups : image.blank.fixups = other.blank.fixups := congrArg Image.fixups same
  exact decoder_congr bytes fixups

theorem decoder_steady : Decoder.Steady decoder fun instruction =>
    (instruction.length, instruction.flow, instruction.mnemonic) := by
  intro image other offset ip otherIp same
  rw [decoder_blind image other offset ip same]
  cases decoded : decoder other offset ip with
  | ok instruction =>
      obtain ⟨moved, again, -, -, length, flow, mnemonic, -⟩ := decoder_moved decoded otherIp
      simp [again, Except.map, Except.toOption, length, flow, mnemonic]
  | error error =>
      cases answer : decoder other offset otherIp with
      | error other => rfl
      | ok instruction =>
          obtain ⟨moved, again, -⟩ := decoder_moved answer ip
          cases decoded.symm.trans again

end Decoding

end X86

end RealMode
