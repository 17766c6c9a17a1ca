import RealMode.Decoder
import RealMode.Proofs.Program.Remarking

/-! What analysis relies on in a decoder. -/

set_option autoImplicit false

namespace RealMode

/-- Instructions lie where they were asked for and have between one and fifteen bytes. -/
def Decoder.Placed (decoder : Decoder) : Prop :=
  ∀ image offset ip instruction, decoder image offset ip = .ok instruction →
    instruction.offset = offset ∧ 1 ≤ instruction.length ∧ instruction.length ≤ 15

/-- Instructions carry the instruction pointer for which they were asked. -/
def Decoder.Pointed (decoder : Decoder) : Prop :=
  ∀ image offset ip instruction, decoder image offset ip = .ok instruction → instruction.ip = ip

/-- Whether there is an instruction at an offset, and what `view` shows of it, depends on neither
the marks of the image nor the instruction pointer. -/
def Decoder.Steady {α : Type} (decoder : Decoder) (view : Instruction → α) : Prop :=
  ∀ (image other : Image) (offset : Nat) (ip otherIp : UInt16), image.blank = other.blank →
    ((decoder image offset ip).map view).toOption = ((decoder other offset otherIp).map view).toOption

/-- The answer of a decoder does not depend on the marks of the image. -/
def Decoder.Blind (decoder : Decoder) : Prop :=
  ∀ (image other : Image) (offset : Nat) (ip : UInt16), image.blank = other.blank →
    decoder image offset ip = decoder other offset ip

/-- The decoder that takes the offset itself for the instruction pointer. -/
def Decoder.pinned (decoder : Decoder) : Decoder := fun image offset _ =>
  decoder image offset (UInt16.ofNat offset)

namespace Decoder

variable {α : Type} {decoder : Decoder} {view : Instruction → α}

theorem Steady.decodes (steady : decoder.Steady view) {image other : Image} {offset : Nat}
    {ip : UInt16} {instruction : Instruction} (same : image.blank = other.blank)
    (decoded : decoder image offset ip = .ok instruction) (otherIp : UInt16) :
    ∃ read, decoder other offset otherIp = .ok read ∧ view read = view instruction := by
  have alike := steady image other offset ip otherIp same
  rw [decoded] at alike
  cases answer : decoder other offset otherIp with
  | error error => simp [answer, Except.map, Except.toOption] at alike
  | ok read =>
      simp only [answer, Except.map, Except.toOption, Option.some.injEq] at alike
      exact ⟨read, rfl, alike.symm⟩

theorem Steady.comp {β : Type} (steady : decoder.Steady view) (part : α → β) :
    decoder.Steady (part ∘ view) := by
  intro image other offset ip otherIp same
  have alike := congrArg (Option.map part) (steady image other offset ip otherIp same)
  cases answer : decoder image offset ip <;> cases otherAnswer : decoder other offset otherIp <;>
    simp_all [Except.map, Except.toOption]

theorem pinned_eq {offset : Nat} {ip : UInt16} (same : ip.toNat = offset) (decoder : Decoder)
    (image : Image) (other : UInt16) : decoder.pinned image offset other = decoder image offset ip := by
  rw [pinned, ← same, UInt16.ofNat_toNat]

theorem Placed.pinned (placed : decoder.Placed) : decoder.pinned.Placed :=
  fun image offset _ instruction decoded => placed image offset _ instruction decoded

theorem Blind.pinned (blind : decoder.Blind) : decoder.pinned.Blind :=
  fun image other offset _ same => blind image other offset _ same

/-- Where the instruction pointer is the offset, nothing but the bytes matters. -/
theorem Blind.pinned_steady (blind : decoder.Blind) (view : Instruction → α) :
    decoder.pinned.Steady view := by
  intro image other offset ip otherIp same
  have alike : decoder.pinned image offset ip = decoder.pinned other offset otherIp :=
    blind image other offset _ same
  rw [alike]

end Decoder

namespace Script

/-- A script answers for the number of an image, so marks and instruction pointers do not matter. -/
theorem decoder_steady (rows : List Row) :
    (decoder rows).Steady fun instruction => (instruction.length, instruction.flow) := by
  intro image other offset ip otherIp same
  have number : image.blank.id = other.blank.id := congrArg Image.id same
  change image.id = other.id at number
  simp only [decoder, number]
  split
  · rfl
  · split <;> rfl

theorem decoder_blind (rows : List Row) : (decoder rows).Blind := by
  intro image other offset ip same
  have number : image.blank.id = other.blank.id := congrArg Image.id same
  change image.id = other.id at number
  simp only [decoder, number]

theorem decoder_pointed (rows : List Row) : (decoder rows).Pointed := by
  intro image offset ip instruction decoded
  unfold decoder at decoded
  split at decoded
  · cases decoded
  · split at decoded
    · cases decoded
      rfl
    · cases decoded

/-- Whether the instruction of an answer has between one and fifteen bytes. -/
def Answer.isSized : Answer → Bool
  | .instruction length _ _ _ => 1 ≤ length && length ≤ 15
  | .failure _ => true

theorem decoder_placed {rows : List Row} (sized : ∀ row ∈ rows, row.answer.isSized = true) :
    (decoder rows).Placed := by
  intro image offset ip instruction decoded
  unfold decoder at decoded
  split at decoded
  · cases decoded
  · rename_i row found
    have fits := sized row (List.mem_of_find?_eq_some found)
    split at decoded
    · rename_i answer
      cases decoded
      rw [answer, Answer.isSized, Bool.and_eq_true, decide_eq_true_eq, decide_eq_true_eq] at fits
      exact ⟨rfl, fits⟩
    · cases decoded

end Script

end RealMode
