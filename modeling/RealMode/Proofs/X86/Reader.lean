import RealMode.X86.Machine

/-! Readers take bytes from the front and depend on no others.

What a reader gives can be said of the bytes that it takes alone. So a reader that is made of others takes
what these take, one behind the other. -/

set_option autoImplicit false

namespace RealMode.X86

namespace Reader

variable {α β : Type}

/-- From `position` on, the reader takes exactly the bytes `used`, whatever follows them, and gives
`value`. -/
def Yields (reader : Reader α) (position : Nat) (used : List UInt8) (value : α) : Prop :=
  ∀ rest, reader ⟨position, used ++ rest⟩ = .ok (value, ⟨position + used.length, rest⟩)

/-- Whatever the reader gives depends only on the bytes that it takes. -/
def Local (reader : Reader α) : Prop :=
  ∀ ⦃position bytes value cursor⦄, reader ⟨position, bytes⟩ = .ok (value, cursor) →
    ∃ used, bytes = used ++ cursor.rest ∧ cursor.position = position + used.length ∧
      reader.Yields position used value

variable {reader : Reader α} {next : α → Reader β} {position : Nat} {used : List UInt8} {value : α}

theorem bind_eq_ok_iff {cursor behind : Cursor} {result : β} :
    (reader >>= next) cursor = .ok (result, behind) ↔
      ∃ value middle, reader cursor = .ok (value, middle) ∧ next value middle = .ok (result, behind) := by
  change (reader cursor >>= fun step => next step.1 step.2) = _ ↔ _
  cases reader cursor with
  | error failure => simp [bind, Except.bind]
  | ok step =>
      obtain ⟨value, middle⟩ := step
      simp [bind, Except.bind, and_assoc]

theorem Yields.bind {front back : List UInt8} {result : β} (first : reader.Yields position front value)
    (second : (next value).Yields (position + front.length) back result) :
    (reader >>= next).Yields position (front ++ back) result := by
  intro rest
  rw [bind_eq_ok_iff, List.append_assoc, List.length_append, ← Nat.add_assoc]
  exact ⟨value, _, first (back ++ rest), second rest⟩

section Closure

theorem Local.pure (value : α) : (pure value : Reader α).Local := by
  intro position bytes result cursor given
  obtain ⟨rfl, rfl⟩ := Prod.mk.inj (Except.ok.inj given)
  exact ⟨[], rfl, rfl, fun rest => rfl⟩

theorem Local.fail : (fail : Reader α).Local := by
  intro position bytes result cursor given
  cases given

theorem Local.byte : byte.Local := by
  intro position bytes value cursor given
  cases bytes with
  | nil => cases given
  | cons first rest =>
      obtain ⟨rfl, rfl⟩ := Prod.mk.inj (Except.ok.inj given)
      exact ⟨[first], rfl, rfl, fun rest => rfl⟩

theorem Local.bind (first : reader.Local) (second : ∀ value, (next value).Local) :
    (reader >>= next).Local := by
  intro position bytes result cursor given
  obtain ⟨value, ⟨middle, behind⟩, taken, left⟩ := bind_eq_ok_iff.mp given
  obtain ⟨front, rfl, rfl, yields⟩ := first taken
  obtain ⟨back, rfl, ends, gives⟩ := second value left
  refine ⟨front ++ back, (List.append_assoc ..).symm, ?_, yields.bind gives⟩
  rw [ends, List.length_append, Nat.add_assoc]

theorem Local.ite {condition : Prop} [Decidable condition] {other : Reader α} (first : reader.Local)
    (second : other.Local) : (if condition then reader else other).Local := by
  split
  · exact first
  · exact second

/-- Of the cursor a reader may look at the position. -/
theorem Local.atPosition (placed : Nat → Reader α) (each : ∀ position, (placed position).Local) :
    (do let cursor ← get; placed cursor.position : Reader α).Local := by
  intro position bytes value cursor given
  exact each position given

end Closure

section Inversion

theorem yields_pure_iff {result : α} :
    (pure value : Reader α).Yields position used result ↔ used = [] ∧ result = value := by
  constructor
  · intro yields
    obtain ⟨same, ends⟩ := Prod.mk.inj (Except.ok.inj (yields []))
    exact ⟨by simpa using congrArg Cursor.rest ends, same.symm⟩
  · rintro ⟨rfl, rfl⟩ rest
    rfl

theorem not_yields_fail : ¬(fail : Reader α).Yields position used value := by
  intro yields
  cases yields []

theorem yields_byte_iff {first : UInt8} : byte.Yields position used first ↔ used = [first] := by
  constructor
  · intro yields
    cases used with
    | nil => cases yields []
    | cons other rest =>
        obtain ⟨rfl, ends⟩ := Prod.mk.inj (Except.ok.inj (yields []))
        simpa using congrArg Cursor.rest ends
  · rintro rfl rest
    rfl

theorem Local.yields_bind_iff (first : reader.Local) {result : β} :
    (reader >>= next).Yields position used result ↔
      ∃ value front back, used = front ++ back ∧ reader.Yields position front value ∧
        (next value).Yields (position + front.length) back result := by
  constructor
  · intro yields
    obtain ⟨value, ⟨middle, back⟩, taken, -⟩ := bind_eq_ok_iff.mp (yields [])
    obtain ⟨front, parted, -, gives⟩ := first taken
    rw [List.append_nil] at parted
    refine ⟨value, front, back, parted, gives, fun rest => ?_⟩
    -- Whatever follows, the first reader takes the same bytes and leaves the rest to the second.
    have given := yields rest
    rw [parted, List.append_assoc, List.length_append, ← Nat.add_assoc, bind_eq_ok_iff] at given
    obtain ⟨again, middle, taken, given⟩ := given
    obtain ⟨rfl, rfl⟩ := Prod.mk.inj (Except.ok.inj ((gives (back ++ rest)).symm.trans taken))
    exact given
  · rintro ⟨value, front, back, rfl, yields, gives⟩
    exact yields.bind gives

theorem yields_atPosition_iff (placed : Nat → Reader α) :
    (do let cursor ← get; placed cursor.position : Reader α).Yields position used value ↔
      (placed position).Yields position used value :=
  Iff.rfl

end Inversion

theorem local_littleEndian (length : Nat) : (littleEndian length).Local := by
  induction length with
  | zero => exact .pure 0
  | succ length ih => exact .bind .byte fun low => .bind ih fun high => .pure _

end Reader

open Reader (Local)

/-- What is left of reading a constant when its position is known. -/
def Constant.readAt (length position : Nat) : Reader Constant := do
  let value ← Reader.littleEndian length
  pure ⟨value, position, length⟩

theorem Constant.local_read (length : Nat) : (Constant.read length).Local :=
  .atPosition (readAt length) fun _ => .bind (Reader.local_littleEndian length) fun _ => .pure _

namespace Memory

variable (modifiers : Modifiers)

theorem local_readDisplacement (length : Nat) : (readDisplacement modifiers length).Local :=
  .ite (.pure _) (.bind (Constant.local_read length) fun _ => .pure _)

/-- Addresses differ in the displacement that they read last. -/
theorem local_displaced (length : Nat) (located : Nat → Option Constant → Memory) :
    (do let (value, constant) ← readDisplacement modifiers length
        pure (located value constant) : Reader Memory).Local :=
  .bind (local_readDisplacement modifiers length) fun _ => .pure _

theorem local_readWordAddress (mode number : Nat) : (readWordAddress modifiers mode number).Local :=
  .ite (local_displaced modifiers 2 _) (local_displaced modifiers mode _)

theorem local_readScaled (mode : Nat) : (readScaled modifiers mode).Local :=
  .bind .byte fun _ => .ite (local_displaced modifiers 4 _) (local_displaced modifiers _ _)

theorem local_readDoubleAddress (mode number : Nat) : (readDoubleAddress modifiers mode number).Local :=
  .ite (local_readScaled modifiers mode)
    (.ite (local_displaced modifiers 4 _) (local_displaced modifiers _ _))

theorem local_read (mode number : Nat) : (read modifiers mode number).Local :=
  .ite (local_readDoubleAddress modifiers mode number) (local_readWordAddress modifiers mode number)

theorem local_readAbsolute : (readAbsolute modifiers).Local := local_displaced modifiers _ _

end Memory

namespace Modifiers

theorem readFrom_eq_ok {modifiers : Modifiers} {position : Nat} {bytes : List UInt8}
    {step : Modifiers × UInt8} {cursor : Cursor}
    (given : readFrom modifiers position bytes = .ok (step, cursor)) :
    ∃ used, bytes = used ++ cursor.rest ∧ cursor.position = position + used.length ∧
      ∀ rest, readFrom modifiers position (used ++ rest) =
        .ok (step, ⟨position + used.length, rest⟩) := by
  induction bytes generalizing modifiers position with
  | nil => cases given
  | cons byte bytes ih =>
      rw [readFrom] at given
      split at given
      · rename_i more absorbed
        obtain ⟨used, rfl, ends, gives⟩ := ih given
        have length : position + (byte :: used).length = position + 1 + used.length := by
          rw [List.length_cons]
          omega
        refine ⟨byte :: used, rfl, ends.trans length.symm, fun rest => ?_⟩
        simp only [List.cons_append, readFrom, absorbed, gives, length]
      · rename_i other
        obtain ⟨rfl, rfl⟩ := Prod.mk.inj (Except.ok.inj given)
        exact ⟨[byte], rfl, rfl, fun rest => by simp only [List.cons_append, readFrom, other]; rfl⟩

theorem local_read : read.Local := fun _ _ _ _ given => readFrom_eq_ok given

theorem used_ne_nil_of_yields {position : Nat} {used : List UInt8} {step : Modifiers × UInt8}
    (yields : read.Yields position used step) : used ≠ [] := by
  rintro rfl
  cases yields []

end Modifiers

namespace Machine

variable (modifiers : Modifiers)

theorem local_readModRM (byte : UInt8) : (readModRM modifiers byte).Local :=
  .ite (.pure _) (.bind (Memory.local_read modifiers _ _) fun _ => .pure _)

theorem local_readValue (modrm : ModRM) (argument : Argument) :
    (readValue modifiers modrm argument).Local := by
  cases argument with
  | registerOrMemory size showsSize =>
      simp only [readValue]
      split
      · exact .pure _
      · exact .pure _
  | memory keyword | address =>
      simp only [readValue]
      split
      · exact .pure _
      · exact .fail
  | middleSegment loadable =>
      simp only [readValue]
      split
      · exact .ite .fail (.pure _)
      · exact .fail
  | middle size | numbered size number | fixed name | hidden name | one | tableEntry | stringSource
  | stringDestination => exact .pure _
  | immediate size | extendedByte | shortBranch isNamed | nearBranch =>
      exact .bind (Constant.local_read _) fun _ => .pure _
  | farPointer => exact .bind (Constant.local_read _) fun _ => .bind (Constant.local_read 2) fun _ => .pure _
  | absolute => exact .bind (Memory.local_readAbsolute modifiers) fun _ => .pure _

theorem local_readValues (modrm : ModRM) (arguments : List Argument) :
    (readValues modifiers modrm arguments).Local := by
  induction arguments with
  | nil => exact .pure []
  | cons argument rest ih =>
      exact .bind (local_readValue modifiers modrm argument) fun _ => .bind ih fun _ => .pure _

theorem local_readForm (modrm : ModRM) (form : Form) : (readForm modifiers modrm form).Local :=
  .bind (local_readValues modifiers modrm form.arguments) fun _ =>
    .ite (.bind .fail fun _ => .atPosition _ fun _ => .pure _) (.atPosition _ fun _ => .pure _)

theorem local_behindByte (byte : UInt8) (form : Form) :
    (do let modrm ← readModRM modifiers byte; readForm modifiers modrm form : Reader Machine).Local :=
  .bind (local_readModRM modifiers byte) fun modrm => local_readForm modifiers modrm form

theorem local_readEncoding (encoding : Encoding) : (readEncoding modifiers encoding).Local := by
  cases encoding with
  | plain form => exact local_readForm modifiers .absent form
  | modrm form => exact .bind .byte fun byte => local_behindByte modifiers byte form
  | group forms =>
      refine .bind .byte fun byte => ?_
      split
      · exact .fail
      · exact local_behindByte modifiers byte _
  | escape | unknown => exact .fail

theorem local_read : Machine.read.Local := by
  refine .bind Modifiers.local_read fun step => ?_
  split
  split
  · exact .bind .byte fun second => local_readEncoding _ _
  · exact local_readEncoding _ _

end Machine

end RealMode.X86
