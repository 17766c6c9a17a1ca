import RealMode.Address

/-! Fix-ups: places of an image whose bytes a linker patches with a symbolic target. -/

set_option autoImplicit false

namespace RealMode

namespace Fixup

/-- What part of an address is patched in, and with it the number of bytes. -/
inductive Width where
  | lowByte
  | offset16
  | base16
  | pointer32
  deriving DecidableEq, Repr

def Width.bytes : Width → Nat
  | .lowByte => 1
  | .offset16 | .base16 => 2
  | .pointer32 => 4

theorem Width.bytes_pos (width : Width) : 0 < width.bytes := by
  cases width <;> decide

inductive Mode where
  | selfRelative
  | segmentRelative
  deriving DecidableEq, Repr

/-- The frame in which a target is expressed: a referent of its own, or that of the target. -/
inductive Frame where
  | referent (referent : Referent)
  | target
  deriving DecidableEq, Repr

/-- A displacement from a referent. -/
structure Target where
  referent : Referent
  displacement : UInt16
  deriving DecidableEq, Repr

def Target.text (target : Target) : String :=
  if target.displacement = 0 then
    target.referent.text
  else
    target.referent.text ++ "+" ++ Numeral.hex 1 target.displacement.toNat

end Fixup

structure Fixup where
  start : Nat
  width : Fixup.Width
  mode : Fixup.Mode
  target : Fixup.Target
  frame : Option Fixup.Frame
  deriving DecidableEq, Repr

namespace Fixup

def length (fixup : Fixup) : Nat := fixup.width.bytes

/-- The offset just behind the patched bytes, which is a low one where they reach the end of the range. -/
def stop (fixup : Fixup) : Nat := offsetBehind fixup.start fixup.length

/-- Whether the patched bytes meet the range from `start` up to `stop`. -/
def overlaps (fixup : Fixup) (start stop : Nat) : Bool :=
  fixup.start < stop && start < fixup.stop

def withFrame (fixup : Fixup) (frame : Frame) : Fixup :=
  { fixup with frame := some frame }

theorem length_pos (fixup : Fixup) : 0 < fixup.length := fixup.width.bytes_pos

end Fixup

end RealMode
