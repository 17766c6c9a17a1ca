import RealMode.Text.Blank
import RealMode.Text.Numeral

/-! Marks of a byte: what its contents are known to be, and whether an instruction or data
item starts there. -/

set_option autoImplicit false

namespace RealMode

/-- A set of flags. Four of the eight bits have a meaning; a text may carry the others. -/
structure Marks where
  bits : UInt8
  deriving DecidableEq, Repr

namespace Marks

def empty : Marks := ⟨0⟩
def code : Marks := ⟨1⟩
def data : Marks := ⟨2⟩
def padding : Marks := ⟨4⟩
def lead : Marks := ⟨8⟩

def union (left right : Marks) : Marks := ⟨left.bits ||| right.bits⟩

def meets (left right : Marks) : Bool := left.bits &&& right.bits != 0

/-- Neither code nor data nor padding. -/
def isUnknown (marks : Marks) : Bool := !marks.meets (code.union (data.union padding))

def isCode (marks : Marks) : Bool := marks.meets code

/-- Data or padding. -/
def isData (marks : Marks) : Bool := marks.meets (data.union padding)

/-- The first byte of an instruction or item. -/
def isLead (marks : Marks) : Bool := marks.meets lead

/-- The first byte of an instruction. -/
def startsCode (marks : Marks) : Bool := marks.isCode && marks.isLead

/-- The flags that have a name, in the order of their bits. -/
def named : List (String × Marks) :=
  [("CODE", code), ("DATA", data), ("PADDING", padding), ("LEAD", lead)]

/-- The bits without a name. -/
def unnamed (marks : Marks) : UInt8 := marks.bits &&& 0xF0

/-- The names of the flags, and behind them the other bits as one number. -/
def text (marks : Marks) : String :=
  let names := (named.filter fun flag => marks.meets flag.2).map Prod.fst
  let others :=
    if marks.unnamed = 0 then [] else [Numeral.hexLiteral 1 marks.unnamed.toNat]
  String.intercalate " | " (names ++ others)

/-- Reads a number of bits, with or without a sign in front. -/
def ofDigits? (digits : List Char) : Option Marks := do
  let unsigned :=
    match digits with
    | '+' :: rest => rest
    | _ => digits
  let value ← Numeral.ofHex? unsigned
  if value < 256 then some ⟨UInt8.ofNat value⟩ else none

/-- Reads one flag: a name, or bits behind `0x`. -/
def ofFlag? (flag : List Char) : Option Marks :=
  match flag with
  | '0' :: 'x' :: digits => ofDigits? digits
  | _ => (named.find? fun entry => entry.1.toList == flag).map Prod.snd

/-- Reads flags between bars. A blank text has none. -/
def ofText? (text : String) : Option Marks :=
  if text.toList.all Blank.isBlank then
    some empty
  else do
    let flags ← ((Blank.parts '|' text.toList).map Blank.trim).mapM ofFlag?
    some (flags.foldl union empty)

end Marks

/-- What a run of bytes holds. -/
inductive Content where
  | code
  | data
  | padding
  deriving DecidableEq, Repr

def Content.marks : Content → Marks
  | .code => .code
  | .data => .data
  | .padding => .padding

end RealMode
