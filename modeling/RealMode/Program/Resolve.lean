import RealMode.Program

/-! Resolution of symbolic addresses to places.

An external resolves through its definition, which may again be relative to an external. A
walk along definitions that is longer than the table of externals has met one of them twice
and never arrives, so the length of that table bounds the walk. -/

set_option autoImplicit false

namespace RealMode.Program

/-- The place of a segment's first byte. -/
def segmentBase? (program : Program) (id : Nat) : Option Place :=
  (program.segment? id).map fun segment => ⟨segment.image, segment.start⟩

/-- The least place at which a member of a group starts. -/
def groupBase? (program : Program) (id : Nat) : Option Place := do
  Place.least? ((← program.group? id).segments.filterMap program.segmentBase?)

/-- The place of a frame of sixteen-byte paragraphs, if it is not below the loaded image. -/
def frameBase? (program : Program) (selector : UInt16) : Option Place := do
  let base ← program.frameBase
  if base.loadSegment.toNat ≤ selector.toNat then
    some ⟨base.image, selector.toNat * 16 - base.loadSegment.toNat * 16⟩
  else
    none

/-- The base of a referent, through at most `depth` externals. -/
def baseWithin? (program : Program) : (depth : Nat) → Referent → Option Place
  | _, .segment id => program.segmentBase? id
  | _, .group id => program.groupBase? id
  | _, .frame selector => program.frameBase? selector
  | 0, .external _ => none
  | depth + 1, .external id => do
      let symbol ← program.definition? id
      let base ← program.baseWithin? depth symbol.address.referent
      some (base.add symbol.address.offset.toNat)

/-- The place at which the offsets of a referent start. -/
def base? (program : Program) (referent : Referent) : Option Place :=
  program.baseWithin? program.externals.length referent

/-- The place of an address. -/
def resolve (program : Program) (address : Address) : Option Place :=
  (program.base? address.referent).map (·.add address.offset.toNat)

/-- The name of a referent, or its number where it has no name. -/
def label (program : Program) (referent : Referent) : String :=
  let name? :=
    match referent with
    | .segment id => (program.segment? id).map Segment.name
    | .group id => (program.group? id).map Group.name
    | .external id => (program.external? id).map External.name
    | .frame _ => none
  name?.getD referent.text

/-- An address with the name of its referent. -/
def addressText (program : Program) (address : Address) : String :=
  program.label address.referent ++ ":" ++ Numeral.hex 4 address.offset.toNat

/-- The first public symbol whose address resolves to a place. -/
def publicAt? (program : Program) (place : Place) : Option Public :=
  program.publics.find? fun symbol => program.resolve symbol.address = some place

end RealMode.Program
