import RealMode.Image

/-! A program under analysis: its images and the tables of its modules.

Segments, groups and externals are numbered from zero in the order of their definition.
An external stands for the public symbol of the same name. -/

set_option autoImplicit false

namespace RealMode

/-- A named range of an image, `length` bytes from `start` on. -/
structure Segment where
  id : Nat
  name : String
  className : String
  image : Nat
  start : Nat
  length : Nat
  deriving DecidableEq, Repr

namespace Segment

/-- The offset just behind the segment, which is a low one where it reaches the end of the range. -/
def stop (segment : Segment) : Nat := offsetBehind segment.start segment.length

def covers (segment : Segment) (place : Place) : Bool :=
  segment.image = place.image && segment.start ≤ place.offset && place.offset < segment.stop

/-- Whether the class or the name says that the segment holds code. -/
def isCode (segment : Segment) : Bool :=
  segment.className.map Char.toUpper == "CODE" ||
    (segment.name.map Char.toUpper).endsWith "_TEXT"

def rangeText (start stop : Nat) : String := Numeral.hex 5 start ++ ".." ++ Numeral.hex 5 stop

def text (segment : Segment) : String :=
  segment.name ++ " (" ++ segment.className ++ ") img" ++ Numeral.decimal segment.image ++ "+" ++
    rangeText segment.start segment.stop

end Segment

/-- Segments that share one base. -/
structure Group where
  id : Nat
  name : String
  segments : List Nat
  deriving DecidableEq, Repr

/-- A symbol that is used here and defined elsewhere. -/
structure External where
  id : Nat
  name : String
  deriving DecidableEq, Repr

/-- A symbol that is defined here. -/
structure Public where
  name : String
  address : Address
  deriving DecidableEq, Repr

/-- The image that physical frames lie in, and the frame at which it starts. -/
structure FrameBase where
  image : Nat
  loadSegment : UInt16
  deriving DecidableEq, Repr

structure Program where
  images : Array Image
  segments : List Segment
  groups : List Group
  externals : List External
  publics : List Public
  frameBase : Option FrameBase
  deriving DecidableEq, Repr

namespace Program

def empty : Program := ⟨#[], [], [], [], [], none⟩

def image? (program : Program) (id : Nat) : Option Image := program.images[id]?
def segment? (program : Program) (id : Nat) : Option Segment := program.segments[id]?
def group? (program : Program) (id : Nat) : Option Group := program.groups[id]?
def external? (program : Program) (id : Nat) : Option External := program.externals[id]?

def public? (program : Program) (name : String) : Option Public :=
  program.publics.find? (·.name = name)

/-- The public symbol that an external stands for. -/
def definition? (program : Program) (external : Nat) : Option Public := do
  program.public? (← program.external? external).name

def addImage (program : Program) (name : String) (bytes : Array UInt8) : Program :=
  { program with images := program.images.push (.fresh program.images.size name bytes) }

/-- Defines a segment, which must start inside its image or at its end. -/
def addSegment (program : Program) (name className : String) (image start length : Nat) :
    Attempt Program :=
  match program.image? image with
  | none => .error (.unknownImage image) program
  | some found =>
      if found.size < start then
        .error (.invalidRange start (offsetBehind start length) found.size) program
      else
        .ok { program with
          segments := program.segments ++
            [⟨program.segments.length, name, className, image, start, length⟩] }

/-- Defines a group of segments that are defined already. -/
def addGroup (program : Program) (name : String) (segments : List Nat) : Attempt Program :=
  match segments.find? fun id => (program.segment? id).isNone with
  | some missing => .error (.unknownSegment missing) program
  | none =>
      .ok { program with groups := program.groups ++ [⟨program.groups.length, name, segments⟩] }

def addExternal (program : Program) (name : String) : Program :=
  { program with externals := program.externals ++ [⟨program.externals.length, name⟩] }

/-- Defines a public symbol under a new name. -/
def addPublic (program : Program) (name : String) (address : Address) : Attempt Program :=
  match program.public? name with
  | some _ => .error (.duplicateSymbol name) program
  | none => .ok { program with publics := program.publics ++ [⟨name, address⟩] }

/-- Lets physical frames lie in an image that is loaded at frame `loadSegment`. -/
def setFrameBase (program : Program) (image : Nat) (loadSegment : UInt16) : Attempt Program :=
  match program.image? image with
  | none => .error (.unknownImage image) program
  | some _ => .ok { program with frameBase := some ⟨image, loadSegment⟩ }

/-- Changes an image. -/
def modifyImage (program : Program) (id : Nat) (change : Image → Image) : Program :=
  { program with images := program.images.modify id change }

/-- The marks of a byte. There are none outside all images. -/
def marksAt (program : Program) (place : Place) : Marks :=
  match program.image? place.image with
  | some image => image.marksAt place.offset
  | none => .empty

/-- Whether a place lies inside its image. -/
def contains (program : Program) (place : Place) : Bool :=
  match program.image? place.image with
  | some image => image.contains place.offset
  | none => false

/-- The first segment whose range holds a place. -/
def segmentAt? (program : Program) (place : Place) : Option Segment :=
  program.segments.find? (·.covers place)

end Program

end RealMode
