import RealMode.Proofs.Program.Construction
import RealMode.Proofs.Program.Resolution

/-! Programs that more is loaded into.

Every table grows at its end, a public name is taken once, and the members of a group are there before
the group is. So what resolves goes on to resolve to the same place, whatever is added. -/

set_option autoImplicit false

namespace RealMode.Program

/-- What can be added to the tables of a program. -/
inductive Addition where
  | image (name : String) (bytes : Array UInt8)
  | segment (name className : String) (image start length : Nat)
  | group (name : String) (segments : List Nat)
  | external (name : String)
  | symbol (name : String) (address : Address)
  deriving Repr

def Addition.perform (program : Program) : Addition → Attempt Program
  | .image name bytes => .ok (program.addImage name bytes)
  | .segment name className holder start length =>
      program.addSegment name className holder start length
  | .group name segments => program.addGroup name segments
  | .external name => .ok (program.addExternal name)
  | .symbol name address => program.addPublic name address

/-- A segment needs an image that it starts in, a group needs its members, and a public symbol needs a
name of its own. -/
def Addition.Refused (program : Program) : Addition → Prop
  | .image _ _ | .external _ => False
  | .segment _ _ holder start _ => ∀ image, program.image? holder = some image → image.size < start
  | .group _ segments => ∃ id ∈ segments, program.segment? id = none
  | .symbol name _ => ∃ symbol ∈ program.publics, symbol.name = name

/-- The program that an addition leaves. -/
def grown (program : Program) (addition : Addition) : Program := (addition.perform program).state

def loaded (program : Program) (additions : List Addition) : Program :=
  additions.foldl grown program

theorem loaded_concat (program : Program) (additions : List Addition) (addition : Addition) :
    program.loaded (additions ++ [addition]) = (program.loaded additions).grown addition := by
  simp [loaded]

/-- `after` has the tables of `before`, perhaps with more at their ends. -/
structure Extends (before after : Program) : Prop where
  segments : before.segments <+: after.segments
  groups : before.groups <+: after.groups
  externals : before.externals <+: after.externals
  publics : before.publics <+: after.publics
  frameBase : after.frameBase = before.frameBase

/-- All members of groups are segments of the program. -/
def Closed (program : Program) : Prop :=
  ∀ group ∈ program.groups, ∀ id ∈ group.segments, ∃ segment, program.segment? id = some segment

theorem getElem?_of_prefix {α : Type} {before after : List α} (more : before <+: after) {index : Nat}
    {item : α} (found : before[index]? = some item) : after[index]? = some item := by
  obtain ⟨bound, rfl⟩ := List.getElem?_eq_some_iff.mp found
  exact List.prefix_iff_getElem?.mp more index bound

namespace Extends

variable {before after : Program}

theorem refl (program : Program) : program.Extends program :=
  ⟨List.prefix_refl _, List.prefix_refl _, List.prefix_refl _, List.prefix_refl _, rfl⟩

theorem trans {last : Program} (first : before.Extends after) (second : after.Extends last) :
    before.Extends last :=
  ⟨first.segments.trans second.segments, first.groups.trans second.groups,
    first.externals.trans second.externals, first.publics.trans second.publics,
    second.frameBase.trans first.frameBase⟩

section Lookups

variable (larger : before.Extends after)

include larger

theorem segment? {id : Nat} {segment : Segment} (found : before.segment? id = some segment) :
    after.segment? id = some segment :=
  getElem?_of_prefix larger.segments found

theorem group? {id : Nat} {group : Group} (found : before.group? id = some group) :
    after.group? id = some group :=
  getElem?_of_prefix larger.groups found

theorem external? {id : Nat} {external : External} (found : before.external? id = some external) :
    after.external? id = some external :=
  getElem?_of_prefix larger.externals found

/-- A name stands for the first symbol of that name, however many there are behind it. -/
theorem public? {name : String} {symbol : Public} (found : before.public? name = some symbol) :
    after.public? name = some symbol :=
  larger.publics.find?_eq_some found

end Lookups

/-- Members that are there have no others join them. -/
theorem opens_iff (larger : before.Extends after) {segments : List Nat}
    (known : ∀ id ∈ segments, ∃ segment, before.segment? id = some segment) {place : Place} :
    after.Opens segments place ↔ before.Opens segments place := by
  constructor
  · rintro ⟨id, member, segment, found, rfl⟩
    obtain ⟨earlier, foundEarlier⟩ := known id member
    obtain rfl := Option.some.inj (found.symm.trans (larger.segment? foundEarlier))
    exact ⟨id, member, segment, foundEarlier, rfl⟩
  · rintro ⟨id, member, segment, found, rfl⟩
    exact ⟨id, member, segment, larger.segment? found, rfl⟩

variable {referent last : Referent} {place : Place}

theorem starts (larger : before.Extends after) (closed : before.Closed)
    (starts : before.Starts referent place) : after.Starts referent place := by
  cases starts with
  | segment found => exact .segment (larger.segment? found)
  | group found opens least =>
      have members := closed _ (List.mem_of_getElem? found)
      refine .group (larger.group? found) ((larger.opens_iff members).mpr opens) fun other opened => ?_
      exact least other ((larger.opens_iff members).mp opened)
  | frame loaded above => exact .frame (larger.frameBase.trans loaded) above

theorem walk (larger : before.Extends after) {passed : List Public}
    (walk : before.Walk referent passed last) : after.Walk referent passed last := by
  induction walk with
  | here referent => exact .here referent
  | through found named _ ih => exact .through (larger.external? found) (larger.public? named) ih

/-- The walk from a referent that arrives is still there, and still arrives at the same place. -/
theorem resolve (larger : before.Extends after) (closed : before.Closed) {address : Address}
    (located : before.resolve address = some place) : after.resolve address = some place := by
  obtain ⟨base, found, sum⟩ := resolve_eq_some_iff.mp located
  obtain ⟨passed, last, start, walk, starts, rfl⟩ := base?_eq_some_iff.mp found
  have still : after.base? address.referent = some (start.add (distance passed)) :=
    base?_eq_some_iff.mpr ⟨passed, last, start, larger.walk walk, larger.starts closed starts, rfl⟩
  exact resolve_eq_some_iff.mpr ⟨_, still, sum⟩

theorem closed (larger : before.Extends after) (closed : before.Closed)
    (same : after.groups = before.groups) : after.Closed := by
  intro group member id listed
  obtain ⟨segment, found⟩ := closed group (same ▸ member) id listed
  exact ⟨segment, larger.segment? found⟩

end Extends

section Step

variable {program larger : Program} {addition : Addition}

/-- What is added comes at the end of one table. Groups come behind their members. -/
theorem Addition.perform_eq_ok (addition : Addition) (added : addition.perform program = .ok larger) :
    program.Extends larger ∧ (program.Closed → larger.Closed) := by
  have unchanged := Extends.refl program
  cases addition with
  | image name bytes =>
      cases added
      exact ⟨{ unchanged with }, id⟩
  | segment name className holder start length =>
      obtain ⟨-, rfl⟩ := addSegment_eq_ok_iff.mp added
      have more : program.Extends { program with segments := program.segments ++
          [⟨program.segments.length, name, className, holder, start, length⟩] } :=
        { unchanged with segments := List.prefix_append .. }
      exact ⟨more, fun closed => more.closed closed rfl⟩
  | group name segments =>
      obtain ⟨complete, rfl⟩ := addGroup_eq_ok_iff.mp added
      refine ⟨{ unchanged with groups := List.prefix_append .. }, fun closed group member => ?_⟩
      rcases List.mem_append.mp member with earlier | last
      · exact closed group earlier
      · rw [List.mem_singleton.mp last]
        exact complete
  | external name =>
      cases added
      exact ⟨{ unchanged with externals := List.prefix_append .. }, id⟩
  | symbol name address =>
      obtain ⟨-, rfl⟩ := addPublic_eq_ok_iff.mp added
      exact ⟨{ unchanged with publics := List.prefix_append .. }, id⟩

theorem Addition.exists_error_iff :
    (∃ fault kept, addition.perform program = .error fault kept) ↔ addition.Refused program := by
  rw [Attempt.exists_error_iff]
  cases addition with
  | image name bytes | external name => simp [perform, Refused]
  | segment name className holder start length =>
      simp [perform, Refused, addSegment_eq_ok_iff]
  | group name segments =>
      simp [perform, Refused, addGroup_eq_ok_iff, Option.eq_none_iff_forall_ne_some]
  | symbol name address => simp [perform, Refused, addPublic_eq_ok_iff]

theorem Addition.keeps (program : Program) (addition : Addition) :
    (addition.perform program).Keeps program := by
  cases addition with
  | image name bytes | external name => exact .ok ..
  | segment name className holder start length => exact addSegment_keeps ..
  | group name segments => exact addGroup_keeps ..
  | symbol name address => exact addPublic_keeps ..

theorem grown_extends (program : Program) (addition : Addition) :
    program.Extends (program.grown addition) :=
  (addition.keeps program).induction (motive := program.Extends) (.refl program)
    fun _ added => (addition.perform_eq_ok added).1

theorem grown_closed (program : Program) (addition : Addition) (closed : program.Closed) :
    (program.grown addition).Closed :=
  (addition.keeps program).induction (motive := Closed) closed
    fun _ added => (addition.perform_eq_ok added).2 closed

end Step

theorem loaded_extends (program : Program) (additions : List Addition) :
    program.Extends (program.loaded additions) := by
  induction additions generalizing program with
  | nil => exact .refl program
  | cons addition rest ih =>
      exact (program.grown_extends addition).trans (ih (program.grown addition))

theorem Built.closed {program : Program} (built : program.Built) : program.Closed := by
  induction built with
  | empty => simp [Closed, Program.empty]
  | addImage name bytes _ ih => exact ih
  | addSegment name className holder start length _ ih => exact grown_closed _ (.segment ..) ih
  | addGroup name segments _ ih => exact grown_closed _ (.group name segments) ih
  | addExternal name _ ih => exact ih
  | addPublic name address _ ih => exact grown_closed _ (.symbol name address) ih
  | setFrameBase holder loadSegment _ ih =>
      refine (setFrameBase_keeps ..).induction (motive := Closed) ih fun larger defined => ?_
      obtain ⟨-, rfl⟩ := setFrameBase_eq_ok_iff.mp defined
      exact ih
  | mark _ _ _ _ _ ih => exact ih
  | addFixup _ _ _ ih => exact ih
  | closeFixups _ _ ih => exact ih

/-- An address that resolves goes on to resolve to the same place, whatever is added to the program and
whatever of that is refused. An addition that is refused changes the place of no address. -/
theorem loading_keeps_places {program : Program} (built : program.Built) (additions : List Addition) :
    let now := program.loaded additions
    (∀ address place, program.resolve address = some place → now.resolve address = some place) ∧
    ∀ addition : Addition,
      ((∃ fault kept, addition.perform now = .error fault kept) ↔ addition.Refused now) ∧
      ∀ fault kept, addition.perform now = .error fault kept → kept = now ∧
        ∀ address, (program.loaded (additions ++ [addition])).resolve address = now.resolve address := by
  intro now
  refine ⟨fun address place located => ?_, fun addition => ⟨Addition.exists_error_iff, ?_⟩⟩
  · exact (program.loaded_extends additions).resolve built.closed located
  · intro fault kept failed
    have keeps := addition.keeps now
    refine ⟨keeps.eq fault kept failed, fun address => ?_⟩
    rw [loaded_concat, grown, keeps.state_of_error failed]

/-- An external that stands for a symbol in a group, and one whose symbol is still to come. -/
def halfLoaded : Program where
  images := #[.fresh 0 "code" #[0xC3, 0xC3, 0xC3, 0xC3]]
  segments := [⟨0, "text", "CODE", 0, 2, 2⟩]
  groups := [⟨0, "all", [0]⟩]
  externals := [⟨0, "start"⟩, ⟨1, "late"⟩]
  publics := [⟨"start", ⟨.group 0, 1⟩⟩]
  frameBase := none

theorem halfLoaded_built : halfLoaded.Built := by
  have image := Built.empty.addImage "code" #[0xC3, 0xC3, 0xC3, 0xC3]
  have group := (image.addSegment "text" "CODE" 0 2 2).addGroup "all" [0]
  exact ((group.addExternal "start").addExternal "late").addPublic "start" ⟨.group 0, 1⟩

/-- A second symbol of a name and a segment of an image that there is not are refused. The segment in
front of the others is not a member of the group, which stays where it was, and the symbol that was
missing makes its external resolve. A group with an unknown member changes nothing. -/
theorem halfLoaded_loading_keeps_places :
    let additions := [.symbol "start" ⟨.segment 0, 0⟩, .segment "low" "CODE" 0 0 2,
      .segment "far" "CODE" 7 0 2, .symbol "late" ⟨.external 0, 1⟩]
    let now := halfLoaded.loaded additions
    let gap := Addition.group "gap" [1, 5]
    halfLoaded.Built ∧ now.segments.length = 2 ∧ now.publics.length = 2 ∧
      halfLoaded.resolve ⟨.external 0, 0⟩ = some ⟨0, 3⟩ ∧ now.resolve ⟨.external 0, 0⟩ = some ⟨0, 3⟩ ∧
      halfLoaded.resolve ⟨.external 1, 0⟩ = none ∧ now.resolve ⟨.external 1, 0⟩ = some ⟨0, 4⟩ ∧
      gap.Refused now ∧
      (halfLoaded.loaded (additions ++ [gap])).resolve ⟨.external 1, 0⟩ = some ⟨0, 4⟩ := by
  intro additions now gap
  obtain ⟨kept, refusals⟩ := loading_keeps_places halfLoaded_built additions
  have located : halfLoaded.resolve ⟨.external 0, 0⟩ = some ⟨0, 3⟩ := by decide
  have late : now.resolve ⟨.external 1, 0⟩ = some ⟨0, 4⟩ := by decide
  have refused : gap.Refused now := ⟨5, by decide, by decide⟩
  obtain ⟨fails, unchanged⟩ := refusals gap
  obtain ⟨fault, left, failed⟩ := fails.mpr refused
  exact ⟨halfLoaded_built, by decide, by decide, located, kept _ _ located, by decide, late, refused,
    ((unchanged fault left failed).2 _).trans late⟩

end RealMode.Program
