import RealMode.Program.Resolve
import RealMode.Proofs.Place

/-! Resolution as a walk along definitions.

Segments, groups and frames start at places of their own. An external leads to the referent of the
public symbol that it stands for, and the offsets of the symbols on the way add up. A walk that comes
back to an external goes round for ever, so nothing is lost if resolution turns back there, and a
walk that arrives passes each external once at most. -/

set_option autoImplicit false

namespace RealMode

namespace Program

variable {program : Program}

/-- One of some segments starts at a place. -/
def Opens (program : Program) (segments : List Nat) (place : Place) : Prop :=
  ∃ id ∈ segments, ∃ segment, program.segment? id = some segment ∧
    place = ⟨segment.image, segment.start⟩

/-- The place at which a segment, group or frame starts. -/
inductive Starts (program : Program) : Referent → Place → Prop where
  | segment {id : Nat} {segment : Segment} : program.segment? id = some segment →
      Starts program (.segment id) ⟨segment.image, segment.start⟩
  | group {id : Nat} {group : Group} {place : Place} : program.group? id = some group →
      program.Opens group.segments place →
      (∀ other, program.Opens group.segments other → ¬other < place) →
      Starts program (.group id) place
  | frame {selector : UInt16} {base : FrameBase} : program.frameBase = some base →
      base.loadSegment.toNat ≤ selector.toNat →
      Starts program (.frame selector)
        ⟨base.image, 16 * (selector.toNat - base.loadSegment.toNat)⟩

/-- The way from a referent to another, on which the public symbol of its name stands for each
external. The symbols on the way are listed. -/
inductive Walk (program : Program) : Referent → List Public → Referent → Prop where
  | here (referent : Referent) : Walk program referent [] referent
  | through {id : Nat} {external : External} {symbol : Public} {passed : List Public}
      {last : Referent} : program.external? id = some external →
      program.public? external.name = some symbol →
      Walk program symbol.address.referent passed last →
      Walk program (.external id) (symbol :: passed) last

/-- The sum of the offsets of some symbols. -/
def distance : List Public → Nat
  | [] => 0
  | symbol :: passed => symbol.address.offset.toNat + distance passed

/-- The walk from a referent comes to one that starts at a place of its own. -/
def Arrives (program : Program) (referent : Referent) (place : Place) : Prop :=
  ∃ passed last base, program.Walk referent passed last ∧ program.Starts last base ∧
    place = base.add (distance passed)

/-- The walk from a referent comes to nothing. -/
inductive Strays (program : Program) (referent : Referent) : Prop where
  | unknown {passed : List Public} {id : Nat} : program.Walk referent passed (.external id) →
      program.external? id = none → Strays program referent
  | undefined {passed : List Public} {id : Nat} {external : External} :
      program.Walk referent passed (.external id) → program.external? id = some external →
      program.public? external.name = none → Strays program referent
  | circular {passed round : List Public} {again : Referent} :
      program.Walk referent passed again → program.Walk again round again → round ≠ [] →
      Strays program referent
  | baseless {passed : List Public} {last : Referent} : program.Walk referent passed last →
      (∀ id, last ≠ .external id) → (∀ base, ¬program.Starts last base) → Strays program referent

section Bases

theorem segmentBase?_eq_some_iff {id : Nat} {place : Place} :
    program.segmentBase? id = some place ↔
      ∃ segment, program.segment? id = some segment ∧ place = ⟨segment.image, segment.start⟩ := by
  simp only [segmentBase?, Option.map_eq_some_iff, @eq_comm _ place]

theorem mem_segmentBases_iff {segments : List Nat} {place : Place} :
    place ∈ segments.filterMap program.segmentBase? ↔ program.Opens segments place := by
  simp only [List.mem_filterMap, segmentBase?_eq_some_iff, Opens]

theorem starts_segment_iff {id : Nat} {place : Place} :
    program.Starts (.segment id) place ↔ program.segmentBase? id = some place := by
  rw [segmentBase?_eq_some_iff]
  constructor
  · rintro ⟨found⟩
    exact ⟨_, found, rfl⟩
  · rintro ⟨segment, found, rfl⟩
    exact .segment found

/-- A group starts where the first of its members does. -/
theorem groupBase?_eq_some_iff {id : Nat} {place : Place} :
    program.groupBase? id = some place ↔
      ∃ group, program.group? id = some group ∧ program.Opens group.segments place ∧
        ∀ other, program.Opens group.segments other → ¬other < place := by
  simp only [groupBase?, Option.bind_eq_bind, Option.bind_eq_some_iff, Place.least?_eq_some_iff,
    mem_segmentBases_iff]

theorem starts_group_iff {id : Nat} {place : Place} :
    program.Starts (.group id) place ↔ program.groupBase? id = some place := by
  rw [groupBase?_eq_some_iff]
  constructor
  · rintro (_ | ⟨found, opens, least⟩)
    exact ⟨_, found, opens, least⟩
  · rintro ⟨group, found, opens, least⟩
    exact .group found opens least

theorem starts_frame_iff {selector : UInt16} {place : Place} :
    program.Starts (.frame selector) place ↔ program.frameBase? selector = some place := by
  simp only [frameBase?, Option.bind_eq_bind, Option.bind_eq_some_iff]
  constructor
  · rintro (_ | _ | ⟨loaded, above⟩)
    refine ⟨_, loaded, ?_⟩
    rw [if_pos above, Nat.mul_comm 16, Nat.sub_mul]
  · rintro ⟨base, loaded, found⟩
    split at found
    · rename_i above
      rw [← Nat.sub_mul, Nat.mul_comm _ 16] at found
      obtain rfl := Option.some.inj found
      exact .frame loaded above
    · cases found

theorem not_starts_external (id : Nat) (place : Place) : ¬program.Starts (.external id) place := by
  rintro ⟨⟩

theorem Starts.own {referent : Referent} {place : Place} (starts : program.Starts referent place)
    (id : Nat) : referent ≠ .external id := by
  rintro rfl
  exact not_starts_external id place starts

theorem starts_iff {referent : Referent} (own : ∀ id, referent ≠ .external id) (depth : Nat)
    {place : Place} :
    program.Starts referent place ↔ program.baseWithin? depth referent = some place := by
  cases referent with
  | segment id => rw [starts_segment_iff, baseWithin?]
  | group id => rw [starts_group_iff, baseWithin?]
  | frame selector => rw [starts_frame_iff, baseWithin?]
  | external id => exact absurd rfl (own id)

end Bases

theorem definition?_eq_some_iff {id : Nat} {symbol : Public} :
    program.definition? id = some symbol ↔
      ∃ external, program.external? id = some external ∧
        program.public? external.name = some symbol := by
  simp only [definition?, Option.bind_eq_bind, Option.bind_eq_some_iff]

namespace Walk

variable {referent again last : Referent} {passed others : List Public} {base : Place}

theorem trans (walk : program.Walk referent passed again) (onward : program.Walk again others last) :
    program.Walk referent (passed ++ others) last := by
  induction walk with
  | here referent => exact onward
  | through found named _ ih => exact .through found named (ih onward)

theorem of_definition? {id : Nat} {symbol : Public} (defined : program.definition? id = some symbol)
    (walk : program.Walk symbol.address.referent passed last) :
    program.Walk (.external id) (symbol :: passed) last := by
  obtain ⟨external, found, named⟩ := definition?_eq_some_iff.mp defined
  exact .through found named walk

/-- A walk does not leave a referent that is no external. -/
theorem stays (walk : program.Walk referent passed last) (own : ∀ id, referent ≠ .external id) :
    passed = [] ∧ last = referent := by
  cases walk with
  | here referent => exact ⟨rfl, rfl⟩
  | through _ _ _ => exact absurd rfl (own _)

/-- A walk that leaves an external passes the symbol that it stands for. -/
theorem leaves {id : Nat} (walk : program.Walk (.external id) passed last)
    (own : ∀ id, last ≠ .external id) :
    ∃ symbol rest, program.definition? id = some symbol ∧ passed = symbol :: rest ∧
      program.Walk symbol.address.referent rest last := by
  cases walk with
  | here _ => exact absurd rfl (own id)
  | through found named walk =>
      exact ⟨_, _, definition?_eq_some_iff.mpr ⟨_, found, named⟩, rfl, walk⟩

/-- Wherever a walk comes by, one that arrives goes on from there. -/
theorem follows (walk : program.Walk referent passed last) (starts : program.Starts last base)
    (other : program.Walk referent others again) :
    ∃ rest, passed = others ++ rest ∧ program.Walk again rest last := by
  induction other generalizing passed with
  | here referent => exact ⟨passed, rfl, walk⟩
  | through found named other ih =>
      obtain ⟨symbol, behind, defined, rfl, shorter⟩ := walk.leaves starts.own
      rw [definition?_eq_some_iff.mpr ⟨_, found, named⟩, Option.some.injEq] at defined
      subst defined
      obtain ⟨rest, rfl, onward⟩ := ih shorter
      exact ⟨rest, rfl, onward⟩

/-- There is one walk that arrives, and one referent at which it does. -/
theorem unique (walk : program.Walk referent passed last) (starts : program.Starts last base)
    (other : program.Walk referent others again) (own : ∀ id, again ≠ .external id) :
    others = passed ∧ again = last := by
  obtain ⟨rest, rfl, onward⟩ := walk.follows starts other
  obtain ⟨rfl, rfl⟩ := onward.stays own
  exact ⟨(List.append_nil _).symm, rfl⟩

/-- No walk that arrives goes round. -/
theorem not_circular {round : List Public} (walk : program.Walk referent passed last)
    (starts : program.Starts last base) (circle : program.Walk referent round referent) :
    round = [] := by
  obtain ⟨rest, rfl, onward⟩ := walk.follows starts circle
  obtain ⟨same, -⟩ := walk.unique starts onward starts.own
  have lengths := congrArg List.length same
  rw [List.length_append] at lengths
  exact List.eq_nil_of_length_eq_zero (by omega)

end Walk

section Arrival

variable {referent : Referent} {place : Place}

theorem Starts.unique {other : Place} (starts : program.Starts referent place)
    (alsoStarts : program.Starts referent other) : place = other := by
  have found := (starts_iff starts.own 0).mp starts
  have alsoFound := (starts_iff starts.own 0).mp alsoStarts
  exact Option.some.inj (found.symm.trans alsoFound)

theorem Arrives.unique {other : Place} (arrives : program.Arrives referent place)
    (alsoArrives : program.Arrives referent other) : place = other := by
  obtain ⟨passed, last, base, walk, starts, rfl⟩ := arrives
  obtain ⟨others, again, otherBase, otherWalk, otherStarts, rfl⟩ := alsoArrives
  obtain ⟨rfl, rfl⟩ := walk.unique starts otherWalk otherStarts.own
  rw [starts.unique otherStarts]

theorem baseWithin?_external {id : Nat} {symbol : Public}
    (defined : program.definition? id = some symbol) (depth : Nat) :
    program.baseWithin? (depth + 1) (.external id) =
      (program.baseWithin? depth symbol.address.referent).map
        (·.add symbol.address.offset.toNat) := by
  simp only [baseWithin?, defined, Option.bind_eq_bind, Option.bind_some, Option.map_eq_bind,
    Function.comp_def]

/-- What is found through so many externals lies at the end of a walk that passes no more. -/
theorem exists_walk_of_baseWithin? {depth : Nat}
    (found : program.baseWithin? depth referent = some place) :
    ∃ passed last base, program.Walk referent passed last ∧ program.Starts last base ∧
      place = base.add (distance passed) ∧ passed.length ≤ depth := by
  induction depth generalizing referent place with
  | zero =>
      cases referent with
      | external id => cases found
      | segment id | group id | frame selector =>
          exact ⟨[], _, place, .here _, (starts_iff (by simp) 0).mpr found, rfl, Nat.le_refl 0⟩
  | succ depth ih =>
      cases referent with
      | external id =>
          cases defined : program.definition? id with
          | none => simp [baseWithin?, defined] at found
          | some symbol =>
              rw [baseWithin?_external defined, Option.map_eq_some_iff] at found
              obtain ⟨reached, onward, rfl⟩ := found
              obtain ⟨passed, last, base, walk, starts, rfl, short⟩ := ih onward
              refine ⟨symbol :: passed, last, base, .of_definition? defined walk, starts, ?_,
                Nat.succ_le_succ short⟩
              rw [Place.add_add, distance, Nat.add_comm]
      | segment id | group id | frame selector =>
          exact ⟨[], _, place, .here _, (starts_iff (by simp) _).mpr found, rfl, Nat.zero_le _⟩

theorem arrives_of_baseWithin? {depth : Nat} (found : program.baseWithin? depth referent = some place) :
    program.Arrives referent place := by
  obtain ⟨passed, last, base, walk, starts, same, -⟩ := exists_walk_of_baseWithin? found
  exact ⟨passed, last, base, walk, starts, same⟩

theorem Strays.not_arrives (strays : program.Strays referent) : ¬program.Arrives referent place := by
  rintro ⟨passed, last, base, walk, starts, -⟩
  cases strays with
  | unknown other missing =>
      obtain ⟨rest, -, onward⟩ := walk.follows starts other
      obtain ⟨symbol, -, defined, -⟩ := onward.leaves starts.own
      simp [definition?, missing] at defined
  | undefined other found missing =>
      obtain ⟨rest, -, onward⟩ := walk.follows starts other
      obtain ⟨symbol, -, defined, -⟩ := onward.leaves starts.own
      simp [definition?, found, missing] at defined
  | circular other circle round =>
      obtain ⟨rest, -, onward⟩ := walk.follows starts other
      exact round (onward.not_circular starts circle)
  | baseless other own baseless =>
      obtain ⟨-, rfl⟩ := walk.unique starts other own
      exact baseless base starts

theorem Strays.of_definition? {id : Nat} {symbol : Public}
    (defined : program.definition? id = some symbol)
    (strays : program.Strays symbol.address.referent) : program.Strays (.external id) := by
  cases strays with
  | unknown walk missing => exact .unknown (.of_definition? defined walk) missing
  | undefined walk found missing => exact .undefined (.of_definition? defined walk) found missing
  | circular walk circle round => exact .circular (.of_definition? defined walk) circle round
  | baseless walk own baseless => exact .baseless (.of_definition? defined walk) own baseless

theorem strays_of_definition?_eq_none {id : Nat} (missing : program.definition? id = none) :
    program.Strays (.external id) := by
  cases found : program.external? id with
  | none => exact .unknown (.here _) found
  | some external =>
      refine .undefined (.here _) found ?_
      simpa [definition?, found] using missing

theorem strays_of_baseWithin?_eq_none (own : ∀ id, referent ≠ .external id) {depth : Nat}
    (missing : program.baseWithin? depth referent = none) : program.Strays referent := by
  refine .baseless (.here referent) own fun base starts => ?_
  rw [starts_iff own depth, missing] at starts
  cases starts

end Arrival

/-! ## Turning back at what is being resolved -/

/-- The steps from a referent that do not lead through an external: from a group to its members. -/
def layers : Referent → Nat
  | .group _ => 1
  | .segment _ | .frame _ | .external _ => 0

/-- The number of externals that are not among some referents. -/
def unvisited (program : Program) (visiting : List Referent) : Nat :=
  ((List.range program.externals.length).filter fun id => .external id ∉ visiting).length

theorem layers_le_one (referent : Referent) : layers referent ≤ 1 := by
  cases referent <;> simp [layers]

theorem unvisited_nil (program : Program) : program.unvisited [] = program.externals.length := by
  rw [unvisited, List.filter_eq_self.mpr (by simp), List.length_range]

theorem unvisited_group (visiting : List Referent) (id : Nat) :
    program.unvisited (.group id :: visiting) = program.unvisited visiting := by
  simp [unvisited]

theorem unvisited_external {visiting : List Referent} {id : Nat} {symbol : Public}
    (defined : program.definition? id = some symbol) (new : .external id ∉ visiting) :
    program.unvisited (.external id :: visiting) < program.unvisited visiting := by
  obtain ⟨external, found, -⟩ := definition?_eq_some_iff.mp defined
  have known : id < program.externals.length := (List.getElem?_eq_some_iff.mp found).1
  have split : ((List.range program.externals.length).filter fun other =>
      .external other ∉ (Referent.external id :: visiting)) =
      ((List.range program.externals.length).filter fun other => .external other ∉ visiting).filter
        fun other => other ≠ id := by
    simp [List.filter_filter]
  rw [unvisited, unvisited, split, List.length_filter_lt_length_iff_exists]
  exact ⟨id, by simp [known, new], by simp⟩

/-- The base of a referent, which must not be one of those that are being resolved already. The
members of a group are resolved, too, while the group is. -/
def guardedBase? (program : Program) (visiting : List Referent) (referent : Referent) :
    Option Place :=
  if referent ∈ visiting then none
  else
    match _kind : referent with
    | .segment id => program.segmentBase? id
    | .group id => do
        let group ← program.group? id
        Place.least? (group.segments.filterMap fun member =>
          program.guardedBase? (.group id :: visiting) (.segment member))
    | .frame selector => program.frameBase? selector
    | .external id =>
        match _defined : program.definition? id with
        | none => none
        | some symbol =>
            (program.guardedBase? (.external id :: visiting) symbol.address.referent).map
              (·.add symbol.address.offset.toNat)
-- An external uses up one of those that are left. A group leads to its members and no further.
termination_by 2 * program.unvisited visiting + layers referent
decreasing_by
  · simp [unvisited_group, layers]
  · rename_i new
    subst _kind
    have fewer := unvisited_external _defined new
    have low := layers_le_one symbol.address.referent
    have direct : layers (.external id) = 0 := rfl
    omega

section Guard

variable {visiting : List Referent} {referent : Referent}

theorem guardedBase?_of_mem (met : referent ∈ visiting) :
    program.guardedBase? visiting referent = none := by
  rw [guardedBase?.eq_def, if_pos met]

theorem guardedBase?_undefined {id : Nat} (missing : program.definition? id = none) :
    program.guardedBase? visiting (.external id) = none := by
  rw [guardedBase?]
  split
  · rfl
  · split
    · rfl
    · rename_i found
      simp [missing] at found

theorem guardedBase?_segment {id : Nat} (new : .segment id ∉ visiting) :
    program.guardedBase? visiting (.segment id) = program.segmentBase? id := by
  rw [guardedBase?, if_neg new]

theorem guardedBase?_external {id : Nat} {symbol : Public}
    (defined : program.definition? id = some symbol) (new : .external id ∉ visiting) :
    program.guardedBase? visiting (.external id) =
      (program.guardedBase? (.external id :: visiting) symbol.address.referent).map
        (·.add symbol.address.offset.toNat) := by
  rw [guardedBase?, if_neg new]
  split
  · rename_i missing
    simp [missing] at defined
  · rename_i found
    rw [defined, Option.some.injEq] at found
    rw [found]

/-- Where only externals are being resolved, no referent of another kind is turned away. A segment
may be a member of a group more than once. -/
theorem guardedBase?_of_own (outer : ∀ other ∈ visiting, ∃ id, other = .external id)
    (own : ∀ id, referent ≠ .external id) (depth : Nat) :
    program.guardedBase? visiting referent = program.baseWithin? depth referent := by
  have new : referent ∉ visiting := fun met => by
    obtain ⟨id, same⟩ := outer referent met
    exact own id same
  cases referent with
  | segment id => rw [guardedBase?_segment new, baseWithin?]
  | group id =>
      rw [guardedBase?, if_neg new, baseWithin?, groupBase?]
      have members : (fun member => program.guardedBase? (.group id :: visiting) (.segment member)) =
          program.segmentBase? := by
        funext member
        apply guardedBase?_segment
        rw [List.mem_cons, not_or]
        refine ⟨by simp, fun met => ?_⟩
        obtain ⟨other, same⟩ := outer _ met
        cases same
      simp only [members]
  | frame selector => rw [guardedBase?, if_neg new, baseWithin?]
  | external id => exact absurd rfl (own id)

/-- The walks from all of some referents come by another one later on. -/
def Behind (program : Program) (visiting : List Referent) (referent : Referent) : Prop :=
  ∀ other ∈ visiting, ∃ passed, passed ≠ [] ∧ program.Walk other passed referent

theorem Behind.external (behind : program.Behind visiting referent) :
    ∀ other ∈ visiting, ∃ id, other = .external id := by
  intro other member
  obtain ⟨passed, moved, walk⟩ := behind other member
  cases walk with
  | here _ => exact absurd rfl moved
  | through _ _ _ => exact ⟨_, rfl⟩

theorem Behind.strays (behind : program.Behind visiting referent) (met : referent ∈ visiting) :
    program.Strays referent := by
  obtain ⟨round, moved, circle⟩ := behind referent met
  exact .circular (.here referent) circle moved

theorem Behind.through {id : Nat} {symbol : Public} (behind : program.Behind visiting (.external id))
    (defined : program.definition? id = some symbol) :
    program.Behind (.external id :: visiting) symbol.address.referent := by
  have step := Walk.of_definition? defined (.here _)
  intro other member
  rcases List.mem_cons.mp member with rfl | earlier
  · exact ⟨[symbol], by simp, step⟩
  · obtain ⟨passed, moved, walk⟩ := behind other earlier
    exact ⟨passed ++ [symbol], by simp, walk.trans step⟩

theorem Strays.baseWithin?_eq_none (strays : program.Strays referent) (depth : Nat) :
    program.baseWithin? depth referent = none := by
  rw [Option.eq_none_iff_forall_ne_some]
  intro place found
  exact strays.not_arrives (arrives_of_baseWithin? found)

theorem Behind.agrees_of_own (behind : program.Behind visiting referent)
    (own : ∀ id, referent ≠ .external id) (depth : Nat) :
    program.guardedBase? visiting referent = program.baseWithin? depth referent ∧
      (program.baseWithin? depth referent = none → program.Strays referent) :=
  ⟨guardedBase?_of_own behind.external own depth, strays_of_baseWithin?_eq_none own⟩

/-- It comes to the same to turn back at a referent that is being resolved and to stop when as many
externals have been passed as there are. Where there is no result, the walk comes to nothing. -/
theorem Behind.agrees (behind : program.Behind visiting referent) {depth : Nat}
    (enough : program.unvisited visiting ≤ depth) :
    program.guardedBase? visiting referent = program.baseWithin? depth referent ∧
      (program.baseWithin? depth referent = none → program.Strays referent) := by
  induction visiting, referent using guardedBase?.induct program generalizing depth with
  | case1 visiting referent met =>
      have strays := behind.strays met
      rw [guardedBase?_of_mem met, strays.baseWithin?_eq_none]
      exact ⟨rfl, fun _ => strays⟩
  | case2 visiting id new | case3 visiting id new | case4 visiting id new =>
      exact behind.agrees_of_own (by simp) depth
  | case5 visiting id missing new =>
      have strays := strays_of_definition?_eq_none missing
      rw [guardedBase?_undefined missing, strays.baseWithin?_eq_none]
      exact ⟨rfl, fun _ => strays⟩
  | case6 visiting id symbol defined new ih =>
      have fewer := unvisited_external defined new
      cases depth with
      | zero => omega
      | succ depth =>
          have left : program.unvisited (.external id :: visiting) ≤ depth := by omega
          obtain ⟨same, strays⟩ := ih (behind.through defined) left
          rw [guardedBase?_external defined new, same, baseWithin?_external defined]
          refine ⟨rfl, fun missing => ?_⟩
          exact (strays (Option.map_eq_none_iff.mp missing)).of_definition? defined

end Guard

theorem base?_agrees (program : Program) (referent : Referent) :
    program.guardedBase? [] referent = program.base? referent ∧
      (program.base? referent = none → program.Strays referent) :=
  Behind.agrees (by simp [Behind]) (Nat.le_of_eq program.unvisited_nil)

theorem base?_eq_none_iff {referent : Referent} :
    program.base? referent = none ↔ program.Strays referent :=
  ⟨(program.base?_agrees referent).2, fun strays => strays.baseWithin?_eq_none _⟩

theorem base?_eq_some_iff {referent : Referent} {place : Place} :
    program.base? referent = some place ↔ program.Arrives referent place := by
  refine ⟨arrives_of_baseWithin?, fun arrives => ?_⟩
  cases found : program.base? referent with
  | none => exact absurd arrives (base?_eq_none_iff.mp found).not_arrives
  | some other => rw [(arrives_of_baseWithin? found).unique arrives]

theorem resolve_eq_some_iff {address : Address} {place : Place} :
    program.resolve address = some place ↔
      ∃ base, program.base? address.referent = some base ∧ base.add address.offset.toNat = place := by
  rw [resolve, Option.map_eq_some_iff]

end Program

end RealMode
