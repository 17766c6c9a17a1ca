import RealMode.Program.Target
import RealMode.Proofs.Program.Resolution

/-! Targets of fix-ups as walks along symbols.

The target of a fix-up is settled on the walk that resolution takes, but its offset wraps at 64K with
each symbol on the way, and the walk may be too long. -/

set_option autoImplicit false

namespace RealMode

theorem Address.eq_of_toNat {left right : Address} (referent : left.referent = right.referent)
    (offset : left.offset.toNat = right.offset.toNat) : left = right := by
  obtain ⟨leftReferent, leftOffset⟩ := left
  obtain ⟨rightReferent, rightOffset⟩ := right
  rw [mk.injEq]
  exact ⟨referent, UInt16.toNat_inj.mp offset⟩

namespace Program

variable {program : Program}

section Rounds

variable {rounds : Nat}

theorem settle?_own {address : Address} (own : ∀ id, address.referent ≠ .external id) :
    program.settle? (rounds + 1) address = some address := by
  rw [settle?]
  split
  · rename_i same
    exact absurd same (own _)
  · rfl

theorem settle?_external (id : Nat) (offset : UInt16) :
    program.settle? (rounds + 1) ⟨.external id, offset⟩ =
      (program.definition? id).bind fun symbol =>
        program.settle? rounds (symbol.address.wrappingAdd offset) := rfl

/-- To wrap with each symbol on the way is as good as to wrap once at the end. -/
theorem wrappingAdd_distance (symbol : Public) (offset : UInt16) (passed : List Public) :
    ((symbol.address.wrappingAdd offset).offset.toNat + distance passed) % 65536 =
      (offset.toNat + distance (symbol :: passed)) % 65536 := by
  rw [Address.wrappingAdd, UInt16.toNat_add, distance]
  omega

/-- Settling walks to a referent that is no external, if it passes fewer symbols than it has
rounds. -/
theorem settle?_eq_some_iff {address settled : Address} :
    program.settle? rounds address = some settled ↔
      ∃ passed, program.Walk address.referent passed settled.referent ∧
        (∀ id, settled.referent ≠ .external id) ∧ passed.length < rounds ∧
        settled.offset.toNat = (address.offset.toNat + distance passed) % 65536 := by
  induction rounds generalizing address with
  | zero => simp [settle?]
  | succ rounds ih =>
      obtain ⟨referent, offset⟩ := address
      cases referent with
      | external id =>
          simp only [settle?_external, Option.bind_eq_some_iff, ih, wrappingAdd_distance]
          constructor
          · rintro ⟨symbol, defined, passed, walk, own, short, wrapped⟩
            exact ⟨symbol :: passed, .of_definition? defined walk, own, Nat.succ_lt_succ short,
              wrapped⟩
          · rintro ⟨passed, walk, own, short, wrapped⟩
            obtain ⟨symbol, rest, defined, rfl, onward⟩ := walk.leaves own
            exact ⟨symbol, defined, rest, onward, own, Nat.lt_of_succ_lt_succ short, wrapped⟩
      | segment id | group id | frame selector =>
          have fits : (offset.toNat + distance []) % 65536 = offset.toNat :=
            Nat.mod_eq_of_lt offset.toNat_lt
          rw [settle?_own (by simp), Option.some.injEq]
          constructor
          · rintro rfl
            exact ⟨[], .here _, by simp, Nat.succ_pos _, fits.symm⟩
          · rintro ⟨passed, walk, own, -, wrapped⟩
            obtain ⟨rfl, same⟩ := walk.stays (by simp)
            exact Address.eq_of_toNat same.symm (fits.symm.trans wrapped.symm)

end Rounds

section Target

variable {target : Fixup.Target} {address : Address}

/-- The target of a fix-up is the end of the walk from its referent, if that passes fewer externals
than the limit and ends at a place. -/
theorem targetAddress?_eq_some_iff :
    program.targetAddress? target = some address ↔
      ∃ passed base, program.Walk target.referent passed address.referent ∧
        program.Starts address.referent base ∧ passed.length < chainLimit ∧
        address.offset.toNat = (target.displacement.toNat + distance passed) % 65536 := by
  simp only [targetAddress?, Option.bind_eq_bind, Option.bind_eq_some_iff, settle?_eq_some_iff,
    base?_eq_some_iff]
  constructor
  · rintro ⟨_, ⟨passed, last, base, walk, starts, rfl⟩, others, other, own, short, wrapped⟩
    obtain ⟨rfl, same⟩ := walk.unique starts other own
    rw [same] at other ⊢
    exact ⟨others, base, other, starts, short, wrapped⟩
  · rintro ⟨passed, base, walk, starts, short, wrapped⟩
    exact ⟨_, ⟨passed, _, base, walk, starts, rfl⟩, passed, walk, starts.own, short, wrapped⟩

theorem resolve_of_walk {passed : List Public} {last : Referent} {base : Place}
    (walk : program.Walk address.referent passed last) (starts : program.Starts last base) :
    program.resolve address = some (base.add (address.offset.toNat + distance passed)) := by
  rw [resolve, base?_eq_some_iff.mpr ⟨passed, last, base, walk, starts, rfl⟩, Option.map_some,
    Place.add_add, Nat.add_comm]

theorem resolve_of_starts {base : Place} (starts : program.Starts address.referent base) :
    program.resolve address = some (base.add address.offset.toNat) :=
  resolve_of_walk (.here _) starts

/-- The settled target of a fix-up and the unsettled one lie in one image, and as many times 64K
apart as the offsets on the way have wrapped. -/
theorem settled_target_agrees (program : Program) (target : Fixup.Target) (address : Address)
    (settled : program.targetAddress? target = some address) :
    (∀ id, address.referent ≠ .external id) ∧
    ∃ passed near far, program.Walk target.referent passed address.referent ∧
      (∀ others, program.Walk target.referent others address.referent → others = passed) ∧
      program.resolve address = some near ∧
      program.resolve ⟨target.referent, target.displacement⟩ = some far ∧
      far.image = near.image ∧
      far.offset =
        near.offset + 65536 * ((target.displacement.toNat + distance passed) / 65536) ∧
      (target.displacement.toNat + distance passed ≤ 0xFFFF → far = near) := by
  obtain ⟨passed, base, walk, starts, -, wrapped⟩ := targetAddress?_eq_some_iff.mp settled
  have unwrapped : target.displacement.toNat + distance passed =
      address.offset.toNat + 65536 * ((target.displacement.toNat + distance passed) / 65536) := by
    rw [wrapped, Nat.mod_add_div]
  refine ⟨starts.own, passed, _, _, walk, fun others other => ?_, resolve_of_starts starts,
    resolve_of_walk walk starts, rfl, ?_, fun small => ?_⟩
  · exact (walk.unique starts other starts.own).1
  · dsimp only [Place.add]
    omega
  · dsimp only at small ⊢
    rw [wrapped, Nat.mod_eq_of_lt (Nat.lt_succ_of_le small)]

theorem targetAddress?_ne_none {passed : List Public} {last : Referent} {base : Place}
    (walk : program.Walk target.referent passed last) (starts : program.Starts last base)
    (short : passed.length < chainLimit) : program.targetAddress? target ≠ none := by
  let offset := (target.displacement.toNat + distance passed) % 65536
  have word : (UInt16.ofNat offset).toNat = offset :=
    UInt16.toNat_ofNat_of_lt' (Nat.mod_lt _ (by decide))
  have settled : program.targetAddress? target = some ⟨last, UInt16.ofNat offset⟩ :=
    targetAddress?_eq_some_iff.mpr ⟨passed, base, walk, starts, short, word⟩
  simp [settled]

/-- The target of a fix-up is settled if and only if its referent resolves on a walk that passes
fewer externals than the limit. -/
theorem target_settled_below_limit (program : Program) (target : Fixup.Target) :
    (∀ address, program.targetAddress? target = some address ↔
      ∃ passed base, program.Walk target.referent passed address.referent ∧
        program.Starts address.referent base ∧ passed.length < chainLimit ∧
        address.offset.toNat = (target.displacement.toNat + distance passed) % 65536) ∧
    (program.targetAddress? target = none ↔
      program.base? target.referent = none ∨
      ∃ passed last base, program.Walk target.referent passed last ∧ program.Starts last base ∧
        chainLimit ≤ passed.length) := by
  refine ⟨fun address => targetAddress?_eq_some_iff, ?_, ?_⟩
  · intro refused
    cases resolved : program.base? target.referent with
    | none => exact .inl rfl
    | some place =>
        obtain ⟨passed, last, base, walk, starts, -⟩ := base?_eq_some_iff.mp resolved
        refine .inr ⟨passed, last, base, walk, starts, Nat.le_of_not_lt fun short => ?_⟩
        exact targetAddress?_ne_none walk starts short refused
  · rintro (unresolved | ⟨passed, last, base, walk, starts, long⟩)
    · simp [targetAddress?, unresolved]
    · rw [Option.eq_none_iff_forall_ne_some]
      intro address settled
      obtain ⟨others, place, other, ends, short, -⟩ := targetAddress?_eq_some_iff.mp settled
      obtain ⟨rfl, -⟩ := walk.unique starts other ends.own
      omega

end Target

/-- A row of externals, each of which stands for a symbol relative to the next one. The last symbol
is relative to a segment. -/
def relay (count : Nat) : Program :=
  { Program.empty with
    images := #[.fresh 0 "code" #[0xC3]]
    segments := [⟨0, "text", "CODE", 0, 0, 1⟩]
    externals := (List.range count).map fun id => ⟨id, Numeral.decimal id⟩
    publics := (List.range count).map fun id =>
      ⟨Numeral.decimal id, ⟨if id + 1 = count then .segment 0 else .external (id + 1), 0x9000⟩⟩ }

theorem relay_settled_target_agrees :
    (relay 2).targetAddress? ⟨.external 0, 0x9000⟩ = some ⟨.segment 0, 0xB000⟩ ∧
    (∀ id, Referent.segment 0 ≠ .external id) ∧
    ∃ passed near far, (relay 2).Walk (.external 0) passed (.segment 0) ∧
      (∀ others, (relay 2).Walk (.external 0) others (.segment 0) → others = passed) ∧
      (relay 2).resolve ⟨.segment 0, 0xB000⟩ = some near ∧
      (relay 2).resolve ⟨.external 0, 0x9000⟩ = some far ∧
      far.image = near.image ∧
      far.offset = near.offset + 65536 * ((0x9000 + distance passed) / 65536) ∧
      (0x9000 + distance passed ≤ 0xFFFF → far = near) := by
  have settled : (relay 2).targetAddress? ⟨.external 0, 0x9000⟩ = some ⟨.segment 0, 0xB000⟩ := by
    decide
  exact ⟨settled, settled_target_agrees _ _ _ settled⟩

/-- A walk that passes as many externals as the limit is refused. -/
theorem relay_at_limit_refused :
    (∃ passed last base, (relay 16).Walk (.external 0) passed last ∧ (relay 16).Starts last base ∧
      passed.length ≤ chainLimit) ∧
    (relay 16).base? (.external 0) = some ⟨0, 16 * 0x9000⟩ ∧
    (relay 16).targetAddress? ⟨.external 0, 5⟩ = none := by
  have resolved : (relay 16).base? (.external 0) = some ⟨0, 16 * 0x9000⟩ := by decide
  obtain ⟨passed, last, base, walk, starts, -, short⟩ := exists_walk_of_baseWithin? resolved
  exact ⟨⟨passed, last, base, walk, starts, short⟩, resolved, by decide⟩

end Program

end RealMode
