import Mathlib.Data.List.Nodup
import RealMode.Proofs.Block.Editing

/-! What becomes of a single edit, for any index that edits have built.

A block is refused because of a neighbour, and it is cut where it stands in the list. What that means for all
other blocks and for all places rests on the order of the index. -/

set_option autoImplicit false

namespace RealMode

namespace BlockIndex

variable {index grown cut kept : BlockIndex} {block existing : Block} {cutoff : Nat} {image : Image}
  {fault : Fault}

section Entering

theorem add_eq_ok_iff :
    index.add block = .ok grown ↔ block.start < block.stop ∧ index.clash? block = none ∧
      grown = ⟨index.before block.first ++ block :: index.notBefore block.first⟩ := by
  unfold add Block.isEmpty
  by_cases filled : block.start < block.stop
  · cases index.clash? block <;> simp [filled, Nat.not_le.mpr filled, eq_comm]
  · simp [filled, Nat.not_lt.mp filled]

theorem cause_of_add (refused : index.add block = .error fault kept) :
    block.stop ≤ block.start ∧ fault = .invalidRange block.start block.stop 0 ∨
      block.start < block.stop ∧ ∃ existing, index.clash? block = some existing ∧
        fault = if existing = block then .blockExists block else .blockOverlap block existing := by
  unfold add Block.isEmpty at refused
  by_cases filled : block.start < block.stop
  · cases found : index.clash? block <;> simp_all [Nat.not_le.mpr filled]
  · simp_all [Nat.not_lt.mp filled]

namespace Ordered

variable (ordered : index.Ordered)

include ordered

theorem clash?_eq_some (filled : block.start < block.stop) (found : index.clash? block = some existing) :
    existing ∈ index.blocks ∧ existing.Meets block := by
  rw [← append_notBefore index block.first, List.mem_append]
  unfold Block.Meets
  simp only [clash?, Option.or_eq_some_iff, Option.filter_eq_some_iff, decide_eq_true_eq] at found
  rcases found with ⟨last, image, meets⟩ | ⟨-, next, image, meets⟩
  · have member := List.mem_of_getLast? last
    obtain ⟨listed, earlier⟩ := mem_of_mem_before member
    have ends := ordered.filled existing listed
    rw [Place.lt_iff] at earlier
    simp only [Block.first] at earlier
    exact ⟨.inl member, image, by omega⟩
  · have member := List.mem_of_mem_head? next
    obtain ⟨listed, notEarlier⟩ := ordered.mem_of_mem_notBefore member
    have ends := ordered.filled existing listed
    rw [Place.lt_iff] at notEarlier
    simp only [Block.first] at notEarlier
    exact ⟨.inr member, image, by omega⟩

/-- The block that a new one meets is the new one itself only if that is there already. -/
theorem eq_of_clash? (found : index.clash? block = some existing) (member : block ∈ index.blocks) :
    existing = block := by
  obtain ⟨listed, meets⟩ := ordered.clash?_eq_some (ordered.filled block member) found
  obtain ⟨place, inExisting, inBlock⟩ := Block.meets_iff.mp meets
  exact ordered.eq_of_contains listed member inExisting inBlock

/-- A block that is entered comes between those before it and those behind it. -/
theorem grown_of_add (added : index.add block = .ok grown) :
    index.Grown block grown ∧
      ∃ front back, index.blocks = front ++ back ∧ grown.blocks = front ++ block :: back := by
  obtain ⟨filled, clear, same⟩ := add_eq_ok_iff.mp added
  have apart := (ordered.clash?_eq_none_iff filled).mp clear
  obtain ⟨larger, again, result⟩ := ordered.add_eq_ok filled fun other member _ =>
    Block.contains_of_not_meets (apart other member)
  obtain rfl := Attempt.ok.inj (again.symm.trans added)
  exact ⟨result, _, _, (append_notBefore index block.first).symm, congrArg blocks same⟩

end Ordered

namespace Grown

variable (result : index.Grown block grown) (ordered : index.Ordered)

include result ordered

theorem find?_eq (place : Place) :
    grown.find? place = if block.contains place = true then some block else index.find? place := by
  split
  · rename_i inside
    exact result.ordered.find?_eq_some_iff.mpr ⟨(result.mem_iff block).mpr (.inl rfl), inside⟩
  · rename_i outside
    ext other
    rw [result.ordered.find?_eq_some_iff, ordered.find?_eq_some_iff, result.mem_iff, or_and_right,
      or_iff_right]
    rintro ⟨rfl, inside⟩
    exact outside inside

theorem startingAt?_eq (place : Place) :
    grown.startingAt? place = if block.first = place then some block else index.startingAt? place := by
  split
  · rename_i starts
    exact result.ordered.startingAt?_eq_some_iff.mpr ⟨(result.mem_iff block).mpr (.inl rfl), starts⟩
  · rename_i elsewhere
    ext other
    rw [result.ordered.startingAt?_eq_some_iff, ordered.startingAt?_eq_some_iff, result.mem_iff,
      or_and_right, or_iff_right]
    rintro ⟨rfl, starts⟩
    exact elsewhere starts

end Grown

/-- After any edits, a block is entered if and only if it is not empty and shares no byte with another. The
index then has it at its place in the list and nothing else has changed. A block that is refused leaves the
index as it is: the fault tells an empty block from one that is there already, and any other block from one
that is there and shares a byte with it. -/
theorem blocks_enter_apart (edits : List Edit) (block : Block) :
    let index := after edits
    let next := after (edits ++ [.add block])
    ((∃ grown, index.add block = .ok grown) ↔
      block.start < block.stop ∧ ∀ other ∈ index.blocks, ¬other.Meets block) ∧
    (∀ grown, index.add block = .ok grown → next = grown ∧
      (∃ front back, index.blocks = front ++ back ∧ grown.blocks = front ++ block :: back) ∧
      grown.size = index.size + 1 ∧
      (∀ place, grown.find? place =
        if block.contains place = true then some block else index.find? place) ∧
      ∀ place, grown.startingAt? place =
        if block.first = place then some block else index.startingAt? place) ∧
    ∀ fault kept, index.add block = .error fault kept → kept = index ∧ next = index ∧
      (fault = .invalidRange block.start block.stop 0 ↔ block.stop ≤ block.start) ∧
      (fault = .blockExists block ↔ block ∈ index.blocks) ∧
      (block.start < block.stop → block ∉ index.blocks →
        ∃ existing ∈ index.blocks, existing.Meets block ∧ fault = .blockOverlap block existing) := by
  intro index next
  have ordered : index.Ordered := (after_holds edits).1
  have onward : next = index.edited (.add block) := after_concat edits (.add block)
  refine ⟨?_, ?_, ?_⟩
  · simp only [add_eq_ok_iff, exists_and_left, exists_eq, and_true]
    exact and_congr_right ordered.clash?_eq_none_iff
  · intro grown added
    obtain ⟨result, front, back, parted, joined⟩ := ordered.grown_of_add added
    refine ⟨onward.trans (Attempt.state_of_ok added), ⟨front, back, parted, joined⟩, ?_,
      result.find?_eq ordered, result.startingAt?_eq ordered⟩
    simp only [size, parted, joined, List.length_append, List.length_cons]
    omega
  · intro fault kept refused
    have keeps := index.add_keeps block
    refine ⟨keeps.eq fault kept refused, onward.trans (keeps.state_of_error refused), ?_⟩
    rcases cause_of_add refused with ⟨nothing, rfl⟩ | ⟨filled, existing, found, rfl⟩
    · have absent : block ∉ index.blocks := fun member =>
        Nat.not_lt.mpr nothing (ordered.filled block member)
      simp [nothing, absent, Nat.not_lt.mpr nothing]
    · obtain ⟨listed, meets⟩ := ordered.clash?_eq_some filled found
      have same : existing = block ↔ block ∈ index.blocks :=
        ⟨fun same => same ▸ listed, ordered.eq_of_clash? found⟩
      by_cases member : block ∈ index.blocks
      · simp [same.mpr member, member, Nat.not_le.mpr filled]
      · simp only [mt same.mp member, member, if_false, Nat.not_le.mpr filled]
        exact ⟨by simp, by simp, fun _ _ => ⟨existing, listed, meets, rfl⟩⟩

/-- A range that swallows others, one that touches them at both ends, and two that start where one is. -/
theorem crowded_blocks_enter_apart :
    let first : Block := ⟨0, 2, 4, .fallThrough⟩
    let second : Block := ⟨0, 6, 9, .terminated⟩
    let edits : List Edit := [.add second, .add first]
    let index := after edits
    (∃ grown, index.add ⟨0, 4, 6, .conditional⟩ = .ok grown ∧
      grown.blocks = [first, ⟨0, 4, 6, .conditional⟩, second] ∧
      grown.find? ⟨0, 5⟩ = some ⟨0, 4, 6, .conditional⟩ ∧ grown.find? ⟨0, 6⟩ = index.find? ⟨0, 6⟩) ∧
      index.add ⟨0, 0, 12, .incomplete⟩ = .error (.blockOverlap ⟨0, 0, 12, .incomplete⟩ first) index ∧
      (∃ existing ∈ index.blocks, existing.Meets ⟨0, 0, 12, .incomplete⟩) ∧
      index.add second = .error (.blockExists second) index ∧
      index.add ⟨0, 6, 9, .incomplete⟩ = .error (.blockOverlap ⟨0, 6, 9, .incomplete⟩ second) index ∧
      index.add ⟨0, 7, 7, .incomplete⟩ = .error (.invalidRange 7 7 0) index ∧
      after (edits ++ [.add second]) = index := by
  intro first second edits index
  obtain ⟨-, entered, -⟩ := blocks_enter_apart edits ⟨0, 4, 6, .conditional⟩
  obtain ⟨-, -, swallowing⟩ := blocks_enter_apart edits ⟨0, 0, 12, .incomplete⟩
  obtain ⟨-, -, repeated⟩ := blocks_enter_apart edits second
  have added : index.add ⟨0, 4, 6, .conditional⟩ = .ok ⟨[first, ⟨0, 4, 6, .conditional⟩, second]⟩ := by
    decide
  have refused : index.add ⟨0, 0, 12, .incomplete⟩ =
      .error (.blockOverlap ⟨0, 0, 12, .incomplete⟩ first) index := by decide
  have present : index.add second = .error (.blockExists second) index := by decide
  obtain ⟨-, -, -, found, -⟩ := entered _ added
  obtain ⟨existing, member, meets, -⟩ := (swallowing _ _ refused).2.2.2.2 (by decide) (by decide)
  exact ⟨⟨_, added, rfl, found ⟨0, 5⟩, found ⟨0, 6⟩⟩, refused, ⟨existing, member, meets⟩, present,
    by decide, by decide, (repeated _ _ present).2.1⟩

end Entering

section Cutting

theorem split_eq_ok_iff :
    index.split block cutoff image = .ok cut ↔ index.canSplit block cutoff image = true ∧
      cut = ⟨index.blocks.flatMap (parts block cutoff)⟩ := by
  unfold split
  split
  · rename_i allowed
    simp only [allowed, Attempt.ok.injEq, true_and, eq_comm (b := cut)]
    rfl
  · rename_i forbidden
    simp [forbidden]

theorem cause_of_split (refused : index.split block cutoff image = .error fault kept) :
    fault = .invalidSplit block cutoff := by
  unfold split at refused
  split at refused
  · cases refused
  · exact (Attempt.error.inj refused).1.symm

theorem canSplit_iff :
    index.canSplit block cutoff image = true ↔ image.id = block.image ∧ block ∈ index.blocks ∧
      block.start < cutoff ∧ cutoff < block.stop ∧ (image.marksAt cutoff).isLead = true := by
  simp only [canSplit, Bool.and_eq_true, decide_eq_true_eq, List.contains_iff_mem]
  tauto

/-- Blocks other than the one that is cut stay where they are. -/
theorem flatMap_parts_of_not_mem {blocks : List Block} (absent : block ∉ blocks) :
    blocks.flatMap (parts block cutoff) = blocks := by
  induction blocks with
  | nil => rfl
  | cons other rest ih =>
      rw [List.mem_cons, not_or] at absent
      rw [List.flatMap_cons, ih absent.2, parts, if_neg (Ne.symm absent.1), List.singleton_append]

theorem Ordered.cut_of_split (ordered : index.Ordered)
    (done : index.split block cutoff image = .ok cut) :
    index.Cut block cutoff cut ∧ ∃ front back, index.blocks = front ++ block :: back ∧
      cut.blocks = front ++ head block cutoff :: tail block cutoff :: back := by
  obtain ⟨allowed, same⟩ := split_eq_ok_iff.mp done
  obtain ⟨numbered, member, above, below, lead⟩ := canSplit_iff.mp allowed
  obtain ⟨divided, again, result⟩ := ordered.split_eq_ok member numbered above below lead
  obtain rfl := Attempt.ok.inj (again.symm.trans done)
  obtain ⟨front, back, parted⟩ := List.append_of_mem member
  have once := ordered.nodup
  rw [parted, List.nodup_middle, List.nodup_cons, List.mem_append, not_or] at once
  obtain ⟨⟨notInFront, notInBack⟩, -⟩ := once
  refine ⟨result, front, back, parted, ?_⟩
  rw [same, parted, List.flatMap_append, List.flatMap_cons, flatMap_parts_of_not_mem notInFront,
    flatMap_parts_of_not_mem notInBack, parts, if_pos rfl]
  rfl

namespace Cut

variable (result : index.Cut block cutoff cut) (ordered : index.Ordered)

include result ordered

theorem find?_eq (place : Place) :
    cut.find? place =
      if block.contains place = true then
        if place.offset < cutoff then some (head block cutoff) else some (tail block cutoff)
      else index.find? place := by
  split
  · rename_i inside
    rw [Block.contains_iff] at inside
    split <;> rw [result.ordered.find?_eq_some_iff, result.mem_iff, Block.contains_iff]
    · exact ⟨.inl rfl, by simp only [head]; omega⟩
    · exact ⟨.inr (.inl rfl), by simp only [tail]; omega⟩
  · rename_i outside
    ext other
    rw [result.ordered.find?_eq_some_iff, ordered.find?_eq_some_iff, result.mem_iff]
    have parts := contains_parts result.above result.below place
    constructor
    · rintro ⟨rfl | rfl | ⟨member, -⟩, inside⟩
      · exact absurd (parts.mpr (.inl inside)) outside
      · exact absurd (parts.mpr (.inr inside)) outside
      · exact ⟨member, inside⟩
    · rintro ⟨member, inside⟩
      exact ⟨.inr (.inr ⟨member, fun same => outside (same ▸ inside)⟩), inside⟩

theorem startingAt?_eq (place : Place) :
    cut.startingAt? place =
      if place = block.first then some (head block cutoff)
      else if place = ⟨block.image, cutoff⟩ then some (tail block cutoff)
      else index.startingAt? place := by
  split
  · rename_i starts
    exact result.ordered.startingAt?_eq_some_iff.mpr ⟨(result.mem_iff _).mpr (.inl rfl), starts.symm⟩
  · rename_i notFirst
    split
    · rename_i starts
      exact result.ordered.startingAt?_eq_some_iff.mpr
        ⟨(result.mem_iff _).mpr (.inr (.inl rfl)), starts.symm⟩
    · rename_i notCutoff
      ext other
      rw [result.ordered.startingAt?_eq_some_iff, ordered.startingAt?_eq_some_iff, result.mem_iff]
      constructor
      · rintro ⟨rfl | rfl | ⟨member, -⟩, rfl⟩
        · exact absurd rfl notFirst
        · exact absurd rfl notCutoff
        · exact ⟨member, rfl⟩
      · rintro ⟨member, rfl⟩
        exact ⟨.inr (.inr ⟨member, fun same => notFirst (congrArg Block.first same)⟩), rfl⟩

end Cut

/-- After any edits, a block is cut if and only if the image is its own, it is there, and a lead byte of the
image lies strictly inside it at the cut. Its bytes are then found in the two parts, of which the first falls
through and the second ends as the block did; the parts stand in the list where the block was, and nothing
else has changed. If it is not cut, the index stays as it is. -/
theorem split_parts_one_block (edits : List Edit) (block : Block) (cutoff : Nat) (image : Image) :
    let index := after edits
    let next := after (edits ++ [.split block cutoff image])
    let front : Block := ⟨block.image, block.start, cutoff, .fallThrough⟩
    let back : Block := ⟨block.image, cutoff, block.stop, block.exit⟩
    ((∃ cut, index.split block cutoff image = .ok cut) ↔
      image.id = block.image ∧ block ∈ index.blocks ∧ block.start < cutoff ∧ cutoff < block.stop ∧
        (image.marksAt cutoff).isLead = true) ∧
    (∀ cut, index.split block cutoff image = .ok cut → next = cut ∧
      (∀ place, block.contains place = false → cut.find? place = index.find? place) ∧
      (∀ place, block.contains place = true → place.offset < cutoff → cut.find? place = some front) ∧
      (∀ place, block.contains place = true → cutoff ≤ place.offset → cut.find? place = some back) ∧
      (∀ place, cut.startingAt? place =
        if place = block.first then some front
        else if place = ⟨block.image, cutoff⟩ then some back
        else index.startingAt? place) ∧
      (∃ before behind, index.blocks = before ++ block :: behind ∧
        cut.blocks = before ++ front :: back :: behind) ∧
      cut.size = index.size + 1) ∧
    ∀ fault kept, index.split block cutoff image = .error fault kept →
      fault = .invalidSplit block cutoff ∧ kept = index ∧ next = index ∧
      (∀ place, next.find? place = index.find? place) ∧
      (∀ place, next.startingAt? place = index.startingAt? place) ∧
      next.blocks = index.blocks ∧ next.size = index.size := by
  intro index next front back
  have ordered : index.Ordered := (after_holds edits).1
  have onward : next = index.edited (.split block cutoff image) :=
    after_concat edits (.split block cutoff image)
  refine ⟨?_, ?_, ?_⟩
  · simp only [split_eq_ok_iff, exists_and_left, exists_eq, and_true, canSplit_iff]
  · intro cut done
    obtain ⟨result, before, behind, parted, joined⟩ := ordered.cut_of_split done
    have found := result.find?_eq ordered
    refine ⟨onward.trans (Attempt.state_of_ok done), fun place outside => ?_, fun place inside below => ?_,
      fun place inside notBelow => ?_, result.startingAt?_eq ordered, ⟨before, behind, parted, joined⟩, ?_⟩
    · rw [found, if_neg (Bool.eq_false_iff.mp outside)]
    · rw [found, if_pos inside, if_pos below]
      rfl
    · rw [found, if_pos inside, if_neg (Nat.not_lt.mpr notBelow)]
      rfl
    · simp only [size, parted, joined, List.length_append, List.length_cons]
      omega
  · intro fault kept failed
    have keeps := index.split_keeps block cutoff image
    have same : next = index := onward.trans (keeps.state_of_error failed)
    rw [same]
    exact ⟨cause_of_split failed, keeps.eq fault kept failed, rfl, fun _ => rfl, fun _ => rfl, rfl, rfl⟩

/-- A block that was cut before can be cut no more, but its second part can, next to a block of the same
bytes in another image. -/
theorem twice_split_parts_one_block :
    let image := ((Image.fresh 0 "code" (Array.replicate 8 0x90)).painted .code 2 2).painted .code 4 3
    let whole : Block := ⟨0, 1, 7, .conditional⟩
    let part : Block := ⟨0, 2, 7, .conditional⟩
    let edits : List Edit := [.add ⟨1, 1, 7, .terminated⟩, .add whole, .split whole 2 image]
    let index := after edits
    (∃ cut, index.split part 4 image = .ok cut ∧ cut.find? ⟨0, 3⟩ = some ⟨0, 2, 4, .fallThrough⟩ ∧
      cut.find? ⟨0, 4⟩ = some ⟨0, 4, 7, .conditional⟩ ∧ cut.find? ⟨0, 1⟩ = index.find? ⟨0, 1⟩ ∧
      cut.find? ⟨1, 3⟩ = index.find? ⟨1, 3⟩ ∧ cut.size = index.size + 1) ∧
      index.split whole 4 image = .error (.invalidSplit whole 4) index ∧
      after (edits ++ [.split whole 4 image]) = index ∧
      index.split part 5 image = .error (.invalidSplit part 5) index ∧
      index.split { part with image := 1 } 4 image =
        .error (.invalidSplit { part with image := 1 } 4) index := by
  intro image whole part edits index
  obtain ⟨can, done, -⟩ := split_parts_one_block edits part 4 image
  obtain ⟨-, -, failed⟩ := split_parts_one_block edits whole 4 image
  obtain ⟨cut, divided⟩ := can.mpr (by decide +kernel)
  obtain ⟨-, outside, low, high, -, -, size⟩ := done cut divided
  have stale : index.split whole 4 image = .error (.invalidSplit whole 4) index := by decide +kernel
  exact ⟨⟨cut, divided, low _ (by decide) (by decide), high _ (by decide) (by decide),
    outside _ (by decide), outside _ (by decide), size⟩, stale, (failed _ _ stale).2.2.1,
    by decide +kernel, by decide +kernel⟩

end Cutting

end BlockIndex

end RealMode
