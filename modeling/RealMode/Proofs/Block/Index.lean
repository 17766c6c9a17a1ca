import Mathlib.Data.List.Pairwise
import RealMode.Block.Index
import RealMode.Proofs.Collection.Cut

/-! The index of blocks as a list of ranges that share no byte.

Blocks of an ordered index can be found by any of their bytes. Entering a block that meets no
other and cutting a block in two keep the order, and the bytes that blocks hold change by exactly
the bytes of the block that was entered. -/

set_option autoImplicit false

namespace RealMode

namespace Block

/-- `left` ends before `right` begins, or lies in an earlier image. -/
def Precedes (left right : Block) : Prop :=
  left.image < right.image ∨ left.image = right.image ∧ left.stop ≤ right.start

/-- `part` covers no byte outside `whole`. -/
def Within (part whole : Block) : Prop :=
  part.image = whole.image ∧ whole.start ≤ part.start ∧ part.stop ≤ whole.stop

theorem Precedes.within {left right part other : Block} (precedes : left.Precedes right)
    (inLeft : part.Within left) (inRight : other.Within right) : part.Precedes other := by
  obtain ⟨image, -, stop⟩ := inLeft
  obtain ⟨otherImage, start, -⟩ := inRight
  unfold Precedes at precedes ⊢
  omega

theorem Precedes.first_lt {left right : Block} (precedes : left.Precedes right)
    (filled : left.start < left.stop) : left.first < right.first := by
  unfold Precedes at precedes
  rw [Place.lt_iff]
  simp only [first]
  omega

theorem Precedes.not_contains {left right : Block} (precedes : left.Precedes right) {place : Place}
    (inLeft : left.contains place = true) : right.contains place = false := by
  rw [Bool.eq_false_iff, ne_eq, contains_iff]
  rw [contains_iff] at inLeft
  unfold Precedes at precedes
  omega

theorem contains_eq_false_of_empty {block : Block} (nothing : block.stop ≤ block.start)
    (place : Place) : block.contains place = false := by
  rw [Bool.eq_false_iff, ne_eq, contains_iff]
  omega

/-- Of two blocks that are not empty and share no byte, the one that starts first precedes. -/
theorem precedes_of_disjoint {left right : Block} (filled : right.start < right.stop)
    (disjoint : ∀ place, left.contains place = true → right.contains place = false)
    (order : ¬right.first < left.first) : left.Precedes right := by
  rw [Place.lt_iff] at order
  simp only [first] at order
  -- The first byte of the later block would be in both if the earlier one ended behind it.
  have apart := disjoint right.first
  rw [Bool.eq_false_iff, ne_eq, contains_iff, contains_iff] at apart
  simp only [first, true_and] at apart
  unfold Precedes
  omega

end Block

namespace BlockIndex

/-- The blocks are not empty, ascend and share no byte. -/
structure Ordered (index : BlockIndex) : Prop where
  filled : ∀ block ∈ index.blocks, block.start < block.stop
  ascending : index.blocks.Pairwise Block.Precedes

theorem Ordered.empty : BlockIndex.empty.Ordered := ⟨by simp [BlockIndex.empty], .nil⟩

variable {index : BlockIndex} {block other : Block} {place : Place}

theorem Ordered.comparable (ordered : index.Ordered) (member : block ∈ index.blocks)
    (found : other ∈ index.blocks) : block = other ∨ block.Precedes other ∨ other.Precedes block := by
  let Comparable : Block → Block → Prop := fun left right => left.Precedes right ∨ right.Precedes left
  have symmetric : Std.Symm Comparable := ⟨fun _ _ => Or.symm⟩
  have all : index.blocks.Pairwise Comparable := ordered.ascending.imp Or.inl
  rcases Decidable.em (block = other) with same | different
  · exact .inl same
  · exact .inr (all.forall member found different)

/-- A byte lies in one block at most. -/
theorem Ordered.eq_of_contains (ordered : index.Ordered) (member : block ∈ index.blocks)
    (found : other ∈ index.blocks) (inside : block.contains place = true)
    (also : other.contains place = true) : block = other := by
  rcases ordered.comparable member found with same | before | behind
  · exact same
  · simp [before.not_contains inside] at also
  · simp [behind.not_contains also] at inside

theorem Ordered.contains_first (ordered : index.Ordered) (member : block ∈ index.blocks) :
    block.contains block.first = true :=
  Block.contains_iff.mpr ⟨rfl, Nat.le_refl block.start, ordered.filled block member⟩

theorem append_notBefore (index : BlockIndex) (place : Place) :
    index.before place ++ index.notBefore place = index.blocks :=
  List.takeWhile_append_dropWhile

theorem mem_of_mem_before (member : block ∈ index.before place) :
    block ∈ index.blocks ∧ block.first < place := by
  refine ⟨(List.takeWhile_sublist _).subset member, ?_⟩
  simpa using List.mem_takeWhile_imp member

theorem Ordered.mem_of_mem_notBefore (ordered : index.Ordered)
    (member : block ∈ index.notBefore place) : block ∈ index.blocks ∧ ¬block.first < place := by
  refine ⟨(List.dropWhile_sublist _).subset member, ?_⟩
  have parts : Cut.Parts (·.first < place) index.blocks :=
    ordered.ascending.imp_of_mem fun found _ precedes earlier => by
      have below := precedes.first_lt (ordered.filled _ found)
      simp only [decide_eq_true_eq] at earlier ⊢
      rw [Place.lt_iff] at below earlier ⊢
      omega
  simpa using parts.not_of_mem_dropWhile member

theorem Ordered.mem_before (ordered : index.Ordered) (member : block ∈ index.blocks)
    (earlier : block.first < place) : block ∈ index.before place := by
  rw [← append_notBefore index place, List.mem_append] at member
  rcases member with found | found
  · exact found
  · exact absurd earlier (ordered.mem_of_mem_notBefore found).2

theorem mem_notBefore (member : block ∈ index.blocks)
    (later : ¬block.first < place) : block ∈ index.notBefore place := by
  rw [← append_notBefore index place, List.mem_append] at member
  rcases member with found | found
  · exact absurd (mem_of_mem_before found).2 later
  · exact found

/-- The last block before a place comes behind all others before it. -/
theorem Ordered.eq_or_precedes_last (ordered : index.Ordered)
    (found : (index.before place).getLast? = some other) (member : block ∈ index.before place) :
    block = other ∨ block.Precedes other := by
  have sorted : (index.before place).Pairwise Block.Precedes :=
    ordered.ascending.sublist (List.takeWhile_sublist _)
  exact Cut.eq_or_before_last sorted found member

/-- The first block that is not before a place comes before all others that are not. -/
theorem Ordered.eq_or_precedes_of_head (ordered : index.Ordered)
    (found : (index.notBefore place).head? = some other) (member : block ∈ index.notBefore place) :
    block = other ∨ other.Precedes block := by
  have sorted : (index.notBefore place).Pairwise Block.Precedes :=
    ordered.ascending.sublist (List.dropWhile_sublist _)
  exact Cut.eq_or_behind_first sorted found member

theorem Ordered.startingAt?_eq_some_iff (ordered : index.Ordered) :
    index.startingAt? place = some block ↔ block ∈ index.blocks ∧ block.first = place := by
  simp only [startingAt?, Option.filter_eq_some_iff, decide_eq_true_eq]
  constructor
  · rintro ⟨head, same⟩
    exact ⟨(ordered.mem_of_mem_notBefore (List.mem_of_mem_head? head)).1, same⟩
  · rintro ⟨member, rfl⟩
    refine ⟨?_, rfl⟩
    have found : block ∈ index.notBefore block.first :=
      mem_notBefore member (by rw [Place.lt_iff]; omega)
    obtain ⟨head, first⟩ := Option.isSome_iff_exists.mp
      (List.isSome_head?.mpr (List.ne_nil_of_mem found))
    rcases ordered.eq_or_precedes_of_head first found with rfl | precedes
    · exact first
    · -- A head other than the block would start before it.
      obtain ⟨headMember, notBefore⟩ := ordered.mem_of_mem_notBefore (List.mem_of_mem_head? first)
      exact absurd (precedes.first_lt (ordered.filled head headMember)) notBefore

/-- The last block that starts before a byte is the one that holds it, if any does. -/
theorem Ordered.getLast?_before (ordered : index.Ordered) (member : block ∈ index.blocks)
    (inside : block.contains place = true) (earlier : block.start < place.offset) :
    (index.before place).getLast? = some block := by
  obtain ⟨image, -, below⟩ := Block.contains_iff.mp inside
  have before : block ∈ index.before place :=
    ordered.mem_before member (by rw [Place.lt_iff]; simp only [Block.first]; omega)
  obtain ⟨last, found⟩ : ∃ last, (index.before place).getLast? = some last := by
    rw [← Option.isSome_iff_exists, List.getLast?_isSome]
    exact List.ne_nil_of_mem before
  rcases ordered.eq_or_precedes_last found before with rfl | precedes
  · exact found
  · -- A later block before the place would start behind the end of this one.
    have start := (mem_of_mem_before (List.mem_of_getLast? found)).2
    rw [Place.lt_iff] at start
    simp only [Block.first] at start
    unfold Block.Precedes at precedes
    omega

theorem Ordered.find?_eq_some_iff (ordered : index.Ordered) :
    index.find? place = some block ↔ block ∈ index.blocks ∧ block.contains place = true := by
  simp only [find?, Option.filter_eq_some_iff]
  constructor
  · rintro ⟨found, inside⟩
    refine ⟨?_, inside⟩
    rcases Option.or_eq_some_iff.mp found with starts | ⟨-, last⟩
    · exact (ordered.startingAt?_eq_some_iff.mp starts).1
    · exact (mem_of_mem_before (List.mem_of_getLast? last)).1
  · rintro ⟨member, inside⟩
    refine ⟨?_, inside⟩
    obtain ⟨image, above, below⟩ := Block.contains_iff.mp inside
    rcases Nat.eq_or_lt_of_le above with starts | earlier
    · have same : block.first = place := by
        cases place
        simp_all [Block.first]
      rw [ordered.startingAt?_eq_some_iff.mpr ⟨member, same⟩, Option.some_or]
    · have noStart : index.startingAt? place = none := by
        rw [Option.eq_none_iff_forall_ne_some]
        intro starting found
        obtain ⟨also, rfl⟩ := ordered.startingAt?_eq_some_iff.mp found
        obtain rfl := ordered.eq_of_contains member also inside (ordered.contains_first also)
        exact Nat.lt_irrefl _ earlier
      rw [noStart, Option.none_or, ordered.getLast?_before member inside earlier]

/-- `grown` has one block more than `index`. -/
structure Grown (index : BlockIndex) (block : Block) (grown : BlockIndex) : Prop where
  ordered : grown.Ordered
  mem_iff : ∀ other, other ∈ grown.blocks ↔ other = block ∨ other ∈ index.blocks

section Entering

variable (ordered : index.Ordered) (filled : block.start < block.stop)
  (disjoint : ∀ other ∈ index.blocks, ∀ place,
    other.contains place = true → block.contains place = false)

include filled disjoint in
theorem precedes_of_mem_before (member : other ∈ index.before block.first) :
    other.Precedes block := by
  obtain ⟨found, below⟩ := mem_of_mem_before member
  refine Block.precedes_of_disjoint filled (disjoint other found) ?_
  rw [Place.lt_iff] at below ⊢
  omega

include ordered disjoint

theorem Ordered.precedes_of_mem_notBefore (member : other ∈ index.notBefore block.first) :
    block.Precedes other := by
  obtain ⟨found, notBelow⟩ := ordered.mem_of_mem_notBefore member
  refine Block.precedes_of_disjoint (ordered.filled other found) (fun place inside => ?_) notBelow
  rw [Bool.eq_false_iff]
  intro also
  simp [disjoint other found place also] at inside

include filled

theorem Ordered.clash?_eq_none : index.clash? block = none := by
  -- Only the neighbours are looked at, and neither meets the block.
  simp only [clash?, Option.or_eq_none_iff, Option.filter_eq_none_iff, decide_eq_true_eq]
  constructor
  · intro earlier last
    have precedes := precedes_of_mem_before filled disjoint (List.mem_of_getLast? last)
    unfold Block.Precedes at precedes
    omega
  · intro later head
    have precedes := ordered.precedes_of_mem_notBefore disjoint (List.mem_of_mem_head? head)
    unfold Block.Precedes at precedes
    omega

/-- A block that is not empty and shares no byte with another can be entered. -/
theorem Ordered.add_eq_ok : ∃ grown, index.add block = .ok grown ∧ index.Grown block grown := by
  refine ⟨⟨index.before block.first ++ block :: index.notBefore block.first⟩, ?_, ⟨⟨?_, ?_⟩, ?_⟩⟩
  · have notEmpty : block.isEmpty = false := by simpa [Block.isEmpty] using filled
    simp [add, notEmpty, ordered.clash?_eq_none filled disjoint]
  · intro other member
    rcases List.mem_append.mp member with member | member
    · exact ordered.filled other (mem_of_mem_before member).1
    · rcases List.mem_cons.mp member with rfl | member
      · exact filled
      · exact ordered.filled other (ordered.mem_of_mem_notBefore member).1
  · exact Cut.pairwise_insert ordered.ascending (append_notBefore index block.first)
      (fun _ => precedes_of_mem_before filled disjoint)
      fun _ => ordered.precedes_of_mem_notBefore disjoint
  · intro other
    rw [← append_notBefore index block.first, List.mem_append, List.mem_append, List.mem_cons]
    exact or_left_comm

end Entering

theorem Grown.exists_first_iff {grown : BlockIndex} (result : index.Grown block grown) :
    (∃ other ∈ grown.blocks, other.first = place) ↔
      place = block.first ∨ ∃ other ∈ index.blocks, other.first = place := by
  simp only [result.mem_iff, or_and_right, exists_or, exists_eq_left]
  exact or_congr_left eq_comm

section Splitting

variable {cutoff : Nat}

/-- What becomes of a block of the index when `block` is cut. -/
def parts (block : Block) (cutoff : Nat) (whole : Block) : List Block :=
  if whole = block then [head block cutoff, tail block cutoff] else [whole]

theorem mem_parts {whole part : Block} :
    part ∈ parts block cutoff whole ↔
      whole = block ∧ (part = head block cutoff ∨ part = tail block cutoff) ∨
        whole ≠ block ∧ part = whole := by
  unfold parts
  split
  · rename_i same
    simp [same]
  · rename_i different
    simp [different]

theorem within_of_mem_parts {whole part : Block} (above : block.start < cutoff)
    (below : cutoff < block.stop) (member : part ∈ parts block cutoff whole) :
    part.Within whole := by
  rcases mem_parts.mp member with ⟨rfl, rfl | rfl⟩ | ⟨-, rfl⟩
  · exact ⟨rfl, Nat.le_refl whole.start, Nat.le_of_lt below⟩
  · exact ⟨rfl, Nat.le_of_lt above, Nat.le_refl whole.stop⟩
  · exact ⟨rfl, Nat.le_refl part.start, Nat.le_refl part.stop⟩

theorem Ordered.flatMap_parts (ordered : index.Ordered) (above : block.start < cutoff)
    (below : cutoff < block.stop) :
    (BlockIndex.mk (index.blocks.flatMap (parts block cutoff))).Ordered := by
  constructor
  · intro part found
    obtain ⟨whole, member, found⟩ := List.mem_flatMap.mp found
    rcases mem_parts.mp found with ⟨rfl, rfl | rfl⟩ | ⟨-, rfl⟩
    · exact above
    · exact below
    · exact ordered.filled part member
  -- Parts lie within their blocks, so the order of the blocks carries over to them, and only the
  -- two parts of the block that is cut need to be compared.
  · rw [List.pairwise_flatMap]
    constructor
    · intro whole _
      unfold parts
      split
      · simp [Block.Precedes, head, tail]
      · exact List.pairwise_singleton _ _
    · refine ordered.ascending.imp fun precedes part found other otherFound => ?_
      exact precedes.within (within_of_mem_parts above below found)
        (within_of_mem_parts above below otherFound)

theorem contains_parts (above : block.start < cutoff) (below : cutoff < block.stop)
    (place : Place) : block.contains place = true ↔
      (head block cutoff).contains place = true ∨ (tail block cutoff).contains place = true := by
  simp only [Block.contains_iff, head, tail]
  omega

/-- `cut` has the two parts of a block of `index` in its place. -/
structure Cut (index : BlockIndex) (block : Block) (cutoff : Nat) (cut : BlockIndex) : Prop where
  member : block ∈ index.blocks
  above : block.start < cutoff
  below : cutoff < block.stop
  ordered : cut.Ordered
  mem_iff : ∀ other, other ∈ cut.blocks ↔
    other = head block cutoff ∨ other = tail block cutoff ∨ other ∈ index.blocks ∧ other ≠ block

/-- Cutting moves no byte into a block or out of all blocks. -/
theorem Cut.exists_contains_iff {cut : BlockIndex} (result : index.Cut block cutoff cut) :
    (∃ other ∈ cut.blocks, other.contains place = true) ↔
      ∃ other ∈ index.blocks, other.contains place = true := by
  have parts := contains_parts result.above result.below place
  constructor
  · rintro ⟨other, found, inside⟩
    rcases (result.mem_iff other).mp found with rfl | rfl | ⟨earlier, -⟩
    · exact ⟨block, result.member, parts.mpr (.inl inside)⟩
    · exact ⟨block, result.member, parts.mpr (.inr inside)⟩
    · exact ⟨other, earlier, inside⟩
  · rintro ⟨other, found, inside⟩
    by_cases same : other = block
    · subst same
      rcases parts.mp inside with inHead | inTail
      · exact ⟨head other cutoff, (result.mem_iff _).mpr (.inl rfl), inHead⟩
      · exact ⟨tail other cutoff, (result.mem_iff _).mpr (.inr (.inl rfl)), inTail⟩
    · exact ⟨other, (result.mem_iff other).mpr (.inr (.inr ⟨found, same⟩)), inside⟩

/-- Cutting lets one more block start, at the cut. -/
theorem Cut.exists_first_iff {cut : BlockIndex} (result : index.Cut block cutoff cut) :
    (∃ other ∈ cut.blocks, other.first = place) ↔
      place = ⟨block.image, cutoff⟩ ∨ ∃ other ∈ index.blocks, other.first = place := by
  constructor
  · rintro ⟨other, found, rfl⟩
    rcases (result.mem_iff other).mp found with rfl | rfl | ⟨earlier, -⟩
    · exact .inr ⟨block, result.member, rfl⟩
    · exact .inl rfl
    · exact .inr ⟨other, earlier, rfl⟩
  · rintro (rfl | ⟨other, found, rfl⟩)
    · exact ⟨tail block cutoff, (result.mem_iff _).mpr (.inr (.inl rfl)), rfl⟩
    · by_cases same : other = block
      · exact ⟨head block cutoff, (result.mem_iff _).mpr (.inl rfl), same ▸ rfl⟩
      · exact ⟨other, (result.mem_iff other).mpr (.inr (.inr ⟨found, same⟩)), rfl⟩

theorem Cut.mem_iff_exists_part {cut : BlockIndex} (result : index.Cut block cutoff cut)
    {part : Block} : part ∈ cut.blocks ↔ ∃ whole ∈ index.blocks, part ∈ parts block cutoff whole := by
  simp only [result.mem_iff, mem_parts]
  constructor
  · rintro (rfl | rfl | ⟨earlier, different⟩)
    · exact ⟨block, result.member, .inl ⟨rfl, .inl rfl⟩⟩
    · exact ⟨block, result.member, .inl ⟨rfl, .inr rfl⟩⟩
    · exact ⟨part, earlier, .inr ⟨different, rfl⟩⟩
  · rintro ⟨whole, member, ⟨-, rfl | rfl⟩ | ⟨different, rfl⟩⟩
    · exact .inl rfl
    · exact .inr (.inl rfl)
    · exact .inr (.inr ⟨member, different⟩)

theorem Cut.exists_part_contains {cut : BlockIndex} {holder : Block}
    (result : index.Cut block cutoff cut) (inside : holder.contains place = true) :
    ∃ part ∈ parts block cutoff holder, part.contains place = true := by
  simp only [mem_parts]
  by_cases same : holder = block
  · subst same
    rcases (contains_parts result.above result.below place).mp inside with inHead | inTail
    · exact ⟨_, .inl ⟨rfl, .inl rfl⟩, inHead⟩
    · exact ⟨_, .inl ⟨rfl, .inr rfl⟩, inTail⟩
  · exact ⟨holder, .inr ⟨same, rfl⟩, inside⟩

/-- The last part of a block ends the way the block does. -/
theorem exists_part_behind (block : Block) (cutoff : Nat) (whole : Block) :
    ∃ part ∈ parts block cutoff whole, part.exit = whole.exit ∧ part.behind = whole.behind := by
  simp only [mem_parts]
  by_cases same : whole = block
  · subst same
    exact ⟨tail whole cutoff, .inl ⟨rfl, .inr rfl⟩, rfl, rfl⟩
  · exact ⟨whole, .inr ⟨same, rfl⟩, rfl, rfl⟩

/-- A block of the index can be cut at a lead byte inside it. -/
theorem Ordered.split_eq_ok (ordered : index.Ordered) (member : block ∈ index.blocks)
    {image : Image} (numbered : image.id = block.image) (above : block.start < cutoff)
    (below : cutoff < block.stop) (lead : (image.marksAt cutoff).isLead = true) :
    ∃ cut, index.split block cutoff image = .ok cut ∧ index.Cut block cutoff cut := by
  have allowed : index.canSplit block cutoff image = true := by
    simp [canSplit, numbered, above, below, lead, member]
  refine ⟨⟨index.blocks.flatMap (parts block cutoff)⟩, ?_, member, above, below,
    ordered.flatMap_parts above below, fun other => ?_⟩
  · rw [split, if_pos allowed]
    rfl
  · rw [List.mem_flatMap]
    constructor
    · rintro ⟨whole, found, part⟩
      rcases mem_parts.mp part with ⟨-, rfl | rfl⟩ | ⟨different, rfl⟩
      · exact .inl rfl
      · exact .inr (.inl rfl)
      · exact .inr (.inr ⟨found, different⟩)
    · rintro (rfl | rfl | ⟨found, different⟩)
      · exact ⟨block, member, mem_parts.mpr (.inl ⟨rfl, .inl rfl⟩)⟩
      · exact ⟨block, member, mem_parts.mpr (.inl ⟨rfl, .inr rfl⟩)⟩
      · exact ⟨other, found, mem_parts.mpr (.inr ⟨different, rfl⟩)⟩

end Splitting

end BlockIndex

end RealMode
