import Mathlib.Data.List.Induction
import RealMode.Proofs.Block.Index

/-! Rows of edits to an index of blocks, against a plain list.

In the list a new block is compared with every other one, and a block is replaced wherever it stands.
The index looks at the neighbours of a block only, and it holds the same blocks in order. -/

set_option autoImplicit false

namespace RealMode

namespace Block

/-- There is a byte in both blocks. -/
def Meets (left right : Block) : Prop :=
  left.image = right.image ∧ max left.start right.start < min left.stop right.stop

instance (left right : Block) : Decidable (left.Meets right) := inferInstanceAs (Decidable (_ ∧ _))

variable {left middle right : Block}

theorem meets_iff :
    left.Meets right ↔ ∃ place, left.contains place = true ∧ right.contains place = true := by
  simp only [Meets, contains_iff]
  constructor
  · rintro ⟨image, below⟩
    refine ⟨⟨left.image, max left.start right.start⟩, ⟨rfl, ?_, ?_⟩, image, ?_, ?_⟩ <;>
      dsimp only <;> omega
  · rintro ⟨place, inLeft, inRight⟩
    omega

theorem contains_of_not_meets (apart : ¬left.Meets right) {place : Place}
    (inside : left.contains place = true) : right.contains place = false := by
  rw [Bool.eq_false_iff]
  intro also
  exact apart (meets_iff.mpr ⟨place, inside, also⟩)

theorem Meets.symm (meets : left.Meets right) : right.Meets left := by
  unfold Meets at *
  omega

theorem Precedes.not_meets (precedes : left.Precedes right) : ¬left.Meets right := by
  unfold Precedes at precedes
  unfold Meets
  omega

theorem Precedes.trans (first : left.Precedes middle) (second : middle.Precedes right)
    (filled : middle.start < middle.stop) : left.Precedes right := by
  unfold Precedes at *
  omega

end Block

namespace BlockIndex

variable {index : BlockIndex} {block : Block}

theorem Ordered.nodup (ordered : index.Ordered) : index.blocks.Nodup := by
  refine ordered.ascending.imp_of_mem fun member _ precedes same => ?_
  subst same
  have filled := ordered.filled _ member
  unfold Block.Precedes at precedes
  omega

/-- The neighbours of a block decide whether it meets any other. -/
theorem Ordered.clash?_eq_none_iff (ordered : index.Ordered) (filled : block.start < block.stop) :
    index.clash? block = none ↔ ∀ other ∈ index.blocks, ¬other.Meets block := by
  constructor
  · intro clear other member
    simp only [clash?, Option.or_eq_none_iff, Option.filter_eq_none_iff, decide_eq_true_eq] at clear
    obtain ⟨noEarlier, noLater⟩ := clear
    rw [← append_notBefore index block.first, List.mem_append] at member
    rcases member with earlier | later
    · obtain ⟨last, found⟩ := Option.isSome_iff_exists.mp
        (List.getLast?_isSome.mpr (List.ne_nil_of_mem earlier))
      obtain ⟨lastMember, below⟩ := mem_of_mem_before (List.mem_of_getLast? found)
      have lastPrecedes : last.Precedes block := by
        have apart := noEarlier last found
        rw [Place.lt_iff] at below
        simp only [Block.first] at below
        unfold Block.Precedes
        omega
      rcases ordered.eq_or_precedes_last found earlier with rfl | precedes
      · exact lastPrecedes.not_meets
      · exact (precedes.trans lastPrecedes (ordered.filled last lastMember)).not_meets
    · obtain ⟨head, found⟩ := Option.isSome_iff_exists.mp
        (List.isSome_head?.mpr (List.ne_nil_of_mem later))
      obtain ⟨headMember, notBelow⟩ := ordered.mem_of_mem_notBefore (List.mem_of_mem_head? found)
      have headFollows : block.Precedes head := by
        have apart := noLater head found
        rw [Place.lt_iff] at notBelow
        simp only [Block.first] at notBelow
        unfold Block.Precedes
        omega
      intro meets
      rcases ordered.eq_or_precedes_of_head found later with rfl | precedes
      · exact headFollows.not_meets meets.symm
      · exact (headFollows.trans precedes (ordered.filled head headMember)).not_meets meets.symm
  · intro apart
    apply ordered.clash?_eq_none filled
    intro other member place inside
    exact Block.contains_of_not_meets (apart other member) inside

inductive Edit where
  | add (block : Block)
  | split (block : Block) (cutoff : Nat) (image : Image)

/-- Whether an edit can be made to a list of blocks: a new block is not empty and meets no other, and
a block that is cut is there and has a lead byte at the cut. -/
def Edit.Allowed (blocks : List Block) : Edit → Prop
  | .add block => block.start < block.stop ∧ ∀ other ∈ blocks, ¬other.Meets block
  | .split block cutoff image =>
      image.id = block.image ∧ block.start < cutoff ∧ cutoff < block.stop ∧
        (image.marksAt cutoff).isLead = true ∧ block ∈ blocks

instance (blocks : List Block) : (edit : Edit) → Decidable (edit.Allowed blocks)
  | .add _ => inferInstanceAs (Decidable (_ ∧ _))
  | .split .. => inferInstanceAs (Decidable (_ ∧ _ ∧ _ ∧ _ ∧ _))

def Edit.apply (blocks : List Block) : Edit → List Block
  | .add block => block :: blocks
  | .split block cutoff _ => head block cutoff :: tail block cutoff :: blocks.erase block

/-- The blocks that an edit leaves, in no particular order. -/
def Edit.leave (blocks : List Block) (edit : Edit) : List Block :=
  if edit.Allowed blocks then edit.apply blocks else blocks

def blocksAfter (edits : List Edit) : List Block := edits.foldl Edit.leave []

def Edit.perform (index : BlockIndex) : Edit → Attempt BlockIndex
  | .add block => index.add block
  | .split block cutoff image => index.split block cutoff image

/-- The index that an edit leaves. -/
def edited (index : BlockIndex) (edit : Edit) : BlockIndex := (edit.perform index).state

def after (edits : List Edit) : BlockIndex := edits.foldl edited .empty

/-- How many of the edits succeed. -/
def successes (index : BlockIndex) : List Edit → Nat
  | [] => 0
  | edit :: rest => (edit.perform index).isOk.toNat + (index.edited edit).successes rest

theorem after_concat (edits : List Edit) (edit : Edit) :
    after (edits ++ [edit]) = (after edits).edited edit := by
  simp [after]

theorem add_keeps (index : BlockIndex) (block : Block) : (index.add block).Keeps index := by
  unfold add
  split
  · exact .error ..
  · split
    · exact .error ..
    · exact .ok ..

theorem split_keeps (index : BlockIndex) (block : Block) (cutoff : Nat) (image : Image) :
    (index.split block cutoff image).Keeps index := by
  unfold split
  split
  · exact .ok ..
  · exact .error ..

theorem blocksAfter_concat (edits : List Edit) (edit : Edit) :
    blocksAfter (edits ++ [edit]) = edit.leave (blocksAfter edits) := by
  simp [blocksAfter]

theorem Edit.allowed_iff_of_perm {left right : List Block} (perm : left.Perm right) (edit : Edit) :
    edit.Allowed left ↔ edit.Allowed right := by
  cases edit <;> simp only [Allowed, perm.mem_iff]

theorem Edit.leave_perm {left right : List Block} (perm : left.Perm right) (edit : Edit) :
    (edit.leave left).Perm (edit.leave right) := by
  unfold leave
  simp only [edit.allowed_iff_of_perm perm]
  split
  · cases edit with
    | add block => exact perm.cons block
    | split block cutoff image => exact ((perm.erase block).cons _).cons _
  · exact perm

/-- An edit adds one block to a list, if it is allowed. -/
theorem Edit.length_leave (blocks : List Block) (edit : Edit) :
    (edit.leave blocks).length = blocks.length + (decide (edit.Allowed blocks)).toNat := by
  unfold leave
  split
  · rename_i allowed
    cases edit with
    | add block => simp [Edit.apply, allowed]
    | split block cutoff image =>
        have member : block ∈ blocks := allowed.2.2.2.2
        have filled := List.length_pos_of_mem member
        simp only [Edit.apply, List.length_cons, List.length_erase_of_mem member, allowed, decide_true,
          Bool.toNat_true]
        omega
  · rename_i refused
    simp [refused]

section Step

variable {edit : Edit} (ordered : index.Ordered)

include ordered

/-- A part of a block is not itself a block of the index. -/
theorem Ordered.part_not_mem {part : Block} (member : block ∈ index.blocks)
    (within : part.Within block) (filled : part.start < part.stop) (proper : part ≠ block) :
    part ∉ index.blocks := by
  intro found
  obtain ⟨image, start, stop⟩ := within
  have inside : block.contains part.first = true := by
    rw [Block.contains_iff]
    simp only [Block.first]
    omega
  exact proper (ordered.eq_of_contains found member (ordered.contains_first found) inside)

theorem Ordered.perform_eq_ok (allowed : edit.Allowed index.blocks) :
    ∃ result, edit.perform index = .ok result ∧ result.Ordered ∧
      result.blocks.Perm (edit.leave index.blocks) := by
  rw [Edit.leave, if_pos allowed]
  cases edit with
  | add block =>
      obtain ⟨filled, apart⟩ := allowed
      have new : block ∉ index.blocks := by
        intro member
        apply apart block member
        unfold Block.Meets
        omega
      obtain ⟨grown, added, result⟩ := ordered.add_eq_ok filled fun other member _ =>
        Block.contains_of_not_meets (apart other member)
      refine ⟨grown, added, result.ordered, ?_⟩
      have once : (block :: index.blocks).Nodup := List.nodup_cons.mpr ⟨new, ordered.nodup⟩
      rw [Edit.apply, List.perm_ext_iff_of_nodup result.ordered.nodup once]
      intro other
      rw [result.mem_iff, List.mem_cons]
  | split block cutoff image =>
      obtain ⟨numbered, above, below, lead, member⟩ := allowed
      obtain ⟨cut, done, result⟩ := ordered.split_eq_ok member numbered above below lead
      refine ⟨cut, done, result.ordered, ?_⟩
      have headNew : head block cutoff ∉ index.blocks := by
        refine ordered.part_not_mem member ⟨rfl, Nat.le_refl _, Nat.le_of_lt below⟩ above fun same => ?_
        exact Nat.ne_of_lt below (congrArg Block.stop same)
      have tailNew : tail block cutoff ∉ index.blocks := by
        refine ordered.part_not_mem member ⟨rfl, Nat.le_of_lt above, Nat.le_refl _⟩ below fun same => ?_
        exact Nat.ne_of_gt above (congrArg Block.start same)
      have differ : head block cutoff ≠ tail block cutoff := fun same =>
        Nat.ne_of_lt above (congrArg Block.start same)
      have once : (head block cutoff :: tail block cutoff :: index.blocks.erase block).Nodup := by
        simp only [List.nodup_cons, List.mem_cons, not_or]
        exact ⟨⟨differ, fun found => headNew (List.mem_of_mem_erase found)⟩,
          fun found => tailNew (List.mem_of_mem_erase found), ordered.nodup.erase block⟩
      rw [Edit.apply, List.perm_ext_iff_of_nodup result.ordered.nodup once]
      intro other
      rw [result.mem_iff, List.mem_cons, List.mem_cons, ordered.nodup.mem_erase_iff, and_comm]

theorem Ordered.perform_eq_error (refused : ¬edit.Allowed index.blocks) :
    ∃ fault, edit.perform index = .error fault index := by
  cases edit with
  | add block =>
      rw [Edit.perform, add]
      split
      · exact ⟨_, rfl⟩
      · rename_i notEmpty
        have filled : block.start < block.stop := by simpa [Block.isEmpty] using notEmpty
        split
        · exact ⟨_, rfl⟩
        · rename_i clear
          exact absurd ⟨filled, (ordered.clash?_eq_none_iff filled).mp clear⟩ refused
  | split block cutoff image =>
      have forbidden : index.canSplit block cutoff image = false := by
        rw [Bool.eq_false_iff]
        intro allowed
        apply refused
        simpa [canSplit, Edit.Allowed, and_assoc] using allowed
      rw [Edit.perform, split, forbidden]
      exact ⟨_, rfl⟩

/-- What one edit does to the index is what it does to a plain list, and the index stays in order. -/
theorem Ordered.edited (edit : Edit) :
    (index.edited edit).Ordered ∧ (index.edited edit).blocks.Perm (edit.leave index.blocks) ∧
      (edit.perform index).isOk = decide (edit.Allowed index.blocks) := by
  by_cases allowed : edit.Allowed index.blocks
  · obtain ⟨result, done, sorted, perm⟩ := ordered.perform_eq_ok allowed
    rw [BlockIndex.edited, done]
    exact ⟨sorted, perm, by simp [allowed, Attempt.isOk]⟩
  · obtain ⟨fault, failed⟩ := ordered.perform_eq_error allowed
    rw [BlockIndex.edited, failed, Edit.leave, if_neg allowed]
    exact ⟨ordered, .refl _, by simp [allowed, Attempt.isOk]⟩

end Step

theorem Ordered.size_edits (ordered : index.Ordered) (edits : List Edit) :
    (edits.foldl BlockIndex.edited index).size = index.size + index.successes edits := by
  induction edits generalizing index with
  | nil => rfl
  | cons edit rest ih =>
      obtain ⟨sorted, perm, succeeded⟩ := ordered.edited edit
      have grown : (index.edited edit).size = index.size + (edit.perform index).isOk.toNat := by
        rw [size, perm.length_eq, edit.length_leave, succeeded, size]
      rw [List.foldl_cons, ih sorted, grown, successes, Nat.add_assoc]

theorem after_holds (edits : List Edit) :
    (after edits).Ordered ∧ (after edits).blocks.Perm (blocksAfter edits) := by
  induction edits using List.reverseRecOn with
  | nil => exact ⟨.empty, .refl _⟩
  | append_singleton edits edit ih =>
      obtain ⟨ordered, perm⟩ := ih
      obtain ⟨sorted, done, -⟩ := ordered.edited edit
      rw [after_concat, blocksAfter_concat]
      exact ⟨sorted, done.trans (edit.leave_perm perm)⟩

/-- After any edits, the index holds the blocks that the edits leave in a plain list, one for each edit
that succeeds, and lists them by image and start. None is empty and no two meet. A place is found in
the one block that contains it, and a block is found by its start, wherever there is one. -/
theorem edits_index_blocks (edits : List Edit) :
    let index := after edits
    index.blocks.Perm (blocksAfter edits) ∧
    (∀ block ∈ index.blocks, block.start < block.stop) ∧
    index.blocks.Pairwise (fun left right => ¬left.Meets right) ∧
    (∀ place block, index.find? place = some block ↔
      block ∈ index.blocks ∧ block.contains place = true) ∧
    (∀ place, (∃ block ∈ index.blocks, block.contains place = true) →
      ∃! block, block ∈ index.blocks ∧ block.contains place = true) ∧
    (∀ place, index.find? place = none ↔ ∀ block ∈ index.blocks, block.contains place = false) ∧
    (∀ place block, index.startingAt? place = some block ↔
      block ∈ index.blocks ∧ block.first = place) ∧
    index.size = index.blocks.length ∧ index.size = empty.successes edits ∧
    index.blocks.Nodup ∧ index.blocks.Pairwise (fun left right => left.first < right.first) := by
  intro index
  obtain ⟨ordered, perm⟩ : index.Ordered ∧ index.blocks.Perm (blocksAfter edits) := after_holds edits
  have counted : index.size = empty.successes edits := by
    rw [← Nat.zero_add (empty.successes edits)]
    exact Ordered.empty.size_edits edits
  refine ⟨perm, ordered.filled, ordered.ascending.imp fun precedes => precedes.not_meets,
    fun place block => ordered.find?_eq_some_iff, ?_, fun place => ?_,
    fun place block => ordered.startingAt?_eq_some_iff, rfl, counted, ordered.nodup, ?_⟩
  · rintro place ⟨block, member, inside⟩
    refine ⟨block, ⟨member, inside⟩, ?_⟩
    rintro other ⟨found, also⟩
    exact ordered.eq_of_contains found member also inside
  · simp only [Option.eq_none_iff_forall_ne_some, ne_eq, ordered.find?_eq_some_iff, not_and,
      Bool.not_eq_true]
  · exact ordered.ascending.imp_of_mem fun member _ precedes =>
      precedes.first_lt (ordered.filled _ member)

/-- Two blocks of two images, one that meets the first, and two cuts of the first, of which only the
second is at a lead byte. -/
theorem sample_edits_index_blocks :
    let image := ((Image.fresh 0 "code" (Array.replicate 8 0x90)).painted .code 2 2).painted .code 4 3
    let whole : Block := ⟨0, 2, 7, .terminated⟩
    let index := after [.add whole, .add ⟨1, 0, 9, .conditional⟩, .add ⟨0, 6, 9, .incomplete⟩,
      .split whole 5 image, .split whole 4 image]
    index.blocks = [head whole 4, tail whole 4, ⟨1, 0, 9, .conditional⟩] ∧
      (tail whole 4).start < (tail whole 4).stop ∧
      (∃! block, block ∈ index.blocks ∧ block.contains ⟨0, 5⟩ = true) ∧
      index.find? ⟨0, 5⟩ = some (tail whole 4) ∧ index.find? ⟨0, 7⟩ = none ∧
      index.startingAt? ⟨0, 2⟩ = some (head whole 4) ∧ index.size = 3 := by
  intro image whole index
  have listed : index.blocks = [head whole 4, tail whole 4, ⟨1, 0, 9, .conditional⟩] := by
    decide +kernel
  obtain ⟨-, filled, -, found, one, missing, starting, size, -⟩ := edits_index_blocks
    [.add whole, .add ⟨1, 0, 9, .conditional⟩, .add ⟨0, 6, 9, .incomplete⟩, .split whole 5 image,
      .split whole 4 image]
  have opening : head whole 4 ∈ index.blocks := by simp [listed]
  have member : tail whole 4 ∈ index.blocks := by simp [listed]
  have inside : (tail whole 4).contains ⟨0, 5⟩ = true := by decide
  have outside : ∀ block ∈ index.blocks, block.contains ⟨0, 7⟩ = false := by
    rw [listed]
    decide
  refine ⟨listed, filled _ member, one _ ⟨_, member, inside⟩, (found _ _).mpr ⟨member, inside⟩,
    (missing _).mpr outside, (starting _ _).mpr ⟨opening, rfl⟩, ?_⟩
  exact size.trans (congrArg List.length listed)

end BlockIndex

end RealMode
