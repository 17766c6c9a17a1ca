import Mathlib.Data.List.Induction
import RealMode.Fixup.Table
import RealMode.Proofs.Collection.Search

/-! Tables of fix-ups under any row of changes.

Fix-ups of a table that is built from nothing ascend, and one that ends in range shares no byte with those
behind it, although they differ in width. So the two neighbours of a new fix-up speak for all others. The end
of a fix-up that does not end in range is a small number: such a fix-up is entered over others, and a search
among the ends goes astray at it. Without such fix-ups the table is free of overlaps, and queries answer as a
scan does. -/

set_option autoImplicit false

namespace RealMode

namespace Fixup

variable {fixup left middle right : Fixup} {offset start stop : Nat}

/-- The byte at `offset` is one of those that are patched. -/
def Patches (fixup : Fixup) (offset : Nat) : Prop :=
  fixup.start ≤ offset ∧ offset < fixup.start + fixup.length

/-- A byte from `start` up to `stop` is one of those that are patched. -/
def Touches (fixup : Fixup) (start stop : Nat) : Prop :=
  ∃ offset, fixup.Patches offset ∧ start ≤ offset ∧ offset < stop

/-- There is a byte that both fix-ups patch. -/
def Meets (left right : Fixup) : Prop := ∃ offset, left.Patches offset ∧ right.Patches offset

/-- The offset just behind the patched bytes is in range. -/
def Fits (fixup : Fixup) : Prop := fixup.start + fixup.length < UInt64.size

instance : DecidablePred Fits := fun fixup =>
  inferInstanceAs (Decidable (fixup.start + fixup.length < UInt64.size))

/-- `left` ends before `right` begins. -/
def Precedes (left right : Fixup) : Prop := left.start + left.length ≤ right.start

/-- `left` begins before `right` or with it, and ends before it if it ends in range. -/
def Before (left right : Fixup) : Prop := left.start ≤ right.start ∧ (left.Fits → left.Precedes right)

theorem length_le (fixup : Fixup) : fixup.length ≤ 4 := by
  unfold length
  cases fixup.width <;> decide

theorem Fits.stop_eq (fits : fixup.Fits) : fixup.stop = fixup.start + fixup.length :=
  offsetBehind_of_lt fits

/-- What does not end in range ends before it starts. -/
theorem stop_lt_start (overflows : ¬fixup.Fits) : fixup.stop < fixup.start := by
  have short := fixup.length_le
  have limit : UInt64.size = 18446744073709551616 := rfl
  unfold Fits at overflows
  unfold stop offsetBehind
  rw [limit] at overflows ⊢
  omega

/-- An offset that a fix-up does not begin behind is before its end if it is patched and the end is in range. -/
theorem lt_stop_iff (above : fixup.start ≤ offset) :
    offset < fixup.stop ↔ fixup.Fits ∧ fixup.Patches offset := by
  by_cases fits : fixup.Fits
  · rw [fits.stop_eq]
    simp [fits, Patches, above]
  · have wrapped := stop_lt_start fits
    simp only [fits, false_and, iff_false]
    omega

theorem Meets.symm (meets : left.Meets right) : right.Meets left := by
  obtain ⟨offset, inLeft, inRight⟩ := meets
  exact ⟨offset, inRight, inLeft⟩

theorem meets_iff_patches (order : left.start ≤ right.start) :
    left.Meets right ↔ left.Patches right.start := by
  have filled := right.length_pos
  unfold Meets Patches
  constructor
  · rintro ⟨offset, inLeft, inRight⟩
    omega
  · exact fun inside => ⟨right.start, inside, by omega⟩

theorem Precedes.not_meets (precedes : left.Precedes right) : ¬left.Meets right := by
  unfold Precedes at precedes
  rintro ⟨offset, ⟨-, inLeft⟩, inRight, -⟩
  omega

theorem Precedes.start_lt (precedes : left.Precedes right) : left.start < right.start := by
  have filled := left.length_pos
  unfold Precedes at precedes
  omega

theorem overlaps_iff (fits : fixup.Fits) (filled : start < stop) :
    fixup.overlaps start stop = true ↔ fixup.Touches start stop := by
  have patched := fixup.length_pos
  simp only [overlaps, fits.stop_eq, Bool.and_eq_true, decide_eq_true_eq, Touches, Patches]
  constructor
  · rintro ⟨low, high⟩
    exact ⟨max fixup.start start, by omega, by omega⟩
  · rintro ⟨offset, inFixup, inRange⟩
    omega

/-- A fix-up that patches in the first address of a segment. -/
def plain (start : Nat) (width : Width) : Fixup :=
  ⟨start, width, .segmentRelative, ⟨.segment 0, 0⟩, none⟩

end Fixup

namespace FixupTable

variable {table larger : FixupTable} {fixup other : Fixup} {start stop : Nat}

/-- Fix-ups ascend, and those that end in range share no byte with the ones behind them. -/
def Arranged (table : FixupTable) : Prop := table.entries.Pairwise Fixup.Before

/-- Fix-ups ascend, share no byte and end in range. -/
structure Ordered (table : FixupTable) : Prop where
  ascending : table.entries.Pairwise Fixup.Precedes
  fitting : ∀ fixup ∈ table.entries, fixup.Fits

theorem append_notBefore (table : FixupTable) (start : Nat) :
    table.before start ++ table.notBefore start = table.entries :=
  List.take_append_drop _ _

namespace Arranged

variable (arranged : table.Arranged)

include arranged

theorem ordered (fitting : ∀ fixup ∈ table.entries, fixup.Fits) : table.Ordered where
  ascending := arranged.imp_of_mem fun member _ before => before.2 (fitting _ member)
  fitting := fitting

/-- A bound parts the starts of the fix-ups. -/
theorem starts_part (bound : Nat) : Cut.Parts (·.start < bound) table.entries :=
  arranged.imp fun before below => by
    have := before.1
    simp only [decide_eq_true_eq] at below ⊢
    omega

theorem starts_at (start : Nat) : Cut.At (·.start < start) table.entries (table.placeOf start) :=
  Search.at_partitionPoint (arranged.starts_part start)

theorem start_lt_of_mem_before (member : other ∈ table.before start) : other.start < start := by
  simpa using (arranged.starts_at start).passed other member

theorem le_start_of_mem_notBefore (member : other ∈ table.notBefore start) : start ≤ other.start := by
  simpa using (arranged.starts_at start).failed other member

section Neighbours

/-- The last fix-up before an offset comes behind all others before it. -/
theorem eq_or_before_last {last : Fixup} (found : (table.before start).getLast? = some last)
    (member : other ∈ table.before start) : other = last ∨ other.Before last := by
  have sorted : (table.before start).Pairwise Fixup.Before := arranged.sublist (List.take_sublist ..)
  exact Cut.eq_or_before_last sorted found member

/-- The next fix-up at an offset or behind it comes before all others there. -/
theorem eq_or_behind_next {next : Fixup} (found : (table.notBefore start).head? = some next)
    (member : other ∈ table.notBefore start) : other = next ∨ next.Before other := by
  have sorted : (table.notBefore start).Pairwise Fixup.Before := arranged.sublist (List.drop_sublist ..)
  exact Cut.eq_or_behind_first sorted found member

theorem clash?_eq_some {existing : Fixup} (found : table.clash? fixup = some existing) :
    existing ∈ table.entries ∧ existing.Meets fixup ∧
      if existing.start < fixup.start then existing.Fits else fixup.Fits := by
  rw [← append_notBefore table fixup.start, List.mem_append]
  simp only [clash?, Option.or_eq_some_iff, Option.filter_eq_some_iff, decide_eq_true_eq] at found
  rcases found with ⟨last, clashes⟩ | ⟨-, next, clashes⟩
  · have member := List.mem_of_getLast? last
    have below := arranged.start_lt_of_mem_before member
    obtain ⟨fits, inside⟩ := (Fixup.lt_stop_iff below.le).mp clashes
    rw [if_pos below]
    exact ⟨.inl member, (Fixup.meets_iff_patches below.le).mpr inside, fits⟩
  · have member := List.mem_of_mem_head? next
    have above := arranged.le_start_of_mem_notBefore member
    obtain ⟨fits, inside⟩ := (Fixup.lt_stop_iff above).mp clashes
    rw [if_neg above.not_gt]
    exact ⟨.inr member, ((Fixup.meets_iff_patches above).mpr inside).symm, fits⟩

/-- If neither neighbour of a fix-up clashes with it, it comes between those in front of it and those behind. -/
theorem before_of_clash?_eq_none (clear : table.clash? fixup = none) :
    (∀ other ∈ table.before fixup.start, other.Before fixup) ∧
      ∀ other ∈ table.notBefore fixup.start, fixup.Before other := by
  simp only [clash?, Option.or_eq_none_iff, Option.filter_eq_none_iff, decide_eq_true_eq,
    Nat.not_lt] at clear
  obtain ⟨lastEnds, nextBegins⟩ := clear
  constructor
  · intro other member
    refine ⟨(arranged.start_lt_of_mem_before member).le, fun fits => ?_⟩
    obtain ⟨last, found⟩ := Option.isSome_iff_exists.mp
      (List.getLast?_isSome.mpr (List.ne_nil_of_mem member))
    rcases arranged.eq_or_before_last found member with rfl | before
    · have ends := lastEnds other found
      rwa [fits.stop_eq] at ends
    · -- It ends before the last one starts, so the end of the last one does not matter.
      have below := arranged.start_lt_of_mem_before (List.mem_of_getLast? found)
      exact (before.2 fits).trans below.le
  · intro other member
    refine ⟨arranged.le_start_of_mem_notBefore member, fun fits => ?_⟩
    obtain ⟨next, found⟩ := Option.isSome_iff_exists.mp
      (List.isSome_head?.mpr (List.ne_nil_of_mem member))
    have begins := nextBegins next found
    rw [fits.stop_eq] at begins
    rcases arranged.eq_or_behind_next found member with rfl | before
    · exact begins
    · exact begins.trans before.1

/-- The neighbours of a fix-up decide whether it clashes with any other: whether they share a byte and the one
that begins first ends in range. -/
theorem clash?_eq_none_iff :
    table.clash? fixup = none ↔ ∀ other ∈ table.entries, other.Meets fixup →
      ¬if other.start < fixup.start then other.Fits else fixup.Fits := by
  constructor
  · intro clear other member meets
    obtain ⟨front, back⟩ := arranged.before_of_clash?_eq_none clear
    rw [← append_notBefore table fixup.start, List.mem_append] at member
    rcases member with earlier | later
    · rw [if_pos (arranged.start_lt_of_mem_before earlier)]
      exact fun fits => ((front other earlier).2 fits).not_meets meets
    · rw [if_neg (arranged.le_start_of_mem_notBefore later).not_gt]
      exact fun fits => ((back other later).2 fits).not_meets meets.symm
  · intro apart
    rw [Option.eq_none_iff_forall_ne_some]
    intro existing found
    obtain ⟨member, meets, fits⟩ := arranged.clash?_eq_some found
    exact apart existing member meets fits

end Neighbours

end Arranged

section Adding

theorem add_eq_ok_iff :
    table.add fixup = .ok larger ↔ table.isSealed = false ∧ table.clash? fixup = none ∧
      larger = { table with
        entries := table.before fixup.start ++ fixup :: table.notBefore fixup.start } := by
  unfold add
  cases table.isSealed <;> cases table.clash? fixup <;> simp [eq_comm]

theorem add_keeps (table : FixupTable) (fixup : Fixup) : (table.add fixup).Keeps table := by
  unfold add
  split
  · exact .error ..
  · split
    · exact .error ..
    · exact .ok ..

theorem cause_of_add {fault : Fault} {kept : FixupTable} (refused : table.add fixup = .error fault kept) :
    (table.isSealed = true ∧ fault = .sealedTable fixup.start) ∨
      (table.isSealed = false ∧ ∃ existing, table.clash? fixup = some existing ∧
        fault = .overlappingFixup fixup.start existing.start) := by
  unfold add at refused
  cases sealing : table.isSealed <;> cases found : table.clash? fixup <;> simp_all

theorem perm_of_add (added : table.add fixup = .ok larger) :
    larger.entries.Perm (fixup :: table.entries) := by
  obtain ⟨-, -, rfl⟩ := add_eq_ok_iff.mp added
  rw [← append_notBefore table fixup.start]
  exact List.perm_middle

theorem Arranged.add (arranged : table.Arranged) (added : table.add fixup = .ok larger) :
    larger.Arranged := by
  obtain ⟨-, clear, rfl⟩ := add_eq_ok_iff.mp added
  obtain ⟨front, back⟩ := arranged.before_of_clash?_eq_none clear
  exact Cut.pairwise_insert arranged (append_notBefore table fixup.start) front back

end Adding

section Queries

namespace Arranged

variable (arranged : table.Arranged)

include arranged

/-- A bound parts the ends of the fix-ups if it is below all that are not in range. -/
theorem stops_part {bound : Nat} (tame : ∀ fixup ∈ table.entries, fixup.Fits ∨ bound < fixup.stop) :
    Cut.Parts (·.stop ≤ bound) table.entries :=
  arranged.imp_of_mem fun {left right} leftMember rightMember before below => by
    simp only [decide_eq_true_eq] at below ⊢
    have rightFits : right.Fits := (tame right rightMember).resolve_right below.not_gt
    have starts := before.1
    rw [rightFits.stop_eq] at below
    by_cases leftFits : left.Fits
    · have precedes : left.start + left.length ≤ right.start := before.2 leftFits
      rw [leftFits.stop_eq]
      omega
    · have wrapped := Fixup.stop_lt_start leftFits
      omega

theorem overlapping_eq_filter (tame : ∀ fixup ∈ table.entries, fixup.Fits ∨ start < fixup.stop)
    (stop : Nat) : table.overlapping start stop = table.entries.filter (·.overlaps start stop) := by
  have lower := Search.at_partitionPoint (arranged.stops_part tame)
  have upper := arranged.starts_at stop
  have within := upper.drop (Search.partitionPoint (·.stop ≤ start) table.entries)
  calc table.overlapping start stop
      = (table.entries.drop (Search.partitionPoint (·.stop ≤ start) table.entries)).take
          (table.placeOf stop - Search.partitionPoint (·.stop ≤ start) table.entries) := by
        rw [overlapping, List.drop_take]
        congr 1
        unfold placeOf
        omega
    _ = table.entries.filter (·.overlaps start stop) := by
        rw [within.take_eq_filter, lower.drop_eq_filter, List.filter_filter]
        refine List.filter_congr fun fixup _ => ?_
        simp only [Fixup.overlaps, ← decide_not, Nat.not_le]

/-- What is found at an offset is a fix-up that starts there. -/
theorem at?_cases (start : Nat) :
    (∃ fixup ∈ table.entries, table.at? start = some fixup ∧ fixup.start = start) ∨
      (table.at? start = none ∧ ∀ fixup ∈ table.entries, fixup.start ≠ start) := by
  cases searched : Search.binarySearch (fun fixup : Fixup => compare fixup.start start) table.entries with
  | ok place =>
      obtain ⟨fixup, there, equal⟩ := Search.eq_of_binarySearch searched
      refine .inl ⟨fixup, List.mem_of_getElem? there, ?_, compare_eq_iff_eq.mp equal⟩
      simp only [at?, searched, there]
  | error place =>
      refine .inr ⟨by simp only [at?, searched], ?_⟩
      have lower : Cut.Parts (fun fixup : Fixup => compare fixup.start start = .lt) table.entries := by
        simpa only [compare_lt_iff_lt] using arranged.starts_part start
      have upper : Cut.Parts (fun fixup : Fixup => compare fixup.start start ≠ .gt) table.entries := by
        simpa only [ne_eq, compare_gt_iff_gt, gt_iff_lt, Nat.not_lt, Nat.lt_succ_iff] using
          arranged.starts_part (start + 1)
      intro fixup member
      exact fun same => Search.ne_of_binarySearch lower upper searched fixup member
        (compare_eq_iff_eq.mpr same)

/-- Looking for a start is looking at all fix-ups, if those that start there end in range. -/
theorem at?_eq_find? (tame : ∀ fixup ∈ table.entries, fixup.start = start → fixup.Fits) :
    table.at? start = table.entries.find? (·.start = start) := by
  rcases arranged.at?_cases start with ⟨fixup, member, found, starts⟩ | ⟨missed, elsewhere⟩
  · obtain ⟨front, back, split⟩ := List.append_of_mem member
    have sorted : (front ++ fixup :: back).Pairwise Fixup.Before := split ▸ arranged
    rw [found, eq_comm, List.find?_eq_some_iff_append]
    refine ⟨by simp [starts], front, back, split, fun other earlier => ?_⟩
    have before := (List.pairwise_append.mp sorted).2.2 other earlier fixup List.mem_cons_self
    have known : other ∈ table.entries := split ▸ List.mem_append_left _ earlier
    simp only [Bool.not_eq_true', decide_eq_false_iff_not]
    intro same
    have below := (before.2 (tame other known same)).start_lt
    omega
  · rw [missed, eq_comm, List.find?_eq_none]
    simpa using elsewhere

end Arranged

namespace Ordered

variable (ordered : table.Ordered)

include ordered

theorem arranged : table.Arranged :=
  ordered.ascending.imp fun precedes => ⟨precedes.start_lt.le, fun _ => precedes⟩

theorem overlapping_eq_filter (start stop : Nat) :
    table.overlapping start stop = table.entries.filter (·.overlaps start stop) :=
  ordered.arranged.overlapping_eq_filter (fun fixup member => .inl (ordered.fitting fixup member)) stop

theorem mem_overlapping_iff (filled : start < stop) :
    fixup ∈ table.overlapping start stop ↔ fixup ∈ table.entries ∧ fixup.Touches start stop := by
  rw [ordered.overlapping_eq_filter, List.mem_filter]
  exact and_congr_right fun member => Fixup.overlaps_iff (ordered.fitting fixup member) filled

theorem overlapping_pairwise (start stop : Nat) :
    (table.overlapping start stop).Pairwise Fixup.Precedes := by
  rw [ordered.overlapping_eq_filter]
  exact ordered.ascending.filter _

theorem overlapping_nodup (start stop : Nat) : (table.overlapping start stop).Nodup := by
  refine (ordered.overlapping_pairwise start stop).imp fun precedes => ?_
  rintro rfl
  exact Nat.lt_irrefl _ precedes.start_lt

/-- What meets a range does not depend on fix-ups elsewhere. -/
theorem overlapping_eq_of_mem_iff (others : larger.Ordered) (filled : start < stop)
    (same : ∀ fixup : Fixup, fixup.Touches start stop →
      (fixup ∈ larger.entries ↔ fixup ∈ table.entries)) :
    larger.overlapping start stop = table.overlapping start stop := by
  have alike (fixup : Fixup) :
      fixup ∈ larger.overlapping start stop ↔ fixup ∈ table.overlapping start stop := by
    rw [ordered.mem_overlapping_iff filled, others.mem_overlapping_iff filled]
    exact and_congr_left (same fixup)
  have perm := (List.perm_ext_iff_of_nodup (others.overlapping_nodup start stop)
    (ordered.overlapping_nodup start stop)).mpr alike
  refine perm.eq_of_pairwise (fun left right _ _ first second => ?_)
    (others.overlapping_pairwise start stop) (ordered.overlapping_pairwise start stop)
  exact absurd (first.start_lt.trans second.start_lt) (Nat.lt_irrefl _)

end Ordered

end Queries

section Changes

inductive Change where
  | add (fixup : Fixup)
  | close
  deriving Repr

def Change.perform (table : FixupTable) : Change → Attempt FixupTable
  | .add fixup => table.add fixup
  | .close => .ok table.close

/-- The table that a change leaves. -/
def changed (table : FixupTable) (change : Change) : FixupTable := (change.perform table).state

def after (changes : List Change) : FixupTable := changes.foldl changed .empty

theorem after_concat (changes : List Change) (change : Change) :
    after (changes ++ [change]) = (after changes).changed change := by
  simp [after]

/-- A change enters a fix-up, closes the table or leaves it as it is. -/
theorem changed_cases (table : FixupTable) (change : Change) :
    (∃ fixup larger, change = .add fixup ∧ table.add fixup = .ok larger ∧
      table.changed change = larger) ∨
    (change ≠ .close ∧ table.changed change = table) ∨
    (change = .close ∧ table.changed change = table.close) := by
  cases change with
  | add fixup =>
      rcases (table.add_keeps fixup).state_cases with ⟨larger, added, same⟩ | same
      · exact .inl ⟨fixup, larger, rfl, added, same⟩
      · exact .inr (.inl ⟨nofun, same⟩)
  | close => exact .inr (.inr ⟨rfl, rfl⟩)

theorem Arranged.changed (arranged : table.Arranged) (change : Change) :
    (table.changed change).Arranged := by
  obtain ⟨_, _, -, added, same⟩ | ⟨-, same⟩ | ⟨-, same⟩ := changed_cases table change <;> rw [same]
  · exact arranged.add added
  · exact arranged
  · exact arranged

theorem arranged_after (changes : List Change) : (after changes).Arranged := by
  induction changes using List.reverseRecOn with
  | nil => exact .nil
  | append_singleton changes change ih =>
      rw [after_concat]
      exact ih.changed change

theorem isSealed_changed (table : FixupTable) (change : Change) :
    (table.changed change).isSealed = true ↔ table.isSealed = true ∨ change = .close := by
  obtain ⟨_, _, rfl, added, same⟩ | ⟨differs, same⟩ | ⟨rfl, same⟩ :=
    changed_cases table change <;> rw [same]
  · obtain ⟨-, -, rfl⟩ := add_eq_ok_iff.mp added
    simp
  · simp [differs]
  · simp [close]

theorem isSealed_after (changes : List Change) :
    (after changes).isSealed = true ↔ Change.close ∈ changes := by
  induction changes using List.reverseRecOn with
  | nil => simp [after, empty]
  | append_singleton changes change ih =>
      rw [after_concat, isSealed_changed, ih, List.mem_append, List.mem_singleton, eq_comm]

/-- A pointer, a byte right behind it and a word further on, entered from back to front. -/
def crowded : List Change :=
  [.add (.plain 10 .offset16), .add (.plain 8 .lowByte), .add (.plain 4 .pointer32)]

end Changes

end FixupTable

end RealMode
