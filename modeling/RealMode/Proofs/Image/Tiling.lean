import Mathlib.Data.List.Induction
import RealMode.Proofs.Image.Marking

/-! Images under any row of requests to mark bytes.

The requests that succeed are ranges of the image that share no byte, and the marks of every byte can be
read off them. So the ranges can be told from the marks, and no request takes anything back. -/

set_option autoImplicit false

namespace RealMode

/-- A request to mark `length` bytes from `start` on as one run. -/
structure Marking where
  content : Content
  start : Nat
  length : Nat
  deriving DecidableEq, Repr

namespace Marking

def stop (marking : Marking) : Nat := marking.start + marking.length

def Covers (marking : Marking) (offset : Nat) : Prop := marking.start ≤ offset ∧ offset < marking.stop

instance (marking : Marking) (offset : Nat) : Decidable (marking.Covers offset) :=
  inferInstanceAs (Decidable (_ ∧ _))

/-- No byte is in both ranges. -/
def Apart (left right : Marking) : Prop := ∀ offset, left.Covers offset → ¬right.Covers offset

def perform (image : Image) (marking : Marking) : Attempt Image :=
  image.mark marking.content marking.start marking.length

end Marking

namespace Image

variable {image marked kept : Image} {marking : Marking} {runs : List Marking} {fault : Fault}

/-- The byte at `first` is the first one of a range that has been marked before. -/
structure FirstKnown (image : Image) (marking : Marking) (first : Nat) : Prop where
  covered : marking.Covers first
  known : (image.marksAt first).isUnknown = false
  before : ∀ offset, marking.start ≤ offset → offset < first → (image.marksAt offset).isUnknown = true

section Perform

theorem eq_painted_of_perform (done : marking.perform image = .ok marked) :
    marked = image.painted marking.content marking.start marking.length :=
  (mark_eq_ok done).2

theorem isUnknown_of_perform (done : marking.perform image = .ok marked) {offset : Nat}
    (covers : marking.Covers offset) : (image.marksAt offset).isUnknown = true :=
  (unknown_of_markFault? (mark_eq_ok done).1).2 offset covers.1 covers.2

variable (addressable : image.size < offsetLimit)

include addressable

theorem exists_perform_iff (covered : image.marks.size = image.size) :
    (∃ marked, marking.perform image = .ok marked) ↔
      0 < marking.length ∧ image.isUnattributed marking.start marking.stop = true := by
  constructor
  · rintro ⟨marked, done⟩
    have faultless := (mark_eq_ok done).1
    obtain ⟨positive, unknown⟩ := unknown_of_markFault? faultless
    refine ⟨positive, isUnattributed_iff.mpr ⟨?_, Nat.le_add_right .., unknown⟩⟩
    rcases markFault?_cases addressable marking.start marking.length with ⟨-, failed⟩ | ⟨fits, -⟩
    · simp [faultless] at failed
    · exact covered ▸ fits.2
  · rintro ⟨positive, free⟩
    refine ⟨image.painted marking.content marking.start marking.length, ?_⟩
    rw [Marking.perform, mark, markFault?_eq_none covered positive free]

theorem marksAt_perform (covered : image.marks.size = image.size)
    (done : marking.perform image = .ok marked) (offset : Nat) :
    marked.marksAt offset =
      if marking.Covers offset then .inRun marking.content marking.start offset
      else image.marksAt offset := by
  obtain ⟨positive, free⟩ := (exists_perform_iff addressable covered).mp ⟨marked, done⟩
  rw [eq_painted_of_perform done]
  exact marksAt_painted marking.content offset positive (isUnattributed_iff.mp free).1

theorem perform_eq_error (failed : marking.perform image = .error fault kept) :
    ((marking.length = 0 ∨ image.size < marking.stop) ∧
        fault = .invalidRange marking.start (min marking.stop offsetLimit) image.size) ∨
      (0 < marking.length ∧ marking.stop ≤ image.size) ∧
        ∃ first, image.FirstKnown marking first ∧ fault = .alreadyAttributed first := by
  have found : image.markFault? marking.start marking.length = some fault := by
    unfold Marking.perform mark at failed
    split at failed
    · rename_i known
      rw [known, (Attempt.error.inj failed).1]
    · cases failed
  rcases markFault?_cases addressable marking.start marking.length with ⟨outside, same⟩ | ⟨fits, same⟩
  · exact .inl ⟨outside, Option.some.inj (found.symm.trans same)⟩
  · rw [same, Option.map_eq_some_iff] at found
    obtain ⟨first, taken, rfl⟩ := found
    obtain ⟨above, below, known, before⟩ := firstMarked?_eq_some_iff.mp taken
    exact .inr ⟨fits, first, ⟨⟨above, below⟩, known, before⟩, rfl⟩

end Perform

/-- The marks of an image are those of ranges inside it that are not empty and share no byte. -/
structure Tiled (image : Image) (runs : List Marking) : Prop where
  covered : image.marks.size = image.size
  filled : ∀ run ∈ runs, 0 < run.length
  inside : ∀ run ∈ runs, run.stop ≤ image.size
  apart : runs.Pairwise Marking.Apart
  marked : ∀ run ∈ runs, ∀ offset, run.Covers offset →
    image.marksAt offset = .inRun run.content run.start offset
  unmarked : ∀ offset, (∀ run ∈ runs, ¬run.Covers offset) → image.marksAt offset = .empty

namespace Tiled

theorem fresh (id : Nat) (name : String) (bytes : Array UInt8) : (Image.fresh id name bytes).Tiled [] where
  covered := by simp [Image.fresh, size]
  filled := by simp
  inside := by simp
  apart := .nil
  marked := by simp
  unmarked offset _ := marksAt_fresh id name bytes offset

variable (tiled : image.Tiled runs)

include tiled

theorem isUnknown_eq_false {run : Marking} (member : run ∈ runs) {offset : Nat}
    (covers : run.Covers offset) : (image.marksAt offset).isUnknown = false := by
  rw [tiled.marked run member offset covers]
  exact Marks.isUnknown_inRun ..

/-- A range that is marked joins those before it. -/
theorem perform (addressable : image.size < offsetLimit) (done : marking.perform image = .ok marked) :
    marked.Tiled (runs ++ [marking]) := by
  obtain ⟨positive, free⟩ := (exists_perform_iff addressable tiled.covered).mp ⟨marked, done⟩
  have inside : marking.stop ≤ image.size := tiled.covered ▸ (isUnattributed_iff.mp free).1
  have marksAt := marksAt_perform addressable tiled.covered done
  -- The ranges so far hold known bytes only, and the new one holds unknown bytes only.
  have behind : ∀ run ∈ runs, run.Apart marking := by
    intro run member offset covers within
    have known := tiled.isUnknown_eq_false member covers
    simp [isUnknown_of_perform done within] at known
  have sameSize : marked.size = image.size := by
    rw [eq_painted_of_perform done]
    rfl
  constructor
  case covered =>
    rw [sameSize, eq_painted_of_perform done, size_marks_painted]
    exact tiled.covered
  case filled => exact List.forall_mem_append.mpr ⟨tiled.filled, List.forall_mem_singleton.mpr positive⟩
  case inside =>
    rw [sameSize]
    exact List.forall_mem_append.mpr ⟨tiled.inside, List.forall_mem_singleton.mpr inside⟩
  case apart =>
    refine List.pairwise_append.mpr ⟨tiled.apart, List.pairwise_singleton .., fun run member => ?_⟩
    exact List.forall_mem_singleton.mpr (behind run member)
  case marked =>
    intro run member offset covers
    rw [marksAt]
    rcases List.mem_append.mp member with earlier | same
    · rw [if_neg (behind run earlier offset covers)]
      exact tiled.marked run earlier offset covers
    · rw [List.mem_singleton.mp same] at covers ⊢
      rw [if_pos covers]
  case unmarked =>
    intro offset none
    obtain ⟨earlier, last⟩ := List.forall_mem_append.mp none
    rw [marksAt, if_neg (last marking (List.mem_singleton_self marking))]
    exact tiled.unmarked offset earlier

end Tiled

section Requests

/-- The image that a request leaves. -/
def attempted (image : Image) (marking : Marking) : Image := (marking.perform image).state

/-- The image behind a row of requests. -/
def afterAll (image : Image) (markings : List Marking) : Image := markings.foldl attempted image

/-- The requests of a row that succeed. -/
def accepted (image : Image) : List Marking → List Marking
  | [] => []
  | marking :: rest =>
      (if (marking.perform image).isOk then [marking] else []) ++
        (image.attempted marking).accepted rest

theorem perform_keeps (image : Image) (marking : Marking) : (marking.perform image).Keeps image :=
  mark_keeps image marking.content marking.start marking.length

theorem afterAll_concat (image : Image) (markings : List Marking) (next : Marking) :
    image.afterAll (markings ++ [next]) = (image.afterAll markings).attempted next := by
  simp [afterAll]

theorem accepted_concat (image : Image) (markings : List Marking) (next : Marking) :
    image.accepted (markings ++ [next]) = image.accepted markings ++
      if (next.perform (image.afterAll markings)).isOk then [next] else [] := by
  induction markings generalizing image with
  | nil =>
      rw [List.nil_append, accepted, accepted, accepted, List.append_nil, List.nil_append]
      rfl
  | cons first rest ih =>
      rw [List.cons_append, accepted, ih, accepted, List.append_assoc]
      rfl

theorem bytes_attempted (image : Image) (marking : Marking) :
    (image.attempted marking).bytes = image.bytes := by
  unfold attempted
  rcases (perform_keeps image marking).state_cases with ⟨marked, done, same⟩ | same
  · rw [same, eq_painted_of_perform done]
    rfl
  · rw [same]

theorem bytes_afterAll (image : Image) (markings : List Marking) :
    (image.afterAll markings).bytes = image.bytes := by
  induction markings using List.reverseRecOn with
  | nil => rfl
  | append_singleton markings next ih => rw [afterAll_concat, bytes_attempted, ih]

/-- The requests of a row that succeed tile the image. -/
theorem Tiled.afterAll {image : Image} (tiled : image.Tiled []) (addressable : image.size < offsetLimit)
    (markings : List Marking) : (image.afterAll markings).Tiled (image.accepted markings) := by
  induction markings using List.reverseRecOn with
  | nil => exact tiled
  | append_singleton markings next ih =>
      have same : (image.afterAll markings).size = image.size :=
        congrArg Array.size (bytes_afterAll image markings)
      rw [afterAll_concat, accepted_concat, attempted]
      cases result : next.perform (image.afterAll markings) with
      | error fault kept =>
          obtain rfl := (perform_keeps _ next).eq fault kept result
          simpa [Attempt.isOk, Attempt.state] using ih
      | ok marked => exact ih.perform (same ▸ addressable) result

/-- After any requests to mark bytes of a fresh image that a word can address, those that succeeded are
ranges inside it that are not empty and share no byte. A byte in a range has the mark of its contents, the
first one also that of a lead, and a byte in none has no marks. The next request succeeds if and only if it
is for some bytes, all of them unknown; then it changes no byte that is known already and nothing but marks.
If it fails, the image stays as it is, and the fault names the first known byte, unless the range is empty
or leaves the image. -/
theorem markings_tile_image (id : Nat) (name : String) (bytes : Array UInt8)
    (addressable : bytes.size < offsetLimit) (markings : List Marking) (next : Marking) :
    let fresh := Image.fresh id name bytes
    let image := fresh.afterAll markings
    let runs := fresh.accepted markings
    (∀ run ∈ runs, 0 < run.length ∧ run.stop ≤ bytes.size) ∧ runs.Pairwise Marking.Apart ∧
    (∀ run ∈ runs, ∀ offset, run.Covers offset →
      image.marksAt offset =
        if offset = run.start then run.content.marks.union .lead else run.content.marks) ∧
    (∀ offset, (∀ run ∈ runs, ¬run.Covers offset) → image.marksAt offset = .empty) ∧
    ((∃ marked, next.perform image = .ok marked) ↔
      0 < next.length ∧ image.isUnattributed next.start next.stop = true) ∧
    (∀ marked, next.perform image = .ok marked →
      fresh.afterAll (markings ++ [next]) = marked ∧
      fresh.accepted (markings ++ [next]) = runs ++ [next] ∧
      (∀ offset, (image.marksAt offset).isUnknown = false →
        marked.marksAt offset = image.marksAt offset) ∧
      marked = { image with marks := marked.marks }) ∧
    ∀ fault kept, next.perform image = .error fault kept →
      kept = image ∧ fresh.afterAll (markings ++ [next]) = image ∧ fresh.accepted (markings ++ [next]) = runs ∧
      (0 < next.length → next.stop ≤ bytes.size →
        ∃ first, image.FirstKnown next first ∧ fault = .alreadyAttributed first) ∧
      (next.length = 0 ∨ bytes.size < next.stop →
        fault = .invalidRange next.start (min next.stop offsetLimit) bytes.size) := by
  intro fresh image runs
  have sameSize : image.size = bytes.size := congrArg Array.size (bytes_afterAll fresh markings)
  have tiled : image.Tiled runs := (Tiled.fresh id name bytes).afterAll addressable markings
  rw [← sameSize] at addressable ⊢
  refine ⟨fun run member => ⟨tiled.filled run member, tiled.inside run member⟩, tiled.apart,
    tiled.marked, tiled.unmarked, exists_perform_iff addressable tiled.covered, ?_, ?_⟩
  · intro marked done
    refine ⟨(afterAll_concat ..).trans (Attempt.state_of_ok done), ?_, fun offset known => ?_, ?_⟩
    · rw [accepted_concat, done]
      rfl
    · rw [marksAt_perform addressable tiled.covered done, if_neg]
      intro within
      simp [isUnknown_of_perform done within] at known
    · rw [eq_painted_of_perform done]
      rfl
  · intro fault kept failed
    have keeps := perform_keeps image next
    refine ⟨keeps.eq fault kept failed, (afterAll_concat ..).trans (keeps.state_of_error failed), ?_, ?_⟩
    · rw [accepted_concat, failed]
      exact List.append_nil runs
    · rcases perform_eq_error addressable failed with ⟨outside, rfl⟩ | ⟨fits, found⟩
      · exact ⟨fun positive inside => by omega, fun _ => rfl⟩
      · exact ⟨fun _ _ => found, fun outside => by omega⟩

/-- Requests of every content. One starts in a range before it, one is empty, and two leave the image, the
second of them by more than a word holds. -/
def mixed : List Marking :=
  [⟨.data, 0, 2⟩, ⟨.code, 1, 2⟩, ⟨.code, 3, 0⟩, ⟨.code, 7, 2⟩, ⟨.padding, 4, 2⟩,
    ⟨.data, 18446744073709551615, 5⟩, ⟨.code, 2, 2⟩]

theorem mixed_markings_tile_image :
    let bytes : Array UInt8 := Array.replicate 8 0
    let fresh := Image.fresh 0 "code" bytes
    let image := fresh.afterAll mixed
    let last : Marking := ⟨.code, 6, 2⟩
    let wide : Marking := ⟨.padding, 3, 4⟩
    bytes.size < offsetLimit ∧
      fresh.accepted mixed = [⟨.data, 0, 2⟩, ⟨.padding, 4, 2⟩, ⟨.code, 2, 2⟩] ∧
      image.marksAt 2 = Marks.code.union .lead ∧ image.marksAt 3 = .code ∧ image.marksAt 6 = .empty ∧
      (∃ marked, last.perform image = .ok marked ∧ marked.marksAt 3 = image.marksAt 3 ∧
        fresh.accepted (mixed ++ [last]) = fresh.accepted mixed ++ [last]) ∧
      wide.perform image = .error (.alreadyAttributed 3) image ∧ image.FirstKnown wide 3 := by
  intro bytes fresh image last wide
  have addressable : bytes.size < offsetLimit := by decide
  obtain ⟨-, -, marks, unmarked, can, done, -⟩ :=
    markings_tile_image 0 "code" bytes addressable mixed last
  obtain ⟨-, -, -, -, -, -, failed⟩ := markings_tile_image 0 "code" bytes addressable mixed wide
  have runs : fresh.accepted mixed = [⟨.data, 0, 2⟩, ⟨.padding, 4, 2⟩, ⟨.code, 2, 2⟩] := by
    decide +kernel
  have member : ⟨.code, 2, 2⟩ ∈ fresh.accepted mixed := by simp [runs]
  have lead := marks _ member 2 (by decide)
  have inner := marks _ member 3 (by decide)
  have outside := unmarked 6 (by rw [runs]; decide)
  obtain ⟨marked, performed⟩ := can.mpr (by decide +kernel)
  obtain ⟨-, joined, kept, -⟩ := done marked performed
  have refused : wide.perform image = .error (.alreadyAttributed 3) image := by decide +kernel
  obtain ⟨first, known, same⟩ := (failed _ _ refused).2.2.2.1 (by decide) (by decide)
  obtain rfl := Fault.alreadyAttributed.inj same
  exact ⟨addressable, runs, lead, inner, outside,
    ⟨marked, performed, kept 3 (by rw [inner]; rfl), joined⟩, refused, known⟩

end Requests

end Image

end RealMode
