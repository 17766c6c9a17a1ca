import RealMode.Json.Report
import RealMode.Proofs.Json.Form

/-! Reports and their texts.

A text has 32 bits for the number of an image, segment, group or external and 64 for a byte offset or
count. A report whose numbers fit is read back from its text as it was. -/

set_option autoImplicit false

namespace RealMode

open Json (Form id_form offset_form word_form string_form choice_form fields?_record plain_record
  optional?_some)

namespace Referent

/-- The number of a referent fits into 32 bits. -/
def Fits : Referent → Prop
  | .segment id | .external id | .group id => id < UInt32.size
  | .frame _ => True

instance : DecidablePred Fits
  | .segment id | .external id | .group id => inferInstanceAs (Decidable (id < UInt32.size))
  | .frame _ => inferInstanceAs (Decidable True)

theorem form : Form toJson ofJson? Fits where
  plain {referent} fits := by
    cases referent with
    | frame selector => exact plain_record (by simpa using word_form.plain trivial)
    | segment id | external id | group id => exact plain_record (by simpa using id_form.plain fits)
  reads {referent} fits := by
    cases referent with
    | frame selector =>
        simp [ofJson?, toJson, Json.variant?, Json.record, word_form.reads trivial]
    | segment id | external id | group id =>
        simp [ofJson?, toJson, Json.variant?, Json.record, id_form.reads fits]
  fits {json referent} read := by
    unfold ofJson? at read
    split at read
    · obtain ⟨id, idRead, rfl⟩ := Option.map_eq_some_iff.mp read
      exact id_form.fits idRead
    · obtain ⟨selector, -, rfl⟩ := Option.map_eq_some_iff.mp read
      trivial
    · obtain ⟨id, idRead, rfl⟩ := Option.map_eq_some_iff.mp read
      exact id_form.fits idRead
    · obtain ⟨id, idRead, rfl⟩ := Option.map_eq_some_iff.mp read
      exact id_form.fits idRead
    · cases read

end Referent

namespace Address

def Fits (address : Address) : Prop := address.referent.Fits

instance : DecidablePred Fits := fun address => inferInstanceAs (Decidable address.referent.Fits)

theorem form : Form toJson ofJson? Fits where
  plain fits := plain_record (by simpa using ⟨Referent.form.plain fits, word_form.plain trivial⟩)
  reads fits := by
    rw [ofJson?, toJson, fields?_record (by decide) rfl]
    simp [Referent.form.reads fits, word_form.reads trivial]
  fits {json address} read := by
    unfold ofJson? at read
    split at read
    · simp only [Option.bind_eq_bind, Option.bind_eq_some_iff] at read
      obtain ⟨referent, referentRead, offset, -, ⟨⟩⟩ := read
      exact Referent.form.fits referentRead
    · cases read

theorem form? : Form (.ofOption toJson) (Json.nullable? ofJson?)
    fun address? => ∀ address ∈ address?, address.Fits :=
  form.nullable fun address => by simp [toJson, Json.record]

end Address

namespace Place

/-- The number of the image fits into 32 bits, and the offset into 64. -/
def Fits (place : Place) : Prop := place.image < UInt32.size ∧ place.offset < UInt64.size

instance : DecidablePred Fits := fun _ => inferInstanceAs (Decidable (_ ∧ _))

theorem form : Form toJson ofJson? Fits where
  plain fits := plain_record (by simpa using ⟨id_form.plain fits.1, offset_form.plain fits.2⟩)
  reads fits := by
    rw [ofJson?, toJson, fields?_record (by decide) rfl]
    simp [id_form.reads fits.1, offset_form.reads fits.2]
  fits {json place} read := by
    unfold ofJson? at read
    split at read
    · simp only [Option.bind_eq_bind, Option.bind_eq_some_iff] at read
      obtain ⟨image, imageRead, offset, offsetRead, ⟨⟩⟩ := read
      exact ⟨id_form.fits imageRead, offset_form.fits offsetRead⟩
    · cases read

theorem form? : Form (.ofOption toJson) (Json.nullable? ofJson?)
    fun place? => ∀ place ∈ place?, place.Fits :=
  form.nullable fun place => by simp [toJson, Json.record]

end Place

namespace Block

theorem Exit.form : Form Exit.toJson Exit.ofJson? fun _ => True :=
  choice_form fun exit => by cases exit <;> decide

def Fits (block : Block) : Prop :=
  block.image < UInt32.size ∧ block.start < UInt64.size ∧ block.stop < UInt64.size

instance : DecidablePred Fits := fun _ => inferInstanceAs (Decidable (_ ∧ _))

theorem form : Form toJson ofJson? Fits where
  plain fits := plain_record (by
    simpa using ⟨id_form.plain fits.1, offset_form.plain fits.2.1, offset_form.plain fits.2.2,
      Exit.form.plain trivial⟩)
  reads fits := by
    rw [ofJson?, toJson, fields?_record (by decide) rfl]
    simp [id_form.reads fits.1, offset_form.reads fits.2.1, offset_form.reads fits.2.2,
      Exit.form.reads trivial]
  fits {json block} read := by
    unfold ofJson? at read
    split at read
    · simp only [Option.bind_eq_bind, Option.bind_eq_some_iff] at read
      obtain ⟨image, imageRead, start, startRead, stop, stopRead, exit, -, ⟨⟩⟩ := read
      exact ⟨id_form.fits imageRead, offset_form.fits startRead, offset_form.fits stopRead⟩
    · cases read

end Block

namespace Reference

theorem Kind.form : Form Kind.toJson Kind.ofJson? fun _ => True :=
  choice_form fun kind => by cases kind <;> decide

theorem Kind.form? : Form (.ofOption toJson) (Json.nullable? ofJson?)
    fun kind? => ∀ kind ∈ kind?, True :=
  Kind.form.nullable fun kind => by simp [toJson, Json.ofString]

def Fits (reference : Reference) : Prop :=
  (∀ address ∈ reference.source, address.Fits) ∧ (∀ address ∈ reference.target, address.Fits) ∧
    ∀ address ∈ reference.slot, address.Fits

instance : DecidablePred Fits := fun _ => inferInstanceAs (Decidable (_ ∧ _))

/-- Only references with an end are read. -/
theorem form : Form toJson ofJson? fun reference => reference.Fits ∧ reference.hasEnd = true where
  plain fits := plain_record (by
    simpa using ⟨Address.form?.plain fits.1.1, Address.form?.plain fits.1.2.1,
      Kind.form.plain trivial, Address.form?.plain fits.1.2.2⟩)
  reads {reference} fits := by
    obtain ⟨⟨source, target, slot⟩, hasEnd⟩ := fits
    rw [ofJson?, toJson, fields?_record (by decide) rfl]
    simp [optional?_some, Address.form?.reads source, Address.form?.reads target,
      Kind.form.reads trivial, Address.form?.reads slot, hasEnd]
  fits {json reference} read := by
    unfold ofJson? at read
    split at read
    · simp only [Option.bind_eq_bind, Option.bind_eq_some_iff] at read
      obtain ⟨source, sourceRead, target, targetRead, kind, -, slot, slotRead, checked⟩ := read
      split at checked
      · rename_i hasEnd
        obtain rfl := Option.some.inj checked
        exact ⟨⟨Address.form?.fits_of_optional? (by simp) sourceRead,
          Address.form?.fits_of_optional? (by simp) targetRead,
          Address.form?.fits_of_optional? (by simp) slotRead⟩, hasEnd⟩
      · cases checked
    · cases read

end Reference

namespace FlowEdge

theorem Kind.form : Form Kind.toJson Kind.ofJson? fun _ => True :=
  choice_form fun kind => by cases kind <;> decide

def Fits (edge : FlowEdge) : Prop := edge.source.Fits ∧ edge.target.Fits

instance : DecidablePred Fits := fun _ => inferInstanceAs (Decidable (_ ∧ _))

theorem form : Form toJson ofJson? Fits where
  plain fits := plain_record (by
    simpa using ⟨Place.form.plain fits.1, Place.form.plain fits.2, Kind.form.plain trivial,
      Reference.Kind.form?.plain (by simp)⟩)
  reads fits := by
    rw [ofJson?, toJson, fields?_record (by decide) rfl]
    simp [optional?_some, Place.form.reads fits.1, Place.form.reads fits.2,
      Kind.form.reads trivial, Reference.Kind.form?.reads]
  fits {json edge} read := by
    unfold ofJson? at read
    split at read
    · simp only [Option.bind_eq_bind, Option.bind_eq_some_iff] at read
      obtain ⟨source, sourceRead, target, targetRead, kind, -, cause, -, ⟨⟩⟩ := read
      exact ⟨Place.form.fits sourceRead, Place.form.fits targetRead⟩
    · cases read

end FlowEdge

theorem CallType.form : Form CallType.toJson CallType.ofJson? fun _ => True :=
  choice_form fun callType => by cases callType <;> decide

namespace Procedure

def Fits (procedure : Procedure) : Prop :=
  procedure.entry.Fits ∧ procedure.address.Fits ∧ ∀ block ∈ procedure.blocks, block.Fits

instance : DecidablePred Fits := fun _ => inferInstanceAs (Decidable (_ ∧ _))

theorem form : Form toJson ofJson? Fits where
  plain fits := plain_record (by
    simpa using ⟨Place.form.plain fits.1, Address.form.plain fits.2.1, string_form.plain trivial,
      CallType.form.plain trivial, Place.form.list.plain fits.2.2⟩)
  reads fits := by
    rw [ofJson?, toJson, fields?_record (by decide) rfl]
    simp [Place.form.reads fits.1, Address.form.reads fits.2.1, string_form.reads trivial,
      CallType.form.reads trivial, Place.form.list.reads fits.2.2]
  fits {json procedure} read := by
    unfold ofJson? at read
    split at read
    · simp only [Option.bind_eq_bind, Option.bind_eq_some_iff] at read
      obtain ⟨entry, entryRead, address, addressRead, name, -, callType, -, blocks, blocksRead, ⟨⟩⟩ :=
        read
      exact ⟨Place.form.fits entryRead, Address.form.fits addressRead, Place.form.list.fits blocksRead⟩
    · cases read

end Procedure

namespace DataItem

def Fits (item : DataItem) : Prop :=
  item.place.Fits ∧ item.location.Fits ∧ item.size < UInt64.size ∧
    ∀ owner ∈ item.owner, owner.Fits

instance : DecidablePred Fits := fun _ => inferInstanceAs (Decidable (_ ∧ _))

theorem form : Form toJson ofJson? Fits where
  plain fits := plain_record (by
    simpa using ⟨Place.form.plain fits.1, Address.form.plain fits.2.1, offset_form.plain fits.2.2.1,
      Place.form?.plain fits.2.2.2⟩)
  reads fits := by
    rw [ofJson?, toJson, fields?_record (by decide) rfl]
    simp [optional?_some, Place.form.reads fits.1, Address.form.reads fits.2.1,
      offset_form.reads fits.2.2.1, Place.form?.reads fits.2.2.2]
  fits {json item} read := by
    unfold ofJson? at read
    split at read
    · simp only [Option.bind_eq_bind, Option.bind_eq_some_iff] at read
      obtain ⟨place, placeRead, location, locationRead, size, sizeRead, owner, ownerRead, ⟨⟩⟩ := read
      exact ⟨Place.form.fits placeRead, Address.form.fits locationRead, offset_form.fits sizeRead,
        Place.form?.fits_of_optional? (by simp) ownerRead⟩
    · cases read

end DataItem

namespace Diagnostic

theorem Severity.form : Form Severity.toJson Severity.ofJson? fun _ => True :=
  choice_form fun severity => by cases severity <;> decide

theorem Code.form : Form Code.toJson Code.ofJson? fun _ => True :=
  choice_form fun code => by cases code <;> decide

def Fits (diagnostic : Diagnostic) : Prop := ∀ address ∈ diagnostic.location, address.Fits

instance : DecidablePred Fits := fun diagnostic =>
  inferInstanceAs (Decidable (∀ address ∈ diagnostic.location, address.Fits))

theorem form : Form toJson ofJson? Fits where
  plain fits := plain_record (by
    simpa using ⟨Address.form?.plain fits, Code.form.plain trivial, Severity.form.plain trivial,
      string_form.plain trivial⟩)
  reads fits := by
    rw [ofJson?, toJson, fields?_record (by decide) rfl]
    simp [optional?_some, Address.form?.reads fits, Code.form.reads trivial,
      Severity.form.reads trivial, string_form.reads trivial]
  fits {json diagnostic} read := by
    unfold ofJson? at read
    split at read
    · simp only [Option.bind_eq_bind, Option.bind_eq_some_iff] at read
      obtain ⟨location, locationRead, code, -, severity, -, message, -, ⟨⟩⟩ := read
      exact Address.form?.fits_of_optional? (by simp) locationRead
    · cases read

end Diagnostic

namespace Report

/-- All numbers in a report fit. -/
structure Fits (report : Report) : Prop where
  blocks : ∀ block ∈ report.blocks, block.Fits
  procedures : ∀ procedure ∈ report.procedures, procedure.Fits
  references : ∀ reference ∈ report.references, reference.Fits
  flow : ∀ edge ∈ report.flow, edge.Fits
  items : ∀ item ∈ report.items, item.Fits
  diagnostics : ∀ diagnostic ∈ report.diagnostics, diagnostic.Fits

theorem form : Form toJson ofJson? fun report =>
    report.Fits ∧ ∀ reference ∈ report.references, reference.hasEnd = true where
  plain {report} fits := by
    obtain ⟨fits, anchored⟩ := fits
    have references := Reference.form.list.plain fun reference member =>
      ⟨fits.references reference member, anchored reference member⟩
    exact plain_record (by
      simpa using ⟨Block.form.list.plain fits.blocks, Procedure.form.list.plain fits.procedures,
        references, FlowEdge.form.list.plain fits.flow, DataItem.form.list.plain fits.items,
        Diagnostic.form.list.plain fits.diagnostics⟩)
  reads {report} fits := by
    obtain ⟨fits, anchored⟩ := fits
    have references := Reference.form.list.reads fun reference member =>
      ⟨fits.references reference member, anchored reference member⟩
    rw [ofJson?, toJson, fields?_record (by decide) rfl]
    simp [Block.form.list.reads fits.blocks, Procedure.form.list.reads fits.procedures, references,
      FlowEdge.form.list.reads fits.flow, DataItem.form.list.reads fits.items,
      Diagnostic.form.list.reads fits.diagnostics]
  fits {json report} read := by
    unfold ofJson? at read
    split at read
    · simp only [Option.bind_eq_bind, Option.bind_eq_some_iff] at read
      obtain ⟨blocks, blocksRead, procedures, proceduresRead, references, referencesRead, flow,
        flowRead, items, itemsRead, diagnostics, diagnosticsRead, ⟨⟩⟩ := read
      have ended := Reference.form.list.fits referencesRead
      exact ⟨⟨Block.form.list.fits blocksRead, Procedure.form.list.fits proceduresRead,
        fun reference member => (ended reference member).1, FlowEdge.form.list.fits flowRead,
        DataItem.form.list.fits itemsRead, Diagnostic.form.list.fits diagnosticsRead⟩,
        fun reference member => (ended reference member).2⟩
    · cases read

theorem ofText_eq_ok_iff {text : String} {report : Report} :
    ofText text = .ok report ↔ ∃ json, Json.parse? text = some json ∧ ofJson? json = some report := by
  rw [← Option.bind_eq_some_iff, ofText]
  split
  · rename_i read
    rw [read, Except.ok.injEq, Option.some.injEq]
  · rename_i unread
    rw [unread]
    simp

/-- A report is read back from its text as it was, and a text is never read as one with a reference
that has no end. -/
theorem reports_survive_texts :
    (∀ report : Report, report.Fits →
      (∀ reference ∈ report.references, reference.hasEnd = true) →
      ofText report.text = .ok report) ∧
    ∀ text report, ofText text = .ok report →
      report.Fits ∧ ∀ reference ∈ report.references, reference.hasEnd = true := by
  constructor
  · intro report fits anchored
    rw [ofText_eq_ok_iff]
    exact ⟨report.toJson, Json.parse?_render Json.Style.pretty_legible (form.plain ⟨fits, anchored⟩),
      form.reads ⟨fits, anchored⟩⟩
  · intro text report read
    obtain ⟨json, -, read⟩ := ofText_eq_ok_iff.mp read
    exact form.fits read

/-- A report with names and messages that need escapes and with the greatest numbers that fit. -/
def sample : Report where
  blocks := [⟨0, 0, 18446744073709551615, .conditional⟩, ⟨4294967295, 2, 3, .incomplete⟩]
  procedures := [⟨⟨0, 0⟩, ⟨.group 4294967295, 65535⟩, "\"né\\\n\x01😀", .far, [⟨0, 0⟩, ⟨0, 7⟩]⟩]
  references := [⟨none, some ⟨.external 1, 0⟩, .entry, none⟩,
    ⟨some ⟨.segment 0, 2⟩, none, .indexedJump, some ⟨.frame 0x1000, 8⟩⟩]
  flow := [⟨⟨0, 0⟩, ⟨0, 7⟩, .branch, some .conditionalJump⟩, ⟨⟨0, 0⟩, ⟨0, 2⟩, .fallThrough, none⟩]
  items := [⟨⟨0, 8⟩, ⟨.segment 0, 8⟩, 2, some ⟨0, 0⟩⟩, ⟨⟨0, 9⟩, ⟨.frame 0, 9⟩, 0, none⟩]
  diagnostics := [⟨some ⟨.segment 0, 2⟩, .dynamicTarget, .message, "\t\x7f\r"⟩,
    ⟨none, .segmentOverlap, .error, ""⟩]

theorem sample_survives_text :
    sample.Fits ∧ (∀ reference ∈ sample.references, reference.hasEnd = true) ∧
      ofText sample.text = .ok sample ∧
      ∃ report, ofText sample.text = .ok report ∧ report.Fits ∧
        ∀ reference ∈ report.references, reference.hasEnd = true := by
  have fits : sample.Fits := ⟨by decide, by decide, by decide, by decide, by decide, by decide⟩
  have anchored : ∀ reference ∈ sample.references, reference.hasEnd = true := by decide
  have read := reports_survive_texts.1 sample fits anchored
  exact ⟨fits, anchored, read, sample, read, reports_survive_texts.2 sample.text sample read⟩

end Report

end RealMode
