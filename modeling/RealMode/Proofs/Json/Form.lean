import RealMode.Json.Record
import RealMode.Proofs.Json.Text

/-! JSON forms that are read back.

A form writes values of a type and reads them. It keeps what it writes, within the bounds that it
reads: whatever is read lies within them. Forms of parts make forms of lists, of values that may be
missing, and of records. -/

set_option autoImplicit false

namespace RealMode.Json

/-- Values are written as `write` does and read as `read` does. Those that fit are read back, and
only those are read. -/
structure Form {α : Type} (write : α → Json) (read : Json → Option α) (Fits : α → Prop) : Prop where
  plain : ∀ {value}, Fits value → (write value).Plain
  reads : ∀ {value}, Fits value → read (write value) = some value
  fits : ∀ {json value}, read json = some value → Fits value

/-! ## Numbers, strings and names -/

theorem natBelow_form {bound : Nat} (short : (Nat.toDigits 10 bound).length ≤ integerDigits) :
    Form .ofNat (natBelow? bound) (· < bound) where
  plain {value} small := by
    have low := (Nat.length_toDigits_le_iff (by decide) (by decide)).mp short
    exact .int ((Nat.length_toDigits_le_iff (by decide) (by decide)).mpr (Nat.lt_trans small low))
  reads small := by simp [ofNat, natBelow?, small]
  fits {json value} read := by
    unfold natBelow? at read
    split at read
    · split at read
      · rename_i small
        rw [← Option.some.inj read]
        exact small
      · cases read
    · cases read

theorem id_form : Form .ofNat id? (· < UInt32.size) := natBelow_form (by decide)

theorem offset_form : Form .ofNat offset? (· < UInt64.size) := natBelow_form (by decide)

theorem word_form : Form (fun word : UInt16 => .ofNat word.toNat) word? fun _ => True where
  plain {word} _ := (natBelow_form (by decide)).plain word.toNat_lt
  reads {word} _ := by
    rw [word?, (natBelow_form (by decide)).reads word.toNat_lt]
    simp
  fits _ := trivial

theorem string_form : Form .ofString string? fun _ => True where
  plain _ := .str _
  reads _ := rfl
  fits _ := trivial

/-- A choice between names is kept if no name stands for two choices. -/
theorem choice_form {α : Type} {name : α → String} {choices : List α}
    (complete : ∀ choice, choices.find? (fun other => name other = name choice) = some choice) :
    Form (fun choice => .ofString (name choice)) (choice? name choices) fun _ => True where
  plain _ := .str _
  reads {choice} _ := by
    simp [choice?, ofString, plainName?, variant?, complete]
  fits _ := trivial

/-! ## Lists and missing values -/

section Parts

variable {α : Type} {write : α → Json} {read : Json → Option α} {Fits : α → Prop}

theorem Form.fits_of_mapM (form : Form write read Fits) {items : List Json} {values : List α}
    (listed : items.mapM read = some values) : ∀ value ∈ values, Fits value := by
  induction items generalizing values with
  | nil =>
      obtain rfl : [] = values := Option.some.inj listed
      simp
  | cons item items ih =>
      simp only [List.mapM_cons, Option.bind_eq_bind, Option.bind_eq_some_iff] at listed
      obtain ⟨first, firstRead, others, othersRead, same⟩ := listed
      obtain rfl : first :: others = values := Option.some.inj same
      simp only [List.mem_cons, forall_eq_or_imp]
      exact ⟨form.fits firstRead, ih othersRead⟩

theorem Form.list (form : Form write read Fits) :
    Form (.ofList write) (list? read) fun values => ∀ value ∈ values, Fits value where
  plain fits := by
    refine .arr fun item member => ?_
    obtain ⟨value, inside, rfl⟩ := List.mem_map.mp member
    exact form.plain (fits value inside)
  reads {values} fits := by
    rw [ofList, list?]
    induction values with
    | nil => rfl
    | cons value values ih =>
        rw [List.map_cons, List.mapM_cons, form.reads (fits value List.mem_cons_self),
          ih fun other member => fits other (List.mem_cons_of_mem _ member)]
        rfl
  fits {json values} read := by
    unfold list? at read
    split at read
    · exact form.fits_of_mapM read
    · cases read

theorem Form.nullable (form : Form write read Fits) (filled : ∀ value, write value ≠ .null) :
    Form (.ofOption write) (nullable? read) fun value? => ∀ value ∈ value?, Fits value where
  plain {value?} fits := by
    cases value? with
    | none => exact .null
    | some value => exact form.plain (fits value rfl)
  reads {value?} fits := by
    cases value? with
    | none => rfl
    | some value =>
        rw [ofOption, nullable?, form.reads (fits value rfl), Option.map_some]
        exact filled value
  fits {json value?} read := by
    unfold nullable? at read
    split at read
    · obtain rfl : none = value? := Option.some.inj read
      simp
    · obtain ⟨value, valueRead, rfl⟩ := Option.map_eq_some_iff.mp read
      rintro _ ⟨⟩
      exact form.fits valueRead

theorem optional?_some (json : Json) : optional? read (some json) = nullable? read json := rfl

theorem Form.fits_of_optional? {write? : Option α → Json} {Fits? : Option α → Prop}
    (form : Form write? (nullable? read) Fits?) (none : Fits? none) {field : Option Json}
    {value? : Option α} (given : optional? read field = some value?) : Fits? value? := by
  cases field with
  | none =>
      obtain rfl : Option.none = value? := Option.some.inj given
      exact none
  | some json => exact form.fits given

end Parts

/-! ## Records -/

theorem filter_named {members : List (String × Json)} (nodup : (members.map Prod.fst).Nodup)
    {member : String × Json} (inside : member ∈ members) :
    (members.map fun member => (Contents.chars member.1, member.2)).filter
      (·.1 = .chars member.1) = [(.chars member.1, member.2)] := by
  induction members with
  | nil => cases inside
  | cons first rest ih =>
      obtain ⟨fresh, others⟩ := List.nodup_cons.mp nodup
      rw [List.map_cons]
      rcases List.mem_cons.mp inside with rfl | later
      · rw [List.filter_cons_of_pos (by simp), List.filter_eq_nil_iff.mpr]
        rintro _ given
        obtain ⟨other, listed, rfl⟩ := List.mem_map.mp given
        have different : other.1 ≠ member.1 := fun same =>
          fresh (same ▸ List.mem_map_of_mem listed)
        simpa using different
      · have different : first.1 ≠ member.1 := fun same =>
          fresh (same ▸ List.mem_map_of_mem later)
        rw [List.filter_cons_of_neg (by simpa using different)]
        exact ih others later

theorem mapM_member? {all : List (Contents × Json)} {layout : Layout} {members : List (String × Json)}
    (names : layout.map Prod.fst = members.map Prod.fst)
    (found : ∀ member ∈ members,
      all.filter (·.1 = .chars member.1) = [(.chars member.1, member.2)]) :
    layout.mapM (member? all) = some (members.map fun member => some member.2) := by
  induction layout generalizing members with
  | nil =>
      obtain rfl : members = [] := by simpa using names.symm
      rfl
  | cons field layout ih =>
      cases members with
      | nil => cases names
      | cons member members =>
          rw [List.map_cons, List.map_cons, List.cons.injEq] at names
          have first : member? all field = some (some member.2) := by
            rw [member?, names.1, found member List.mem_cons_self]
          rw [List.mapM_cons, first,
            ih names.2 fun other listed => found other (List.mem_cons_of_mem _ listed)]
          rfl

/-- The fields of a record are found under their names. -/
theorem fields?_record {layout : Layout} {members : List (String × Json)}
    (nodup : (layout.map Prod.fst).Nodup) (names : layout.map Prod.fst = members.map Prod.fst) :
    (record members).fields? layout = some (members.map fun member => some member.2) := by
  rw [record, fields?, if_neg (by simp)]
  rw [names] at nodup
  exact mapM_member? names fun member inside => filter_named nodup inside

theorem plain_record {members : List (String × Json)} (plain : ∀ member ∈ members, member.2.Plain) :
    (record members).Plain := by
  refine .obj fun member inside => ?_
  obtain ⟨named, given, rfl⟩ := List.mem_map.mp inside
  exact plain named given

end RealMode.Json
