import RealMode.Proofs.Json.Literal

/-! Texts of JSON values, read back.

Whatever blanks a style puts between the parts of a value, reading skips them. A value is read up to
its end and no further, so it does not matter what follows. -/

set_option autoImplicit false

namespace RealMode.Json

/-- The values that are told apart by their texts. Other numbers than integers are not among them,
since their spelling may be anything. -/
inductive Plain : Json → Prop where
  | null : Plain .null
  | bool (value : Bool) : Plain (.bool value)
  | int {value : Int} : (Nat.toDigits 10 value.natAbs).length ≤ integerDigits → Plain (.int value)
  | str (contents : Contents) : Plain (.str contents)
  | arr {items : List Json} : (∀ item ∈ items, Plain item) → Plain (.arr items)
  | obj {members : List (Contents × Json)} : (∀ member ∈ members, Plain member.2) →
      Plain (.obj members)

/-! ## Blanks -/

/-- Nothing but blanks. -/
def Blank (text : List Char) : Prop := ∀ char ∈ text, isSpace char = true

/-- A style with nothing but blanks between the parts of a value. -/
structure Style.Legible (style : Style) : Prop where
  gap : ∀ depth, Blank (style.gap depth)
  colon : ∃ blanks, style.colon = ':' :: blanks ∧ Blank blanks

theorem Style.pretty_legible : Style.pretty.Legible where
  gap depth := by simp [Blank, Style.pretty, isSpace]
  colon := ⟨[' '], rfl, by simp [Blank, isSpace]⟩

section Blanks

variable {blanks : List Char}

theorem skipSpace_blank (blank : Blank blanks) (text : List Char) :
    skipSpace (blanks ++ text) = skipSpace text :=
  List.dropWhile_append_of_pos blank

theorem skipSpace_visible {char : Char} (visible : isSpace char = false) (text : List Char) :
    skipSpace (char :: text) = char :: text := by
  simp [skipSpace, visible]

theorem value?_blank (blank : Blank blanks) (fuel : Nat) (text : List Char) :
    value? fuel (blanks ++ text) = value? fuel text := by
  cases fuel with
  | zero => rfl
  | succ fuel => simp only [value?, skipSpace_blank blank]

theorem items?_blank (blank : Blank blanks) (fuel : Nat) (text : List Char) :
    items? fuel (blanks ++ text) = items? fuel text := by
  cases fuel with
  | zero => rfl
  | succ fuel => simp only [items?, value?_blank blank]

theorem members?_blank (blank : Blank blanks) (fuel : Nat) (text : List Char) :
    members? fuel (blanks ++ text) = members? fuel text := by
  cases fuel with
  | zero => rfl
  | succ fuel => simp only [members?, key?, skipSpace_blank blank]

/-- Blanks delimit a number, and so do the marks that end an element. -/
theorem Blank.delimits (blank : Blank blanks) {mark : Char} (ends : Delimits [mark])
    (rest : List Char) : Delimits (blanks ++ mark :: rest) := by
  cases blanks with
  | nil => exact ends
  | cons char blanks =>
      have space := blank char List.mem_cons_self
      simp only [isSpace, Bool.or_eq_true, decide_eq_true_eq] at space
      rcases space with ((rfl | rfl) | rfl) | rfl <;> simp [Delimits]

end Blanks

/-! ## Values -/

section Values

variable {style : Style} {fuel : Nat} {rest : List Char}

/-- The characters with which an integer starts. -/
def startsNumber (char : Char) : Bool := char.isDigit || char = '-'

theorem ne_of_startsNumber {char mark : Char} (starts : startsNumber char = true)
    (other : startsNumber mark = false) : char ≠ mark := by
  rintro rfl
  rw [starts] at other
  cases other

theorem isSpace_of_startsNumber {char : Char} (starts : startsNumber char = true) :
    isSpace char = false := by
  rw [Bool.eq_false_iff]
  intro space
  simp only [isSpace, Bool.or_eq_true, decide_eq_true_eq] at space
  rcases space with ((same | same) | same) | same <;> exact ne_of_startsNumber starts rfl same

theorem exists_renderInt (value : Int) :
    ∃ char chars, renderInt value = char :: chars ∧ startsNumber char = true := by
  cases value with
  | ofNat magnitude =>
      obtain ⟨digit, digits, same, isDigit⟩ := exists_toDigits magnitude
      exact ⟨digit, digits, same, by simp [startsNumber, isDigit]⟩
  | negSucc rest => exact ⟨'-', _, rfl, rfl⟩

theorem keyword?_eq_none {char : Char} (starts : startsNumber char = true) (text : List Char) :
    keyword? (char :: text) = none := by
  rw [keyword?]
  all_goals
    rintro _ same
    exact ne_of_startsNumber starts rfl (List.cons.inj same).1

theorem value?_number {char : Char} (starts : startsNumber char = true) (text : List Char) :
    value? (fuel + 1) (char :: text) = number? (char :: text) := by
  rw [value?, skipSpace_visible (isSpace_of_startsNumber starts)]
  split
  iterate 3
    · rename_i same
      exact absurd (List.cons.inj same).1 (ne_of_startsNumber starts rfl)
  · rw [keyword?_eq_none starts, Option.none_or]

theorem value?_str (contents : Contents) :
    value? (fuel + 1) (renderContents contents ++ rest) = some (.str contents, rest) := by
  obtain ⟨body, same, reads⟩ := literal?_render contents
  rw [same, List.cons_append, value?, skipSpace_visible rfl]
  simp [reads]

theorem key?_member (legible : style.Legible) (key : Contents) :
    key? (renderContents key ++ style.colon ++ rest) = some (key, style.colon.tail ++ rest) := by
  obtain ⟨body, same, reads⟩ := literal?_render key
  obtain ⟨blanks, colon, -⟩ := legible.colon
  rw [same, colon, List.append_assoc, List.cons_append, key?, skipSpace_visible rfl]
  simp only [reads, Option.bind_eq_bind, Option.bind_some, List.cons_append]
  rfl

/-- The text of a value starts with a mark that is no blank and ends no array. -/
theorem Plain.exists_head {value : Json} (plain : value.Plain) (style : Style) (depth : Nat) :
    ∃ char chars, renderAt style depth value = char :: chars ∧ isSpace char = false ∧
      char ≠ ']' := by
  cases plain with
  | null => exact ⟨'n', _, by rw [renderAt], rfl, by decide⟩
  | bool value =>
      cases value with
      | true => exact ⟨'t', _, by rw [renderAt], rfl, by decide⟩
      | false => exact ⟨'f', _, by rw [renderAt], rfl, by decide⟩
  | @int value _ =>
      obtain ⟨char, chars, same, starts⟩ := exists_renderInt value
      exact ⟨char, chars, by rw [renderAt, same], isSpace_of_startsNumber starts,
        ne_of_startsNumber starts rfl⟩
  | str contents =>
      obtain ⟨body, same, -⟩ := literal?_render contents
      exact ⟨'"', body, by rw [renderAt, same], rfl, by decide⟩
  | @arr items _ =>
      cases items with
      | nil => exact ⟨'[', _, by rw [renderAt], rfl, by decide⟩
      | cons item items => exact ⟨'[', _, by rw [renderAt], rfl, by decide⟩
  | @obj members _ =>
      cases members with
      | nil => exact ⟨'\x7b', _, by rw [renderAt], rfl, by decide⟩
      | cons member members => exact ⟨'\x7b', _, by rw [renderAt], rfl, by decide⟩

/-- The text of a value is read up to its end, if there are two steps for each of its characters. -/
def ReadsBack (style : Style) (value : Json) : Prop :=
  ∀ depth fuel rest, Delimits rest → 2 * (renderAt style depth value).length ≤ fuel →
    value? fuel (renderAt style depth value ++ rest) = some (value, rest)

section Steps

variable {depth : Nat} {item : Json} {key : Contents} {text more : List Char}

theorem items?_last (reads : ReadsBack style item) (ends : Delimits text)
    (enough : 2 * (renderAt style depth item).length ≤ fuel) (closes : skipSpace text = ']' :: rest) :
    items? (fuel + 1) (renderAt style depth item ++ text) = some ([item], rest) := by
  simp only [items?, reads depth fuel text ends enough, Option.bind_eq_bind, Option.bind_some, closes]

theorem items?_next (reads : ReadsBack style item) (ends : Delimits text)
    (enough : 2 * (renderAt style depth item).length ≤ fuel) (comma : skipSpace text = ',' :: more)
    {items : List Json} (onward : items? fuel more = some (items, rest)) :
    items? (fuel + 1) (renderAt style depth item ++ text) = some (item :: items, rest) := by
  simp only [items?, reads depth fuel text ends enough, Option.bind_eq_bind, Option.bind_some, comma,
    onward]

theorem value?_member (legible : style.Legible) (reads : ReadsBack style item) (ends : Delimits text)
    (enough : 2 * (renderMember style depth (key, item)).length ≤ fuel) :
    ∃ behind, key? (renderMember style depth (key, item) ++ text) = some (key, behind) ∧
      value? fuel behind = some (item, text) := by
  obtain ⟨blanks, colon, blank⟩ := legible.colon
  rw [renderMember, List.length_append, List.length_append] at enough
  refine ⟨blanks ++ (renderAt style depth item ++ text), ?_, ?_⟩
  · rw [renderMember, List.append_assoc, key?_member legible, colon, List.tail_cons]
  · rw [value?_blank blank]
    exact reads depth fuel text ends (by omega)

theorem members?_last (legible : style.Legible) (reads : ReadsBack style item) (ends : Delimits text)
    (enough : 2 * (renderMember style depth (key, item)).length ≤ fuel)
    (closes : skipSpace text = '\x7d' :: rest) :
    members? (fuel + 1) (renderMember style depth (key, item) ++ text) =
      some ([(key, item)], rest) := by
  obtain ⟨behind, keyRead, valueRead⟩ := value?_member legible reads ends enough
  simp only [members?, keyRead, valueRead, Option.bind_eq_bind, Option.bind_some, closes]

theorem members?_next (legible : style.Legible) (reads : ReadsBack style item) (ends : Delimits text)
    (enough : 2 * (renderMember style depth (key, item)).length ≤ fuel)
    (comma : skipSpace text = ',' :: more) {members : List (Contents × Json)}
    (onward : members? fuel more = some (members, rest)) :
    members? (fuel + 1) (renderMember style depth (key, item) ++ text) =
      some ((key, item) :: members, rest) := by
  obtain ⟨behind, keyRead, valueRead⟩ := value?_member legible reads ends enough
  simp only [members?, keyRead, valueRead, Option.bind_eq_bind, Option.bind_some, comma, onward]

end Steps

/-- The elements of an array are read up to its bracket. An element takes a step more than its value,
and there is a comma or a bracket for it. -/
theorem items?_render (legible : style.Legible) {depth : Nat} {blanks : List Char}
    (blank : Blank blanks) {item : Json} {items : List Json} (first : ReadsBack style item)
    (others : ∀ item ∈ items, ReadsBack style item)
    (enough : 2 * ((renderAt style depth item).length + (renderItems style depth items).length) + 1 ≤
      fuel) :
    items? fuel (renderAt style depth item ++ (renderItems style depth items ++
      (blanks ++ ']' :: rest))) = some (item :: items, rest) := by
  induction items generalizing item fuel with
  | nil =>
      obtain ⟨fuel, rfl⟩ := Nat.exists_eq_add_one_of_ne_zero (by omega : fuel ≠ 0)
      have ends := blank.delimits (by simp [Delimits] : Delimits [']']) rest
      rw [renderItems, List.nil_append]
      exact items?_last first ends (by omega) (skipSpace_blank blank _)
  | cons next items ih =>
      obtain ⟨fuel, rfl⟩ := Nat.exists_eq_add_one_of_ne_zero (by omega : fuel ≠ 0)
      rw [renderItems, List.length_cons, List.length_append, List.length_append] at enough
      have left : 2 * ((renderAt style depth next).length +
          (renderItems style depth items).length) + 1 ≤ fuel := by omega
      have onward := ih (others next List.mem_cons_self)
        (fun item member => others item (List.mem_cons_of_mem _ member)) left
      rw [renderItems, List.cons_append, List.append_assoc, List.append_assoc]
      refine items?_next first (by simp [Delimits]) (by omega) rfl ?_
      rw [items?_blank (legible.gap depth)]
      exact onward

/-- The members of an object are read up to its brace. -/
theorem members?_render (legible : style.Legible) {depth : Nat} {blanks : List Char}
    (blank : Blank blanks) {key : Contents} {item : Json} {members : List (Contents × Json)}
    (first : ReadsBack style item) (others : ∀ member ∈ members, ReadsBack style member.2)
    (enough : 2 * ((renderMember style depth (key, item)).length +
      (renderMembers style depth members).length) + 1 ≤ fuel) :
    members? fuel (renderMember style depth (key, item) ++ (renderMembers style depth members ++
      (blanks ++ '\x7d' :: rest))) = some ((key, item) :: members, rest) := by
  induction members generalizing key item fuel with
  | nil =>
      obtain ⟨fuel, rfl⟩ := Nat.exists_eq_add_one_of_ne_zero (by omega : fuel ≠ 0)
      have ends := blank.delimits (by simp [Delimits] : Delimits ['\x7d']) rest
      rw [renderMembers, List.nil_append]
      exact members?_last legible first ends (by omega) (skipSpace_blank blank _)
  | cons next members ih =>
      obtain ⟨fuel, rfl⟩ := Nat.exists_eq_add_one_of_ne_zero (by omega : fuel ≠ 0)
      rw [renderMembers, List.length_cons, List.length_append, List.length_append] at enough
      have left : 2 * ((renderMember style depth next).length +
          (renderMembers style depth members).length) + 1 ≤ fuel := by omega
      have onward := ih (others next List.mem_cons_self)
        (fun member inside => others member (List.mem_cons_of_mem _ inside)) left
      rw [renderMembers, List.cons_append, List.append_assoc, List.append_assoc]
      refine members?_next legible first (by simp [Delimits]) (by omega) rfl ?_
      rw [members?_blank (legible.gap depth)]
      exact onward

theorem value?_arr {char : Char} (visible : isSpace char = false) (filled : char ≠ ']')
    {text blanks : List Char} (blank : Blank blanks) {items : List Json}
    (read : items? fuel (char :: text) = some (items, rest)) :
    value? (fuel + 1) ('[' :: (blanks ++ char :: text)) = some (.arr items, rest) := by
  rw [value?, skipSpace_visible rfl]
  simp only [skipSpace_blank blank, skipSpace_visible visible]
  split
  · rename_i same
    exact absurd (List.cons.inj same).1 filled
  · rw [read]
    rfl

theorem value?_obj {char : Char} (visible : isSpace char = false) (filled : char ≠ '\x7d')
    {text blanks : List Char} (blank : Blank blanks) {members : List (Contents × Json)}
    (read : members? fuel (char :: text) = some (members, rest)) :
    value? (fuel + 1) ('\x7b' :: (blanks ++ char :: text)) = some (.obj members, rest) := by
  rw [value?, skipSpace_visible rfl]
  simp only [skipSpace_blank blank, skipSpace_visible visible]
  split
  · rename_i same
    exact absurd (List.cons.inj same).1 filled
  · rw [read]
    rfl

/-- The text of a value is not empty, so there is a step to read it. -/
theorem Plain.readsBack_of {value : Json} (plain : value.Plain)
    (reads : ∀ depth fuel rest, Delimits rest →
      2 * (renderAt style depth value).length ≤ fuel + 1 →
      value? (fuel + 1) (renderAt style depth value ++ rest) = some (value, rest)) :
    ReadsBack style value := by
  intro depth fuel rest ends enough
  obtain ⟨char, chars, same, -⟩ := plain.exists_head style depth
  have positive : 0 < (renderAt style depth value).length := by simp [same]
  obtain ⟨fuel, rfl⟩ := Nat.exists_eq_add_one_of_ne_zero (by omega : fuel ≠ 0)
  exact reads depth fuel rest ends enough

theorem ReadsBack.arr (legible : style.Legible) {items : List Json}
    (plain : ∀ item ∈ items, item.Plain) (reads : ∀ item ∈ items, ReadsBack style item) :
    ReadsBack style (.arr items) := by
  refine (Plain.arr plain).readsBack_of fun depth fuel rest ends enough => ?_
  cases items with
  | nil =>
      rw [renderAt]
      rfl
  | cons item items =>
      rw [renderAt] at enough ⊢
      simp only [List.length_cons, List.length_append] at enough
      have left : 2 * ((renderAt style (depth + 1) item).length +
          (renderItems style (depth + 1) items).length) + 1 ≤ fuel := by omega
      have read : items? fuel _ = some (item :: items, rest) :=
        items?_render legible (legible.gap depth) (reads item List.mem_cons_self)
          (fun other member => reads other (List.mem_cons_of_mem _ member)) left
      obtain ⟨char, chars, same, visible, filled⟩ :=
        (plain item List.mem_cons_self).exists_head style (depth + 1)
      rw [same, List.cons_append] at read
      have whole := value?_arr visible filled (legible.gap (depth + 1)) read
      simpa [same] using whole

theorem ReadsBack.obj (legible : style.Legible) {members : List (Contents × Json)}
    (plain : ∀ member ∈ members, member.2.Plain)
    (reads : ∀ member ∈ members, ReadsBack style member.2) : ReadsBack style (.obj members) := by
  refine (Plain.obj plain).readsBack_of fun depth fuel rest ends enough => ?_
  cases members with
  | nil =>
      rw [renderAt]
      rfl
  | cons member members =>
      obtain ⟨key, item⟩ := member
      rw [renderAt] at enough ⊢
      simp only [List.length_cons, List.length_append] at enough
      have left : 2 * ((renderMember style (depth + 1) (key, item)).length +
          (renderMembers style (depth + 1) members).length) + 1 ≤ fuel := by omega
      have read : members? fuel _ = some ((key, item) :: members, rest) :=
        members?_render legible (legible.gap depth) (reads (key, item) List.mem_cons_self)
          (fun other member => reads other (List.mem_cons_of_mem _ member)) left
      obtain ⟨body, same, -⟩ := literal?_render key
      have opening : renderMember style (depth + 1) (key, item) =
          '"' :: (body ++ (style.colon ++ renderAt style (depth + 1) item)) := by
        simp [renderMember, same]
      rw [opening, List.cons_append] at read
      have whole := value?_obj rfl (by decide) (legible.gap (depth + 1)) read
      simpa [opening] using whole

theorem Plain.readsBack (legible : style.Legible) {value : Json} (plain : value.Plain) :
    ReadsBack style value := by
  induction plain with
  | null =>
      refine Plain.null.readsBack_of fun depth fuel rest ends enough => ?_
      rw [renderAt]
      rfl
  | bool value =>
      refine (Plain.bool value).readsBack_of fun depth fuel rest ends enough => ?_
      cases value <;> rw [renderAt] <;> rfl
  | @int value short =>
      refine (Plain.int short).readsBack_of fun depth fuel rest ends enough => ?_
      obtain ⟨char, chars, same, starts⟩ := exists_renderInt value
      have read := ends.number? short
      rw [same, List.cons_append] at read
      rw [renderAt, same, List.cons_append, value?_number starts, read]
  | str contents =>
      refine (Plain.str contents).readsBack_of fun depth fuel rest ends enough => ?_
      rw [renderAt]
      exact value?_str contents
  | arr plain ih => exact .arr legible plain ih
  | obj plain ih => exact .obj legible plain ih

end Values

/-- What is rendered in a legible style is read back. -/
theorem parse?_render {style : Style} (legible : style.Legible) {value : Json}
    (plain : value.Plain) : parse? (value.render style) = some value := by
  have read := plain.readsBack legible 0 (2 * (renderAt style 0 value).length + 2) [] trivial
    (Nat.le_add_right _ _)
  rw [List.append_nil] at read
  simp only [parse?, render, String.toList_ofList]
  rw [read]
  rfl

end RealMode.Json
