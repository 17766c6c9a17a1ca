import Mathlib.Data.List.Basic
import Mathlib.Tactic.SplitIfs
import RealMode.Json.Parser
import RealMode.Json.Printer

/-! Strings and numbers as texts write them, read back. -/

set_option autoImplicit false

namespace RealMode.Json

/-! ## Strings -/

theorem ofHex?_control : ∀ unit < 0x20,
    Numeral.ofHex? ['0', '0', hexDigit (unit / 16), hexDigit unit] = some unit := by
  decide

theorem scanUnits_escaped {letter char : Char} (known : unescape? letter = some char)
    (rest : List Char) (units : List Nat) :
    scanUnits ('\\' :: letter :: rest) units = scanUnits rest (char.toNat :: units) := by
  have named : letter ≠ 'u' := by
    rintro rfl
    simp [unescape?] at known
  rw [scanUnits]
  · rw [known]
    rfl
  · simp [named]

theorem scanUnits_plain {char : Char} (plain : char ≠ '"') (single : char ≠ '\\')
    (visible : 0x20 ≤ char.toNat) (rest : List Char) (units : List Nat) :
    scanUnits (char :: rest) units = scanUnits rest (char.toNat :: units) := by
  rw [scanUnits]
  · rw [if_neg (Nat.not_lt.mpr visible)]
  · exact plain
  · simp [single]
  · simp [single]

/-- Reading undoes the escape of a character. -/
theorem scanUnits_escape (char : Char) (rest : List Char) (units : List Nat) :
    scanUnits (escape char ++ rest) units = scanUnits rest (char.toNat :: units) := by
  unfold escape
  split_ifs with quote backslash newline carriage tab backspace feed control
  -- Each of the letters behind a backslash stands for the character that has been escaped by it.
  iterate 7
    · subst char
      exact scanUnits_escaped rfl rest units
  · simp only [List.cons_append, List.nil_append, scanUnits]
    rw [ofHex?_control char.toNat control]
    rfl
  · exact scanUnits_plain quote backslash (Nat.not_lt.mp control) rest units

theorem scanUnits_escapes (chars rest : List Char) (units : List Nat) :
    scanUnits (chars.flatMap escape ++ '"' :: rest) units =
      some (units.reverse ++ chars.map Char.toNat, rest) := by
  induction chars generalizing units with
  | nil => simp [scanUnits]
  | cons char chars ih =>
      rw [List.flatMap_cons, List.append_assoc, scanUnits_escape, ih]
      simp

theorem not_surrogate (char : Char) :
    (isHighSurrogate char.toNat || isLowSurrogate char.toNat) = false := by
  have valid : char.toNat < 0xD800 ∨ 0xDFFF < char.toNat ∧ char.toNat < 0x110000 := char.valid
  simp only [isHighSurrogate, isLowSurrogate, Bool.or_eq_false_iff, Bool.and_eq_false_iff,
    decide_eq_false_iff_not]
  omega

/-- Characters are no halves of pairs. -/
theorem joinUnits?_chars (chars : List Char) : joinUnits? (chars.map Char.toNat) = some chars := by
  induction chars with
  | nil => rfl
  | cons char chars ih =>
      obtain ⟨high, low⟩ := Bool.or_eq_false_iff.mp (not_surrogate char)
      cases chars with
      | nil => simp [joinUnits?, high, low]
      | cons next chars =>
          simp only [List.map_cons] at ih ⊢
          simp [joinUnits?, high, low, ih]

/-- A string is read up to its closing quote and no further. -/
theorem literal?_render (contents : Contents) :
    ∃ body, renderContents contents = '"' :: body ∧
      ∀ rest, literal? (body ++ rest) = some (contents, rest) := by
  cases contents with
  | chars text =>
      refine ⟨_, rfl, fun rest => ?_⟩
      rw [List.append_assoc, List.singleton_append, literal?, scanUnits_escapes]
      simp [contentsOf, joinUnits?_chars]
  | unpaired => exact ⟨_, rfl, fun rest => rfl⟩

/-! ## Numbers -/

/-- What may stand behind a number, so that it ends there. -/
def Delimits : List Char → Prop
  | [] => True
  | char :: _ => char.isDigit = false ∧ char ≠ '.' ∧ char ≠ 'e' ∧ char ≠ 'E'

theorem Delimits.takeWhile {digits rest : List Char} (delimits : Delimits rest)
    (all : ∀ char ∈ digits, char.isDigit = true) :
    (digits ++ rest).takeWhile Char.isDigit = digits := by
  rw [List.takeWhile_append_of_pos all]
  cases rest with
  | nil => simp
  | cons char rest => simp [delimits.1]

theorem Delimits.dropWhile {digits rest : List Char} (delimits : Delimits rest)
    (all : ∀ char ∈ digits, char.isDigit = true) :
    (digits ++ rest).dropWhile Char.isDigit = rest := by
  rw [List.dropWhile_append_of_pos all]
  cases rest with
  | nil => rfl
  | cons char rest => simp [delimits.1]

theorem Delimits.digits? {digits rest : List Char} (delimits : Delimits rest)
    (all : ∀ char ∈ digits, char.isDigit = true) (some : digits ≠ []) :
    digits? (digits ++ rest) = .some (digits, rest) := by
  rw [Json.digits?, delimits.takeWhile all, delimits.dropWhile all]
  cases digits with
  | nil => exact absurd rfl some
  | cons digit digits => rfl

theorem Delimits.fraction? {rest : List Char} (delimits : Delimits rest) :
    fraction? rest = some ([], rest) := by
  rw [Json.fraction?]
  rintro _ rfl
  exact delimits.2.1 rfl

theorem Delimits.exponent? {rest : List Char} (delimits : Delimits rest) :
    exponent? rest = some ([], rest) := by
  rw [Json.exponent?]
  · rintro _ rfl
    exact delimits.2.2.1 rfl
  · rintro _ rfl
    exact delimits.2.2.2 rfl

theorem isDigit_toDigits (value : Nat) : ∀ char ∈ Nat.toDigits 10 value, char.isDigit = true :=
  fun _ member => Nat.isDigit_of_mem_toDigits (by decide) (by decide) member

theorem exists_toDigits (value : Nat) :
    ∃ digit digits, Nat.toDigits 10 value = digit :: digits ∧ digit.isDigit = true := by
  obtain ⟨digit, digits, same⟩ := List.exists_cons_of_ne_nil (@Nat.toDigits_ne_nil value 10)
  exact ⟨digit, digits, same, isDigit_toDigits value digit (by simp [same])⟩

theorem head?_toDigits {value : Nat} (positive : 0 < value) :
    (Nat.toDigits 10 value).head? ≠ some '0' := by
  induction value using Nat.strongRecOn with
  | ind value ih =>
      by_cases small : value < 10
      · simp [Nat.toDigits_of_lt_base small]
        omega
      · rw [Nat.toDigits_of_base_le (by decide) (Nat.not_lt.mp small),
          List.head?_append_of_ne_nil _ Nat.toDigits_ne_nil]
        exact ih (value / 10) (by omega) (by omega)

theorem not_leadingZero (value : Nat) :
    ¬((Nat.toDigits 10 value).length ≠ 1 ∧ (Nat.toDigits 10 value).head? = some '0') := by
  rintro ⟨long, leading⟩
  rcases Nat.eq_zero_or_pos value with rfl | positive
  · simp at long
  · exact head?_toDigits positive leading

/-- A natural number is read back up to what delimits it. There is no negative zero. -/
theorem Delimits.unsigned? {rest : List Char} (delimits : Delimits rest) {value : Nat}
    (short : (Nat.toDigits 10 value).length ≤ integerDigits) (negative : Bool)
    (signed : negative = true → 0 < value) :
    unsigned? negative (Nat.toDigits 10 value ++ rest) =
      some (.int (if negative then -value else value), rest) := by
  have regular : (negative && Nat.toDigits 10 value == ['0']) = false := by
    rw [Bool.and_eq_false_imp]
    intro isNegative
    rw [beq_eq_false_iff_ne]
    intro zero
    exact head?_toDigits (signed isNegative) (by rw [zero]; rfl)
  rw [Json.unsigned?, delimits.digits? (isDigit_toDigits value) Nat.toDigits_ne_nil]
  simp only [Option.bind_eq_bind, Option.bind_some, if_neg (not_leadingZero value),
    delimits.fraction?, delimits.exponent?]
  rw [if_pos (by simp [short, regular]), Nat.ofDigitChars_ten_toDigits]

/-- An integer is read back up to what delimits it. -/
theorem Delimits.number? {rest : List Char} (delimits : Delimits rest) {value : Int}
    (short : (Nat.toDigits 10 value.natAbs).length ≤ integerDigits) :
    number? (renderInt value ++ rest) = some (.int value, rest) := by
  cases value with
  | ofNat magnitude =>
      obtain ⟨digit, digits, same, isDigit⟩ := exists_toDigits magnitude
      have read := delimits.unsigned? short false (by simp)
      rw [renderInt, Json.number?]
      · exact read
      · intro _ signed
        rw [same, List.cons_append, List.cons.injEq] at signed
        rw [signed.1] at isDigit
        cases isDigit
  | negSucc rest => exact delimits.unsigned? short true fun _ => Nat.succ_pos rest

end RealMode.Json
