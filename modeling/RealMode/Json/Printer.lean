import RealMode.Json.Basic

/-! Texts of JSON values. -/

set_option autoImplicit false

namespace RealMode.Json

/-- The blanks between the parts of an array or object. -/
structure Style where
  /-- What stands before an element at a depth of nesting, and before the closing bracket. -/
  gap : Nat → List Char
  colon : List Char

/-- No blanks at all. -/
def Style.compact : Style := ⟨fun _ => [], [':']⟩

/-- One element a line, indented by two blanks for each level. -/
def Style.pretty : Style := ⟨fun depth => '\n' :: List.replicate (2 * depth) ' ', [':', ' ']⟩

/-- A digit of a lower-case hexadecimal number. -/
def hexDigit (value : Nat) : Char := Nat.digitChar (value % 16)

/-- A character inside a string: quotes, backslashes and control characters are escaped. -/
def escape (char : Char) : List Char :=
  if char = '"' then ['\\', '"']
  else if char = '\\' then ['\\', '\\']
  else if char = '\n' then ['\\', 'n']
  else if char = '\r' then ['\\', 'r']
  else if char = '\t' then ['\\', 't']
  else if char = '\x08' then ['\\', 'b']
  else if char = '\x0c' then ['\\', 'f']
  else if char.toNat < 0x20 then
    ['\\', 'u', '0', '0', hexDigit (char.toNat / 16), hexDigit char.toNat]
  else [char]

def renderContents : Contents → List Char
  | .chars text => '"' :: (text.toList.flatMap escape ++ ['"'])
  | .unpaired => ['"', '\\', 'u', 'd', '8', '0', '0', '"']

def renderInt (value : Int) : List Char :=
  match value with
  | .ofNat magnitude => Nat.toDigits 10 magnitude
  | .negSucc rest => '-' :: Nat.toDigits 10 (rest + 1)

mutual
/-- The text of a value at a depth of nesting. -/
def renderAt (style : Style) (depth : Nat) : Json → List Char
  | .null => ['n', 'u', 'l', 'l']
  | .bool true => ['t', 'r', 'u', 'e']
  | .bool false => ['f', 'a', 'l', 's', 'e']
  | .int value => renderInt value
  | .real spelling => spelling.toList
  | .str contents => renderContents contents
  | .arr [] => ['[', ']']
  | .arr (item :: rest) =>
      '[' :: (style.gap (depth + 1) ++ renderAt style (depth + 1) item ++
        (renderItems style (depth + 1) rest ++ (style.gap depth ++ [']'])))
  | .obj [] => ['\x7b', '\x7d']
  | .obj (member :: rest) =>
      '\x7b' :: (style.gap (depth + 1) ++ renderMember style (depth + 1) member ++
        (renderMembers style (depth + 1) rest ++ (style.gap depth ++ ['\x7d'])))

/-- The texts of the elements behind the first. -/
def renderItems (style : Style) (depth : Nat) : List Json → List Char
  | [] => []
  | item :: rest =>
      ',' :: (style.gap depth ++ renderAt style depth item ++ renderItems style depth rest)

def renderMember (style : Style) (depth : Nat) : Contents × Json → List Char
  | (key, value) => renderContents key ++ style.colon ++ renderAt style depth value

/-- The texts of the members behind the first. -/
def renderMembers (style : Style) (depth : Nat) : List (Contents × Json) → List Char
  | [] => []
  | member :: rest =>
      ',' :: (style.gap depth ++ renderMember style depth member ++ renderMembers style depth rest)
end

def render (style : Style) (value : Json) : String := String.ofList (renderAt style 0 value)

def compact (value : Json) : String := value.render .compact

def pretty (value : Json) : String := value.render .pretty

end RealMode.Json
