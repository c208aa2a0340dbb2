import Cascades.Json.Reader

/-!
# Writing JSON

A value is written without blanks. In strings, quotation marks, backslashes and control characters
are escaped.
-/

namespace Cascades

namespace Json

/-- The four hexadecimal digits of a control character. -/
def hexDigits (number : Nat) : List Char :=
  [number / 4096 % 16, number / 256 % 16, number / 16 % 16, number % 16].map Nat.digitChar

/-- A character as it stands in a string. -/
def encodeChar (char : Char) : List Char :=
  if char = quoteMark ∨ char = backslash then [backslash, char]
  else if char.toNat < 0x20 then backslash :: 'u' :: hexDigits char.toNat
  else [char]

/-- The text of a string, with its marks. -/
def stringText (value : String) : String :=
  String.ofList (quoteMark :: (value.toList.flatMap encodeChar ++ [quoteMark]))

mutual

/-- The text of a value. -/
def text : Json → String
  | .null => "null"
  | .bool value => if value then "true" else "false"
  | .number numeral => numeral.text
  | .string value => stringText value
  | .array items => "[" ++ ",".intercalate (itemTexts items) ++ "]"
  | .object fields => "\x7b" ++ ",".intercalate (fieldTexts fields) ++ "\x7d"

/-- The texts of the items of an array. -/
def itemTexts : List Json → List String
  | [] => []
  | item :: rest => item.text :: itemTexts rest

/-- The texts of the fields of an object, with their names. -/
def fieldTexts : List (String × Json) → List String
  | [] => []
  | (name, value) :: rest => (stringText name ++ ":" ++ value.text) :: fieldTexts rest

end

end Json

end Cascades
