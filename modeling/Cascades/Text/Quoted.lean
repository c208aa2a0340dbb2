import Cascades.Text.Escaped

/-!
# Quoted texts

A quoted text stands between double quotes. Quotes and backslashes in it follow a backslash, common
controls have their letter, and all other characters that cannot be shown as they are appear as
`\u` with their code point in braces.
-/

namespace Cascades

/-- Types whose values have a text in messages. -/
class Quoted (V : Type) where
  text : V → String

namespace Text

/-- The code point of a character, in hexadecimal digits. -/
def hexadecimal (character : Char) : List Char :=
  Nat.toDigits 16 character.toNat

/-- The characters that stand for a character in a quoted text. -/
def quoteChar (character : Char) : List Char :=
  match character with
  | '"' => ['\\', '"']
  | '\\' => ['\\', '\\']
  | '\n' => ['\\', 'n']
  | '\t' => ['\\', 't']
  | '\r' => ['\\', 'r']
  | '\x00' => ['\\', '0']
  | _ =>
      if character.toNat < 0x20 || (decide (0x7f ≤ character.toNat) && isEscaped character) then
        ['\\', 'u', '\x7b'] ++ hexadecimal character ++ ['\x7d']
      else [character]

/-- The text between quotes, with escapes. -/
def quote (text : String) : String :=
  String.ofList ('"' :: text.toList.flatMap quoteChar ++ ['"'])

end Text

instance : Quoted String := ⟨Text.quote⟩

instance : Quoted Nat := ⟨toString⟩

end Cascades
