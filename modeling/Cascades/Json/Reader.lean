import Cascades.Json.Basic

/-!
# Reading JSON

A text is read from its beginning. Every reader gives what it has read with the rest of the text, or
nothing if the text does not start with what is to be read. A number that is too large for a
double-precision one is refused, and so is a surrogate that is not part of a pair. Of fields of the
same name the last one counts.
-/

namespace Cascades

namespace Json

/-- What a reader gives: a value and the rest of the text. -/
abbrev Read (α : Type) := Option (α × List Char)

def quoteMark : Char := '\x22'

def backslash : Char := '\x5c'

/-- Whether a character may stand between the parts of a value. -/
def isBlank (char : Char) : Bool :=
  char == ' ' || char == '\t' || char == '\n' || char == '\r'

/-- The text from its first character on that is not blank. -/
def skipBlank (text : List Char) : List Char :=
  text.dropWhile isBlank

/-- The number that a hexadecimal digit stands for, in either case. -/
def hexDigit? (char : Char) : Option Nat :=
  if '0' ≤ char ∧ char ≤ '9' then some (char.toNat - 48)
  else if 'a' ≤ char ∧ char ≤ 'f' then some (char.toNat - 87)
  else if 'A' ≤ char ∧ char ≤ 'F' then some (char.toNat - 55)
  else none

/-- The number of four hexadecimal digits. -/
def unit? (a b c d : Char) : Option Nat := do
  return (((← hexDigit? a) * 16 + (← hexDigit? b)) * 16 + (← hexDigit? c)) * 16 + (← hexDigit? d)

/-- The character that a letter after a backslash stands for. -/
def escape? (char : Char) : Option Char :=
  if char = quoteMark ∨ char = backslash ∨ char = '/' then some char
  else
    match char with
    | 'b' => some '\x08'
    | 'f' => some '\x0c'
    | 'n' => some '\n'
    | 'r' => some '\r'
    | 't' => some '\t'
    | _ => none

/-- Whether a unit is the first of a pair. -/
def isHighSurrogate (unit : Nat) : Bool :=
  0xD800 ≤ unit && unit < 0xDC00

/-- Whether a unit is the second of a pair. -/
def isLowSurrogate (unit : Nat) : Bool :=
  0xDC00 ≤ unit && unit < 0xE000

/-- The character of a pair of surrogates. -/
def pairChar (high low : Nat) : Char :=
  Char.ofNat (0x10000 + (high - 0xD800) * 0x400 + (low - 0xDC00))

/-- The rest of a string, whose opening mark and first characters have been read. -/
def readString (read : String) : List Char → Read String
  | [] => none
  | char :: rest =>
      if char = quoteMark then some (read, rest)
      else if char ≠ backslash then
        if char.toNat < 0x20 then none else readString (read.push char) rest
      else
        match rest with
        | [] => none
        | letter :: rest =>
            if letter ≠ 'u' then
              match escape? letter with
              | some char => readString (read.push char) rest
              | none => none
            else
              match rest with
              | a :: b :: c :: d :: rest =>
                  match unit? a b c d with
                  | none => none
                  | some unit =>
                      if isLowSurrogate unit then none
                      else if isHighSurrogate unit then
                        match rest with
                        | slash :: letter :: a :: b :: c :: d :: rest =>
                            match unit? a b c d with
                            | none => none
                            | some low =>
                                if slash = backslash ∧ letter = 'u' ∧ isLowSurrogate low then
                                  readString (read.push (pairChar unit low)) rest
                                else none
                        | _ => none
                      else readString (read.push (Char.ofNat unit)) rest
              | _ => none

/-- The number of a list of digits. -/
def natOf (digits : List Char) : Nat :=
  digits.foldl (fun number digit => number * 10 + (digit.toNat - 48)) 0

/-- The digits at the beginning, of which there must be one. -/
def readDigits (text : List Char) : Read (List Char) :=
  match text.takeWhile Char.isDigit with
  | [] => none
  | digits => some (digits, text.dropWhile Char.isDigit)

/-- The digits after a point, if there is one. -/
def readFraction : List Char → Read (List Char)
  | '.' :: rest => readDigits rest
  | rest => some ([], rest)

/-- The number after the letter of an exponent. -/
def readPower : List Char → Read Int
  | '-' :: rest => (readDigits rest).map fun (digits, rest) => (-(natOf digits : Int), rest)
  | '+' :: rest => (readDigits rest).map fun (digits, rest) => ((natOf digits : Int), rest)
  | rest => (readDigits rest).map fun (digits, rest) => ((natOf digits : Int), rest)

/-- The exponent, if there is one. -/
def readExponent : List Char → Read (Option Int)
  | 'e' :: rest | 'E' :: rest => (readPower rest).map fun (power, rest) => (some power, rest)
  | rest => some (none, rest)

/-- A numeral after its sign. It has no superfluous zero in front. -/
def readUnsigned (negative : Bool) (text : List Char) : Option (Numeral × List Char) := do
  let (digits, rest) ← readDigits text
  if digits.length > 1 ∧ digits.head? = some '0' then none
  else
    let (fraction, rest) ← readFraction rest
    let (exponent, rest) ← readExponent rest
    return (⟨negative, natOf (digits ++ fraction), exponent.getD 0 - fraction.length,
      fraction.isEmpty && exponent.isNone⟩, rest)

def readNumeral : List Char → Read Numeral
  | '-' :: rest => readUnsigned true rest
  | rest => readUnsigned false rest

/-- A number or a string. -/
def readScalar (text : List Char) : Read Json :=
  match text with
  | char :: rest =>
      if char = quoteMark then (readString "" rest).map fun (read, rest) => (.string read, rest)
      else
        match readNumeral text with
        | some (numeral, rest) =>
            if numeral.nearest.isFinite then some (.number numeral, rest) else none
        | none => none
  | [] => none

mutual

/-- A value. The steps bound the number of values and of parts on the way into it. -/
def readValue : (steps : Nat) → List Char → Read Json
  | 0, _ => none
  | steps + 1, text =>
      match skipBlank text with
      | 'n' :: 'u' :: 'l' :: 'l' :: rest => some (.null, rest)
      | 't' :: 'r' :: 'u' :: 'e' :: rest => some (.bool true, rest)
      | 'f' :: 'a' :: 'l' :: 's' :: 'e' :: rest => some (.bool false, rest)
      | '[' :: rest =>
          match skipBlank rest with
          | ']' :: rest => some (.array [], rest)
          | rest => readItems steps [] rest
      | '\x7b' :: rest =>
          match skipBlank rest with
          | '\x7d' :: rest => some (.object [], rest)
          | rest => readFields steps [] rest
      | rest => readScalar rest

/-- The rest of an array, whose first items have been read. -/
def readItems : (steps : Nat) → List Json → List Char → Read Json
  | 0, _, _ => none
  | steps + 1, items, text =>
      match readValue steps text with
      | none => none
      | some (item, rest) =>
          match skipBlank rest with
          | ',' :: rest => readItems steps (item :: items) rest
          | ']' :: rest => some (.array (item :: items).reverse, rest)
          | _ => none

/-- The rest of an object, whose first fields have been read. -/
def readFields : (steps : Nat) → List (String × Json) → List Char → Read Json
  | 0, _, _ => none
  | steps + 1, fields, text =>
      match skipBlank text with
      | [] => none
      | char :: rest =>
          if char ≠ quoteMark then none
          else
            match readString "" rest with
            | none => none
            | some (name, rest) =>
                match skipBlank rest with
                | ':' :: rest =>
                    match readValue steps rest with
                    | none => none
                    | some (value, rest) =>
                        match skipBlank rest with
                        | ',' :: rest => readFields steps (setField fields name value) rest
                        | '\x7d' :: rest => some (.object (setField fields name value), rest)
                        | _ => none
                | _ => none

end

/--
The value of a text that holds nothing else. Every second step at least reads a character, so twice
as many steps as there are characters are enough.
-/
def ofText? (text : String) : Option Json :=
  match readValue (2 * text.length + 2) text.toList with
  | some (value, rest) => if (skipBlank rest).isEmpty then some value else none
  | none => none

end Json

end Cascades
