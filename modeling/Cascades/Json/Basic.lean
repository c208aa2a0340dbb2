import Cascades.Decimal.Numeral

/-!
# JSON values

A value keeps its numbers as they are written, since an integer is told from other numbers by its
form, and an object holds at most one field of a name.

Reading a part of a value gives nothing if the part is missing or has another form. A field may be
required, or it may be left out, and then `null` may or may not stand for its absence.
-/

namespace Cascades

/-- A JSON value. -/
inductive Json where
  | null
  | bool (value : Bool)
  | number (numeral : Numeral)
  | string (value : String)
  | array (items : List Json)
  | object (fields : List (String × Json))

namespace Json

mutual

/-- The nesting depth: an array or an object is one deeper than the deepest of its parts. -/
def depth : Json → Nat
  | .array items => depthOfItems items + 1
  | .object fields => depthOfFields fields + 1
  | _ => 0

/-- The depth of the deepest of some items. -/
def depthOfItems : List Json → Nat
  | [] => 0
  | item :: rest => max item.depth (depthOfItems rest)

/-- The depth of the deepest of some fields. -/
def depthOfFields : List (String × Json) → Nat
  | [] => 0
  | (_, value) :: rest => max value.depth (depthOfFields rest)

end

/-- Adds a field to the fields of an object, in place of one of the same name. -/
def setField (fields : List (String × Json)) (name : String) (value : Json) :
    List (String × Json) :=
  (name, value) :: fields.filter fun field => field.1 != name

variable {α : Type}

/-- The field of a name, if the value is an object that has one. -/
def field? (json : Json) (name : String) : Option Json :=
  match json with
  | .object fields => fields.lookup name
  | _ => none

/-- A required field. -/
def required (json : Json) (name : String) (decode : Json → Option α) : Option α :=
  (json.field? name).bind decode

/-- A field that may be absent or null. -/
def optional (json : Json) (name : String) (decode : Json → Option α) : Option (Option α) :=
  match json.field? name with
  | none | some .null => some none
  | some value => (decode value).map some

/-- A field that may be absent or null and then has a standard value. -/
def optionalOr (json : Json) (name : String) (decode : Json → Option α) (standard : α) :
    Option α :=
  (json.optional name decode).map (·.getD standard)

/-- A field that may be absent, but not null, and then has a standard value. -/
def presentOr (json : Json) (name : String) (decode : Json → Option α) (standard : α) :
    Option α :=
  match json.field? name with
  | none => some standard
  | some value => decode value

/-- The value, if it is an object. -/
def object? : Json → Option Json
  | .object fields => some (.object fields)
  | _ => none

/-- The field of an object that has only one. -/
def tagged? : Json → Option (String × Json)
  | .object [field] => some field
  | _ => none

/-- The truth value that is meant. -/
def bool? : Json → Option Bool
  | .bool value => some value
  | _ => none

/-- The text that is meant. -/
def string? : Json → Option String
  | .string value => some value
  | _ => none

/-- The value of a name. -/
def named? (names : List (String × α)) (json : Json) : Option α :=
  json.string?.bind fun name => names.lookup name

/-- The items of an array, all of which can be read. -/
def list? (decode : Json → Option α) : Json → Option (List α)
  | .array items => items.mapM decode
  | _ => none

/-- A natural number below a bound. -/
def nat? (bound : Nat) : Json → Option Nat
  | .number ⟨false, digits, _, true⟩ => if digits < bound then some digits else none
  | _ => none

/-- An integer from `-bound` to `bound - 1`. A negative zero is not an integer. -/
def int? (bound : Nat) : Json → Option Int
  | .number ⟨false, digits, _, true⟩ => if digits < bound then some digits else none
  | .number ⟨true, digits, _, true⟩ =>
      if 0 < digits ∧ digits ≤ bound then some (-(digits : Int)) else none
  | _ => none

/-- The number of a group, of an expression or of a column. -/
def id? : Json → Option Nat :=
  nat? UInt32.size

/-- A number of 64 bits. -/
def word? : Json → Option Nat :=
  nat? UInt64.size

/-- A number, or the name of one that is not finite. -/
def binary64? : Json → Option Binary64
  | .number numeral => some numeral.nearest
  | .string "NaN" => some .nan
  | .string "inf" => some .infinity
  | .string "-inf" => some .negativeInfinity
  | _ => none

/-- A natural number as a value. -/
def ofNat (number : Nat) : Json :=
  .number (.ofNat number)

/-- An integer as a value. -/
def ofInt (number : Int) : Json :=
  .number (.ofInt number)

def ofOption (encode : α → Json) : Option α → Json
  | some value => encode value
  | none => .null

def ofList (encode : α → Json) (values : List α) : Json :=
  .array (values.map encode)

def ofNats (numbers : List Nat) : Json :=
  ofList ofNat numbers

/-- The name of a value. -/
def ofNamed [DecidableEq α] (names : List (String × α)) (value : α) : Json :=
  ofOption (fun entry => .string entry.1) (names.find? fun entry => entry.2 == value)

end Json

end Cascades
