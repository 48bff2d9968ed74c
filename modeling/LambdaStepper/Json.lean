import LambdaStepper.Decimal.Number

/-! # JSON texts

Layouts are dumped as JSON: objects keep the order of their fields, nested values are indented by
two blanks a level, and only control characters, quotes and backslashes are escaped in texts.
Infinities, which JSON has no numbers for, are written out as words. -/

namespace LambdaStepper

open Decimal

/-- A JSON value. -/
inductive Json where
  | null
  | bool (b : Bool)
  | number (n : Number)
  | text (s : String)
  | list (items : List Json)
  | object (fields : List (String × Json))

namespace Json

/-- A whole number. -/
def whole (n : Int) : Json :=
  .number (.whole n)

/-- A text, or null for none. -/
def ofText? : Option String → Json
  | some s => .text s
  | none => .null

/-- The four hexadecimal digits of a code point below 0x10000. -/
def hexFour (n : Nat) : List Char :=
  [n / 4096, n / 256, n / 16, n].flatMap fun k => Nat.toDigits 16 (k % 16)

/-- A character inside a quoted text. -/
def escape (c : Char) : List Char :=
  if c = '"' then ['\\', '"']
  else if c = '\\' then ['\\', '\\']
  else if c = '\n' then ['\\', 'n']
  else if c = '\r' then ['\\', 'r']
  else if c = '\t' then ['\\', 't']
  else if c.toNat = 0x8 then ['\\', 'b']
  else if c.toNat = 0xC then ['\\', 'f']
  else if c.toNat < 0x20 then '\\' :: 'u' :: hexFour c.toNat
  else [c]

/-- A text in quotes. -/
def quote (s : String) : String :=
  String.ofList ('"' :: s.toList.flatMap escape ++ ['"'])

/-- The text of a number. -/
def numberText : Number → String
  | .infinite negative => if negative then "-Infinity" else "Infinity"
  | n => n.text

/-- A new line at the given depth. -/
def newline (depth : Nat) : String :=
  String.ofList ('\n' :: List.replicate (2 * depth) ' ')

mutual

/-- The text of a value that starts at the given depth. -/
def renderAt (depth : Nat) : Json → String
  | .null => "null"
  | .bool b => if b then "true" else "false"
  | .number n => numberText n
  | .text s => quote s
  | .list [] => "[]"
  | .list (item :: items) =>
    "[" ++ newline (depth + 1) ++ renderAt (depth + 1) item ++ renderItems (depth + 1) items
      ++ newline depth ++ "]"
  | .object [] => "\x7b\x7d"
  | .object ((key, value) :: fields) =>
    "\x7b" ++ newline (depth + 1) ++ quote key ++ ": " ++ renderAt (depth + 1) value
      ++ renderFields (depth + 1) fields ++ newline depth ++ "\x7d"

/-- The items after the first, each behind a comma on a line of its own. -/
def renderItems (depth : Nat) : List Json → String
  | [] => ""
  | item :: items => "," ++ newline depth ++ renderAt depth item ++ renderItems depth items

/-- The fields after the first, each behind a comma on a line of its own. -/
def renderFields (depth : Nat) : List (String × Json) → String
  | [] => ""
  | (key, value) :: fields =>
    "," ++ newline depth ++ quote key ++ ": " ++ renderAt depth value ++ renderFields depth fields

end

/-- The indented text of a value. -/
def render (value : Json) : String :=
  renderAt 0 value

end Json
end LambdaStepper
