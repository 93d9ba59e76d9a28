/-
Module: VesselHub.Json.Printer
Purpose: The compact text of a value: no spaces, members in their order.
Main exports: Json.compact, Number.text
-/
import VesselHub.Decimal.Shortest
import VesselHub.Json.Value

namespace VesselHub

/-- The decimal digits of a number. -/
def decimalText (number : Nat) : List Char :=
  Nat.toDigits 10 number

/-- An integer with a minus sign if it is negative. -/
def integerText (number : Int) : List Char :=
  match number with
  | .ofNat magnitude => decimalText magnitude
  | .negSucc below => '-' :: decimalText (below + 1)

/-- Where doubles are written without an exponent: the decimal point stands at most `largest`
digits behind the first digit, and fewer than `smallest` before it. -/
structure PlainRange where
  largest : Int
  smallest : Int

/-- Doubles from 1e-5 up to 1e16 are written without an exponent. -/
def PlainRange.standard : PlainRange where
  largest := 16
  smallest := 5

/-- A decimal as it is written: `digits0.0`, `dd.ddd`, `0.00ddd` or `d.ddde4`. -/
def Decimal.text (range : PlainRange) (decimal : Decimal) : List Char :=
  let digits := decimalText decimal.digits
  let point : Int := digits.length + decimal.scale
  if digits.length ≤ point ∧ point ≤ range.largest then
    digits ++ List.replicate (point - digits.length).toNat '0' ++ ['.', '0']
  else if 0 < point ∧ point ≤ range.largest then
    digits.take point.toNat ++ '.' :: digits.drop point.toNat
  else if -range.smallest < point ∧ point ≤ 0 then
    ['0', '.'] ++ List.replicate (-point).toNat '0' ++ digits
  else
    let mantissa := match digits with
      | [single] => [single]
      | first :: rest => first :: '.' :: rest
      | [] => []
    mantissa ++ 'e' :: integerText (point - 1)

/-- The shortest text that reads back as the double. -/
def Double.text (value : Double) : List Char :=
  let magnitude :=
    if value.isZero then ['0', '.', '0'] else value.shortest.text .standard
  if value.isNegative then '-' :: magnitude else magnitude

/-- A number as it is written. -/
def Number.text : Number → List Char
  | .int value => integerText value
  | .double value => value.text

namespace Json

/-- A character inside a string. Only the quote, the backslash and the control characters below
the space are escaped. -/
def escape (character : Char) : List Char :=
  match character with
  | '"' => ['\\', '"']
  | '\\' => ['\\', '\\']
  | '\x08' => ['\\', 'b']
  | '\x0c' => ['\\', 'f']
  | '\n' => ['\\', 'n']
  | '\r' => ['\\', 'r']
  | '\t' => ['\\', 't']
  | _ =>
      if character.toNat < 0x20 then
        ['\\', 'u', '0', '0'] ++
          [Nat.digitChar (character.toNat / 16), Nat.digitChar (character.toNat % 16)]
      else [character]

/-- A string in quotes. -/
def quoted (text : String) : List Char :=
  '"' :: text.toList.flatMap escape ++ ['"']

mutual

/-- The compact text of a value. -/
def write : Json → List Char
  | .null => ['n', 'u', 'l', 'l']
  | .bool true => ['t', 'r', 'u', 'e']
  | .bool false => ['f', 'a', 'l', 's', 'e']
  | .number value => value.text
  | .string text => quoted text
  | .array [] => ['[', ']']
  | .array (item :: items) => '[' :: item.write ++ writeItems items
  | .object [] => ['\x7b', '\x7d']
  | .object ((key, value) :: members) =>
      '\x7b' :: quoted key ++ ':' :: value.write ++ writeMembers members

/-- The items after the first, and the closing bracket. -/
def writeItems : List Json → List Char
  | [] => [']']
  | item :: items => ',' :: item.write ++ writeItems items

/-- The members after the first, and the closing brace. -/
def writeMembers : List (String × Json) → List Char
  | [] => ['\x7d']
  | (key, value) :: members => ',' :: quoted key ++ ':' :: value.write ++ writeMembers members

end

/-- The compact text of a value. -/
def compact (value : Json) : String :=
  String.ofList value.write

/-- A number in decimal. -/
def countText (count : Nat) : String :=
  String.ofList (decimalText count)

end Json

end VesselHub
