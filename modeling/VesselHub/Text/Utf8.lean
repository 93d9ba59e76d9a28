/-
Module: VesselHub.Text.Utf8
Purpose: Texts as bytes, and the escapes of bytes in addresses.
Main exports: Text.bytes, Text.ofBytes?, Text.unescape
-/

namespace VesselHub.Text

/-- The UTF-8 form of a text. -/
def bytes (text : String) : List UInt8 :=
  text.toUTF8.toList

/-- The text that has a UTF-8 form, if the bytes are one. -/
def ofBytes? (bytes : List UInt8) : Option String :=
  String.fromUTF8? ⟨bytes.toArray⟩

/-- The value of a hexadecimal digit. -/
def hexDigit? (byte : UInt8) : Option UInt8 :=
  if 48 ≤ byte ∧ byte ≤ 57 then some (byte - 48)
  else if 65 ≤ byte ∧ byte ≤ 70 then some (byte - 55)
  else if 97 ≤ byte ∧ byte ≤ 102 then some (byte - 87)
  else none

/-- The percent sign, which starts an escape. -/
def percentByte : UInt8 := 37

/-- Replaces each escape, a percent sign and two hexadecimal digits, by its byte. A percent sign
that starts no escape stands for itself. -/
def unescape : List UInt8 → List UInt8
  | first :: high :: low :: rest =>
      if first = percentByte then
        match hexDigit? high, hexDigit? low with
        | some upper, some lower => (upper * 16 + lower) :: unescape rest
        | _, _ => first :: unescape (high :: low :: rest)
      else first :: unescape (high :: low :: rest)
  | short => short

end VesselHub.Text
