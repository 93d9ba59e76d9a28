/-
Module: VesselHub.Text.Quoted
Purpose: Show a text in double quotes with everything invisible escaped, as it stands in messages
  and log lines.
Main exports: Text.quote, Text.quoteOption
-/
import VesselHub.Text.Printable

namespace VesselHub.Text

/-- The digits of a code point in lower-case hexadecimal, without leading zeros. -/
def hexDigits (code : Nat) : List Char :=
  Nat.toDigits 16 code

/-- One character of a quoted text. Quote and backslash are escaped, the usual controls have
letters, and what does not show on its own is written by its number. -/
def quoteChar (character : Char) : List Char :=
  match character with
  | '"' => ['\\', '"']
  | '\\' => ['\\', '\\']
  | '\n' => ['\\', 'n']
  | '\r' => ['\\', 'r']
  | '\t' => ['\\', 't']
  | '\x00' => ['\\', '0']
  | _ =>
      if isPrintable character then [character]
      else ['\\', 'u', '\x7b'] ++ hexDigits character.toNat ++ ['\x7d']

/-- The text in double quotes. -/
def quote (text : String) : String :=
  String.ofList ('"' :: text.toList.flatMap quoteChar ++ ['"'])

/-- A text that may be absent: `Some("...")` or `None`. -/
def quoteOption : Option String → String
  | none => "None"
  | some text => "Some(" ++ quote text ++ ")"

end VesselHub.Text
