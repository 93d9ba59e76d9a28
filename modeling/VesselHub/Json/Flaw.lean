/-
Module: VesselHub.Json.Flaw
Purpose: What is wrong with a text that is not JSON, where it was noticed, and the wording of both.
Main exports: Json.Cause, Json.Cause.isUnfinished, Json.Flaw, Json.Flaw.message, Json.Place
-/
import VesselHub.Json.Printer
import VesselHub.Text.Utf8

namespace VesselHub.Json

/-- What is wrong with a text that is not JSON. -/
inductive Cause where
  /-- The text ends inside a list. -/
  | endInList
  /-- The text ends inside an object. -/
  | endInObject
  /-- The text ends inside a string. -/
  | endInText
  /-- The text ends where a value should be. -/
  | endInValue
  | noColon
  | noListComma
  | noObjectComma
  /-- What begins like `null`, `true` or `false` goes on differently. -/
  | noWord
  | noValue
  /-- A backslash before a letter that it cannot stand before. -/
  | badEscape
  /-- A code unit whose digits are none. -/
  | badDigits
  | badNumber
  /-- A number that a double cannot hold. -/
  | hugeNumber
  | controlCharacter
  | keyIsNoText
  /-- A trailing surrogate on its own, or a leading one before a unit that is no trailing one. -/
  | loneSurrogate
  /-- A leading surrogate that no code unit follows. -/
  | brokenPair
  | trailingComma
  /-- Something follows the value. -/
  | trailingText
  | tooDeep
deriving DecidableEq, Repr

/-- The wording of a cause. -/
def Cause.message : Cause → String
  | .endInList => "EOF while parsing a list"
  | .endInObject => "EOF while parsing an object"
  | .endInText => "EOF while parsing a string"
  | .endInValue => "EOF while parsing a value"
  | .noColon => "expected \x60:\x60"
  | .noListComma => "expected \x60,\x60 or \x60]\x60"
  | .noObjectComma => "expected \x60,\x60 or \x60\x7d\x60"
  | .noWord => "expected ident"
  | .noValue => "expected value"
  | .badEscape | .badDigits => "invalid escape"
  | .badNumber => "invalid number"
  | .hugeNumber => "number out of range"
  | .controlCharacter => "control character (\\u0000-\\u001F) found while parsing a string"
  | .keyIsNoText => "key must be a string"
  | .loneSurrogate => "lone leading surrogate in hex escape"
  | .brokenPair => "unexpected end of hex escape"
  | .trailingComma => "trailing comma"
  | .trailingText => "trailing characters"
  | .tooDeep => "recursion limit exceeded"

/-- Whether the text ends before its value does. -/
def Cause.isUnfinished : Cause → Bool
  | .endInList | .endInObject | .endInText | .endInValue => true
  | _ => false

/-- A fault of a text, and how many bytes had been looked at when it was noticed. -/
structure Flaw where
  cause : Cause
  offset : Nat
deriving DecidableEq, Repr

/-- A place in a text. Lines count from one, and columns are the bytes of the line before it. -/
structure Place where
  line : Nat
  column : Nat
deriving DecidableEq, Repr

/-- The byte that ends a line. -/
def lineFeed : UInt8 := 10

/-- The place behind one more byte. -/
def Place.after (place : Place) (byte : UInt8) : Place :=
  if byte = lineFeed then ⟨place.line + 1, 0⟩ else ⟨place.line, place.column + 1⟩

/-- The place behind some bytes of a text. -/
def Place.behind (bytes : List UInt8) : Place :=
  bytes.foldl Place.after ⟨1, 0⟩

/-- Where in a text a flaw was noticed. -/
def Flaw.place (flaw : Flaw) (text : String) : Place :=
  .behind ((Text.bytes text).take flaw.offset)

/-- The wording of a flaw of a text. -/
def Flaw.message (flaw : Flaw) (text : String) : String :=
  let place := flaw.place text
  flaw.cause.message ++ " at line " ++ countText place.line ++ " column " ++
    countText place.column

end VesselHub.Json
