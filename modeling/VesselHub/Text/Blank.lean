/-
Module: VesselHub.Text.Blank
Purpose: The white space of texts and its removal at both ends.
Main exports: Text.isBlank, Text.trim
-/

namespace VesselHub.Text

/-- The 25 code points with the property White_Space. -/
def isBlank (character : Char) : Bool :=
  let code := character.toNat
  (9 ≤ code && code ≤ 13) || code == 0x20 || code == 0x85 || code == 0xA0 || code == 0x1680 ||
    (0x2000 ≤ code && code ≤ 0x200A) || code == 0x2028 || code == 0x2029 || code == 0x202F ||
    code == 0x205F || code == 0x3000

/-- Drops the characters of a class at both ends. -/
def trimChars (drop : Char → Bool) (characters : List Char) : List Char :=
  ((characters.dropWhile drop).reverse.dropWhile drop).reverse

/-- A text without the white space at its two ends. -/
def trim (text : String) : String :=
  String.ofList (trimChars isBlank text.toList)

end VesselHub.Text
