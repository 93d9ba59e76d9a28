/-
Module: VesselHub.Path.Pattern
Purpose: Patterns with wildcards that select paths.
Main exports: Pattern, Pattern.ofText, Pattern.fits, Pattern.covers
-/
import VesselHub.Text.Split

namespace VesselHub

/-- One part of a pattern. -/
inductive PatternPart where
  /-- Exactly this key. -/
  | literal (key : String)
  /-- One key that is not empty; as the last part, any continuation, the empty one included. -/
  | wildcard
deriving DecidableEq, Repr

/-- A pattern for paths. -/
structure Pattern where
  raw : String
  parts : List PatternPart
deriving DecidableEq, Repr

/-- Why a text is not a pattern. -/
inductive PatternError where
  | empty
  | emptyPart (position : Nat)
deriving DecidableEq, Repr

/-- The wording of a complaint. -/
def PatternError.message : PatternError → String
  | .empty => "Empty pattern"
  | .emptyPart position =>
      "Empty segment at position " ++ String.ofList (Nat.toDigits 10 position)

namespace Pattern

def partOf (text : String) : PatternPart :=
  if text = "*" then .wildcard else .literal text

/-- The pattern that a text spells. None of its parts may be empty. -/
def ofText (text : String) : Except PatternError Pattern :=
  let parts := Text.split '.' text
  if parts = [""] then .error .empty
  else
    match parts.findIdx? (· = "") with
    | some position => .error (.emptyPart position)
    | none => .ok { raw := text, parts := parts.map partOf }

/-- Whether parts select exactly the keys of a path. -/
def partsFit : List PatternPart → List String → Bool
  | [.wildcard], _ => true
  | [], keys => keys.isEmpty
  | _ :: _, [] => false
  | .literal wanted :: parts, key :: keys => wanted == key && partsFit parts keys
  | .wildcard :: parts, key :: keys => key != "" && partsFit parts keys

/-- Whether parts select the keys at the beginning of a path. -/
def partsCover : List PatternPart → List String → Bool
  | [.wildcard], _ => true
  | [], _ => true
  | _ :: _, [] => false
  | .literal wanted :: parts, key :: keys => wanted == key && partsCover parts keys
  | .wildcard :: parts, key :: keys => key != "" && partsCover parts keys

/-- Whether the pattern selects exactly this path. -/
def fits (pattern : Pattern) (path : String) : Bool :=
  partsFit pattern.parts (Text.split '.' path)

/-- Whether the pattern selects this path or a branch that holds it. -/
def covers (pattern : Pattern) (path : String) : Bool :=
  partsCover pattern.parts (Text.split '.' path)

end Pattern

end VesselHub
