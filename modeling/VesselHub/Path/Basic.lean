/-
Module: VesselHub.Path.Basic
Purpose: Dotted paths through the model, the local vessel's alias, and the grammar of conforming
  paths.
Main exports: Path, Path.ofText, Path.join, Resolver, Resolver.resolve, Path.validate
-/
import VesselHub.Text.Blank
import VesselHub.Text.Quoted
import VesselHub.Text.Split

namespace VesselHub

/-- The top-level key under which vessels are stored. -/
def vesselsKey : String := "vessels"

/-- The name that stands for the local vessel directly under `vessels`. -/
def selfKey : String := "self"

/-- A path: its text and the keys it leads along. -/
structure Path where
  raw : String
  segments : List String
deriving DecidableEq, Repr

namespace Path

/-- The parts of a text between its dots, the empty ones left out. -/
def segmentsOf (text : String) : List String :=
  (Text.split '.' text).filter (· ≠ "")

/-- Keys joined by dots. -/
def dotted (segments : List String) : String :=
  Text.join '.' segments

/-- The path that a text spells. Empty parts do not count. -/
def ofText (text : String) : Path where
  raw := text
  segments := segmentsOf text

/-- The path along a list of parts, each of which may be dotted itself. -/
def ofParts (parts : List String) : Path :=
  let segments := parts.flatMap segmentsOf
  { raw := dotted segments, segments }

def isEmpty (path : Path) : Bool :=
  path.segments.isEmpty

/-- The path in its plain form, its keys joined by dots. -/
def text (path : Path) : String :=
  dotted path.segments

/-- The last key, the name of a leaf in its branch. -/
def last? (path : Path) : Option String :=
  path.segments.getLast?

/-- The path without its last key. -/
def parent (path : Path) : Path :=
  ofParts path.segments.dropLast

/-- The path followed by a relative one. -/
def join (path : Path) (rest : String) : Path :=
  ofParts (path.segments ++ segmentsOf rest)

/-- Keys that begin with an underscore are private. -/
def isPrivateKey (key : String) : Bool :=
  key.toList.head? = some '_'

/-- Whether a path leads through a private key. -/
def isPrivate (path : Path) : Bool :=
  path.segments.any isPrivateKey

def startsWith (path start : Path) : Bool :=
  start.segments.isPrefixOf path.segments

/-- Whether a list of keys ends with `ending`, which must not be empty. -/
def endsWithKeys (keys ending : List String) : Bool :=
  !ending.isEmpty && ending.isSuffixOf keys

def endsWith (path ending : Path) : Bool :=
  endsWithKeys path.segments ending.segments

/-- The position that a key names in an array: decimal digits, perhaps behind a plus sign, below
`2 ^ 64`. -/
def position? (key : String) : Option Nat :=
  let digits := match key.toList with
    | '+' :: rest => rest
    | characters => characters
  if digits.isEmpty ∨ ¬ digits.all Char.isDigit then none
  else
    let number := digits.foldl (fun total digit => total * 10 + (digit.toNat - '0'.toNat)) 0
    if number < Nat.pow 2 64 then some number else none

/-- The key of a position in an array. -/
def positionKey (position : Nat) : String :=
  String.ofList (Nat.toDigits 10 position)

end Path

/-- The local vessel's id, for which `self` stands in the vessel position of a path. -/
structure Resolver where
  selfId : String
deriving DecidableEq, Repr

namespace Resolver

/-- An id may be given alone or as the context `vessels.` of the vessel. -/
def ofText (id : String) : Resolver where
  selfId := (Text.dropStart? "vessels." id).getD id

/-- The context of the local vessel. -/
def selfContext (resolver : Resolver) : String :=
  "vessels." ++ resolver.selfId

/-- The key that a vessel is stored under. -/
def resolveKey (resolver : Resolver) (key : String) : String :=
  if key = selfKey then resolver.selfId else key

/-- Puts the local id in place of `self` directly behind a leading `vessels`. -/
def resolvePath (resolver : Resolver) (path : Path) : Path :=
  match path.segments with
  | first :: second :: rest =>
      if first = vesselsKey ∧ second = selfKey then
        let segments := first :: resolver.selfId :: rest
        { raw := Path.dotted segments, segments }
      else path
  | _ => path

/-- The absolute path that a text spells. -/
def resolve (resolver : Resolver) (text : String) : Path :=
  resolver.resolvePath (Path.ofText text)

/-- The absolute path along parts that may be dotted themselves. -/
def resolveParts (resolver : Resolver) (parts : List String) : Path :=
  resolver.resolvePath (Path.ofParts parts)

end Resolver

/-- Why a path does not conform. -/
inductive PathError where
  | empty
  | invalidSegment (segment : String)
  | misplacedSelf (position : Nat)
deriving DecidableEq, Repr

/-- The wording of a complaint. -/
def PathError.message : PathError → String
  | .empty => "Empty path"
  | .invalidSegment segment => "Invalid segment " ++ Text.quote segment
  | .misplacedSelf position =>
      "'self' is only valid as the vessel context, found at position " ++
        String.ofList (Nat.toDigits 10 position)

namespace Path

/-- The characters of conforming keys. -/
def isKeyCharacter (character : Char) : Bool :=
  ('A' ≤ character && character ≤ 'Z') || ('a' ≤ character && character ≤ 'z') ||
    ('0' ≤ character && character ≤ '9') || character == '_' || character == '$' ||
    character == ':' || character == '-'

def isConformingKey (key : String) : Bool :=
  key ≠ "" && key.toList.all isKeyCharacter

/-- Checks keys one after the other, counting from `position`. -/
def validateFrom : Nat → List String → Except PathError Unit
  | _, [] => .ok ()
  | position, segment :: segments =>
      if !isConformingKey segment then .error (.invalidSegment segment)
      else if segment = selfKey ∧ position ≠ 1 then .error (.misplacedSelf position)
      else validateFrom (position + 1) segments

/-- Checks an absolute path against the grammar. Nothing requires it of writes; producers are
told of paths that do not conform. -/
def validate (path : String) : Except PathError Unit :=
  if path.toList.all Text.isBlank then .error .empty
  else validateFrom 0 (Text.split '.' path)

end Path

end VesselHub
