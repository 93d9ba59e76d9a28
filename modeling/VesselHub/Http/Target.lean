/-
Module: VesselHub.Http.Target
Purpose: Read the target of an HTTP request: the path that it names, and which texts are no
  targets. A target is a path with a query, the same behind a scheme and an authority, an
  authority alone, or an asterisk.
Main exports: Http.TargetFlaw, Http.targetPath, Http.isAuthority
-/

namespace VesselHub.Http

/-- Why a text is no target. -/
inductive TargetFlaw where
  | malformed
  | tooLong
deriving DecidableEq, Repr

/-- How many bytes a target may have. -/
def maxTargetLength : Nat := 65534

/-- Whether a character can stand in a target: blanks and control characters cannot. -/
def isTargetCharacter (character : Char) : Bool :=
  32 < character.toNat && character.toNat != 127

/-! ### Paths and queries -/

/-- Whether a character ends the path of a target. -/
def endsPath (character : Char) : Bool :=
  character == '?' || character == '#'

/-- Whether a character of a target can stand in its path. -/
def isPathCharacter (character : Char) : Bool :=
  !"<>\x60".toList.contains character

/-- Whether a character of a target can stand in its query. -/
def isQueryCharacter (character : Char) : Bool :=
  !"<>\"".toList.contains character

/-- The path of a location, which a query and a fragment may follow. Anything may stand in a
fragment. -/
def locationPath? (location : List Char) : Option String :=
  let path := location.takeWhile fun character => !endsPath character
  let query := match location.drop path.length with
    | '?' :: rest => rest.takeWhile fun character => character != '#'
    | _ => []
  if path.all isPathCharacter && query.all isQueryCharacter then some (String.ofList path)
  else none

/-! ### Schemes and authorities -/

def isSchemeCharacter (character : Char) : Bool :=
  character.isAlphanum || "+-.".toList.contains character

def maxSchemeLength : Nat := 64

/-- What follows the scheme of a target, if it starts with one. -/
def behindScheme? (target : List Char) : Option (List Char) :=
  let scheme := target.takeWhile isSchemeCharacter
  match target.drop scheme.length with
  | ':' :: '/' :: '/' :: rest => if scheme.length ≤ maxSchemeLength then some rest else none
  | _ => none

/-- Whether a character can stand anywhere in an authority. -/
def isAuthorityCharacter (character : Char) : Bool :=
  character.isAlphanum || "!$&'()*+,-.;=_~".toList.contains character

/-- What has been read of an authority. -/
structure AuthorityPart where
  /-- The colons since the user or the brackets. -/
  colons : Nat
  /-- Whether there was a percent sign since the user or the brackets. -/
  hasPercent : Bool
  isOpened : Bool
  isClosed : Bool
deriving DecidableEq, Repr

namespace AuthorityPart

def empty : AuthorityPart := ⟨0, false, false, false⟩

/-- An address in brackets has eight groups at most. -/
def maxColons : Nat := 8

/-- Reads one more character. Colons and percent signs of a user or within brackets do not
count later. -/
def read? (part : AuthorityPart) : Char → Option AuthorityPart
  | ':' => if part.colons < maxColons then some { part with colons := part.colons + 1 } else none
  | '[' => if part.hasPercent || part.isOpened then none else some { part with isOpened := true }
  | ']' =>
      if !part.isOpened || part.isClosed then none
      else some { part with colons := 0, hasPercent := false, isClosed := true }
  | '@' => some { part with colons := 0, hasPercent := false }
  | '%' => some { part with hasPercent := true }
  | character => if isAuthorityCharacter character then some part else none

/-- Whether an authority can end here: what is left of it names a host and at most one port. -/
def isComplete (part : AuthorityPart) : Bool :=
  part.isOpened == part.isClosed && part.colons ≤ 1 && !part.hasPercent

end AuthorityPart

/-- Whether a text is an authority: a host, perhaps with a user before it and a port behind it. -/
def isAuthority (text : List Char) : Bool :=
  text != [] && text.getLast? != some '@' &&
    ((text.foldlM AuthorityPart.read? .empty).map AuthorityPart.isComplete).getD false

/-! ### Targets -/

/-- The path that a target of one of the four forms names. An authority alone names none. -/
def namedPath? (target : List Char) : Option String :=
  match target with
  | '/' :: _ => locationPath? target
  | ['*'] => some "*"
  | _ =>
      match behindScheme? target with
      | none => if isAuthority target then some "" else none
      | some rest =>
          let authority := rest.takeWhile fun character =>
            character != '/' && !endsPath character
          if isAuthority authority then locationPath? (rest.drop authority.length) else none

/-- The path that a target names. -/
def targetPath (target : String) : Except TargetFlaw String :=
  if !target.toList.all isTargetCharacter then .error .malformed
  else if maxTargetLength < target.utf8ByteSize then .error .tooLong
  else
    match namedPath? target.toList with
    | none => .error .malformed
    | some path => .ok path

end VesselHub.Http
