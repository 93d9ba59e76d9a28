/-
Module: VesselHub.Config.Address
Purpose: Addresses with a port, of both versions of the Internet Protocol: their texts and how
  they are read.
Main exports: SocketAddress, SocketAddress.ofText?, SocketAddress.text
-/
import VesselHub.Json.Token

namespace VesselHub

/-- Four bytes of an address of version 4. -/
structure Octets where
  first : Nat
  second : Nat
  third : Nat
  fourth : Nat
deriving DecidableEq, Repr

/-- An address and a port to listen on. -/
inductive SocketAddress where
  | v4 (octets : Octets) (port : Nat)
  /-- Eight groups of 16 bits, and a scope that is zero if none is given. -/
  | v6 (groups : List Nat) (scope port : Nat)
deriving DecidableEq, Repr

namespace SocketAddress

/-- Splits off the digits of a base at the beginning. -/
def spanDigits (base : Nat) : List Char → List Nat × List Char
  | [] => ([], [])
  | character :: rest =>
      match (Json.hexDigit? character).filter (· < base) with
      | some digit =>
          let found := spanDigits base rest
          (digit :: found.1, found.2)
      | none => ([], character :: rest)

def numberOf (base : Nat) (digits : List Nat) : Nat :=
  digits.foldl (fun total digit => total * base + digit) 0

/-- Reads a number below `bound`, of any number of digits. -/
def readNumber (bound : Nat) (characters : List Char) : Option (Nat × List Char) :=
  let (digits, rest) := spanDigits 10 characters
  if digits.isEmpty ∨ bound ≤ numberOf 10 digits then none else some (numberOf 10 digits, rest)

/-- Reads one byte of an address. It has no leading zero. -/
def readOctet (characters : List Char) : Option (Nat × List Char) :=
  let (digits, rest) := spanDigits 10 characters
  if digits.isEmpty ∨ 3 < digits.length ∨ 256 ≤ numberOf 10 digits then none
  else if digits.head? = some 0 ∧ 1 < digits.length then none
  else some (numberOf 10 digits, rest)

/-- Reads one group of 16 bits, of at most four digits. -/
def readGroup (characters : List Char) : Option (Nat × List Char) :=
  let (digits, rest) := spanDigits 16 characters
  if digits.isEmpty ∨ 4 < digits.length then none else some (numberOf 16 digits, rest)

/-- Reads one given character. -/
def readMark (mark : Char) : List Char → Option (List Char)
  | [] => none
  | character :: rest => if character = mark then some rest else none

/-- Reads four bytes with points between them. -/
def readOctets (characters : List Char) : Option (Octets × List Char) := do
  let (first, rest) ← readOctet characters
  let (second, rest) ← readOctet (← readMark '.' rest)
  let (third, rest) ← readOctet (← readMark '.' rest)
  let (fourth, rest) ← readOctet (← readMark '.' rest)
  return ({ first, second, third, fourth }, rest)

/-- The two groups that four bytes fill. -/
def Octets.groups (octets : Octets) : List Nat :=
  [octets.first * 256 + octets.second, octets.third * 256 + octets.fourth]

/-- Reads up to `limit` groups with colons between them. Four bytes may stand for the last two
groups, and end the list; whether they do is told. -/
def readGroups : Nat → Bool → List Char → List Nat × Bool × List Char
  | 0, _, rest => ([], false, rest)
  | limit + 1, isFirst, characters =>
      let separated := if isFirst then some characters else readMark ':' characters
      match (if limit = 0 then none else separated.bind readOctets) with
      | some (octets, rest) => (Octets.groups octets, true, rest)
      | none =>
          match separated.bind readGroup with
          | none => ([], false, characters)
          | some (group, rest) =>
              let (groups, embedded, rest) := readGroups limit false rest
              (group :: groups, embedded, rest)

/-- Reads eight groups. A double colon stands for at least one group of zeros. -/
def readEightGroups (characters : List Char) : Option (List Nat × List Char) := do
  let (head, embedded, rest) := readGroups 8 true characters
  if head.length = 8 then return (head, rest)
  if embedded then none
  let rest ← readMark ':' (← readMark ':' rest)
  let (tail, _, rest) := readGroups (7 - head.length) true rest
  return (head ++ List.replicate (8 - head.length - tail.length) 0 ++ tail, rest)

/-- Reads a port behind its colon. -/
def readPort (characters : List Char) : Option (Nat × List Char) := do
  readNumber 65536 (← readMark ':' characters)

def readV4 (characters : List Char) : Option (SocketAddress × List Char) := do
  let (octets, rest) ← readOctets characters
  let (port, rest) ← readPort rest
  return (.v4 octets port, rest)

def readV6 (characters : List Char) : Option (SocketAddress × List Char) := do
  let (groups, rest) ← readEightGroups (← readMark '[' characters)
  let (scope, rest) := ((readMark '%' rest).bind (readNumber (Nat.pow 2 32))).getD (0, rest)
  let (port, rest) ← readPort (← readMark ']' rest)
  return (.v6 groups scope port, rest)

/-- The address that a text spells completely. -/
def ofText? (text : String) : Option SocketAddress :=
  match (readV4 text.toList).or (readV6 text.toList) with
  | some (address, []) => some address
  | _ => none

def port : SocketAddress → Nat
  | .v4 _ port => port
  | .v6 _ _ port => port

def decimal (number : Nat) : List Char :=
  Nat.toDigits 10 number

def octetsText (octets : Octets) : List Char :=
  decimal octets.first ++ '.' :: decimal octets.second ++ '.' :: decimal octets.third ++
    '.' :: decimal octets.fourth

/-- Groups in hexadecimal with colons between them. -/
def groupsText : List Nat → List Char
  | [] => []
  | [group] => Nat.toDigits 16 group
  | group :: next :: groups => Nat.toDigits 16 group ++ ':' :: groupsText (next :: groups)

/-- How many zeros a list begins with. -/
def zerosAtStart : List Nat → Nat
  | 0 :: groups => zerosAtStart groups + 1
  | _ => 0

/-- Start and length of the first of the longest runs of zeros, counting from `position`. -/
def longestZeros : Nat → List Nat → Nat × Nat
  | position, [] => (position, 0)
  | position, group :: groups =>
      let later := longestZeros (position + 1) groups
      let here := zerosAtStart (group :: groups)
      if later.2 ≤ here then (position, here) else later

/-- Eight groups in their shortest form: a run of at least two zeros is left out once, and an
address of version 4 inside keeps its own form. -/
def addressText (groups : List Nat) : List Char :=
  match groups with
  | [0, 0, 0, 0, 0, 0xFFFF, high, low] =>
      "::ffff:".toList ++ octetsText ⟨high / 256, high % 256, low / 256, low % 256⟩
  | _ =>
      let (start, length) := longestZeros 0 groups
      if 1 < length then
        groupsText (groups.take start) ++ [':', ':'] ++ groupsText (groups.drop (start + length))
      else groupsText groups

/-- The text of an address. -/
def text : SocketAddress → String
  | .v4 octets port => String.ofList (octetsText octets ++ ':' :: decimal port)
  | .v6 groups scope port =>
      let scopeText := if scope = 0 then [] else '%' :: decimal scope
      String.ofList ('[' :: addressText groups ++ scopeText ++ ']' :: ':' :: decimal port)

end SocketAddress

end VesselHub
