/-
Module: VesselHub.Json.Token
Purpose: Cut JSON text into tokens. A token that is broken ends the list and says how it broke,
  so that whoever expects something else there can complain first.
Main exports: Json.Token, Json.Lexeme, Json.tokens, Json.joinPieces
-/
import VesselHub.Json.Flaw

namespace VesselHub.Json

/-- One piece of a string: a character as it is, one given by a backslash and a letter, or a code
unit given as `\u` and four digits. -/
inductive Piece where
  | plain (character : Char)
  | escaped (character : Char)
  | unit (code : Nat)
deriving DecidableEq, Repr

inductive Token where
  | openArray
  | closeArray
  | openObject
  | closeObject
  | comma
  | colon
  /-- `null`, `true` or `false`; the value is `none` for `null`. -/
  | word (value : Except Flaw (Option Bool))
  | number (value : Except Flaw Literal)
  /-- A string up to its closing quote, or up to where it breaks off. -/
  | text (pieces : List Piece) (flaw : Option Flaw)
  | stray

/-- A token, and the bytes of the text before its beginning and before its end. -/
structure Lexeme where
  token : Token
  start : Nat
  stop : Nat

/-- A complaint about what begins a token: its first byte had been looked at. -/
def Lexeme.flaw (lexeme : Lexeme) (cause : Cause) : Flaw :=
  ⟨cause, lexeme.start + 1⟩

/-- A string after its opening quote: the pieces, how it broke off, and what follows. -/
structure ScannedText where
  pieces : List Piece
  flaw : Option Flaw
  rest : List Char
  stop : Nat

/-- The string with one more piece at its beginning. -/
def ScannedText.after (scanned : ScannedText) (piece : Piece) : ScannedText :=
  { scanned with pieces := piece :: scanned.pieces }

/-- A string that breaks off at once. -/
def ScannedText.broken (cause : Cause) (offset : Nat) : ScannedText :=
  ⟨[], some ⟨cause, offset⟩, [], offset⟩

/-- The value of a hexadecimal digit. -/
def hexDigit? (character : Char) : Option Nat :=
  if '0' ≤ character ∧ character ≤ '9' then some (character.toNat - '0'.toNat)
  else if 'a' ≤ character ∧ character ≤ 'f' then some (character.toNat - 'a'.toNat + 10)
  else if 'A' ≤ character ∧ character ≤ 'F' then some (character.toNat - 'A'.toNat + 10)
  else none

/-- The number that hexadecimal digits spell. -/
def hexValue? (characters : List Char) : Option Nat :=
  characters.foldlM (fun total character => (hexDigit? character).map (total * 16 + ·)) 0

/-- The character that a letter after a backslash stands for. -/
def escaped? : Char → Option Char
  | '"' => some '"'
  | '\\' => some '\\'
  | '/' => some '/'
  | 'b' => some '\x08'
  | 'f' => some '\x0c'
  | 'n' => some '\n'
  | 'r' => some '\r'
  | 't' => some '\t'
  | _ => none

def utf8Size (characters : List Char) : Nat :=
  characters.foldl (fun total character => total + character.utf8Size) 0

/-- Reads a string up to its closing quote, `offset` bytes into the text. A code unit needs four
bytes of text: with fewer left the text is unfinished, whatever they are. -/
def scanText (offset : Nat) : List Char → ScannedText
  | [] => .broken .endInText offset
  | '"' :: rest => ⟨[], none, rest, offset + 1⟩
  | '\\' :: 'u' :: first :: second :: third :: fourth :: rest =>
      match hexValue? [first, second, third, fourth] with
      | some code => (scanText (offset + 6) rest).after (.unit code)
      | none => .broken .badDigits (offset + 6)
  | '\\' :: 'u' :: short =>
      if utf8Size short < 4 then .broken .endInText (offset + 2 + utf8Size short)
      else .broken .badDigits (offset + 6)
  | '\\' :: letter :: rest =>
      match escaped? letter with
      | some character => (scanText (offset + 2) rest).after (.escaped character)
      | none => .broken .badEscape (offset + 2)
  | ['\\'] => .broken .endInText (offset + 1)
  | character :: rest =>
      if character.toNat < 0x20 then .broken .controlCharacter (offset + 1)
      else (scanText (offset + character.utf8Size) rest).after (.plain character)

/-- The character made of a leading and a trailing code unit. -/
def surrogatePair (leading trailing : Nat) : Char :=
  Char.ofNat ((leading - 0xD800) * 0x400 + (trailing - 0xDC00) + 0x10000)

/-- Whether a code unit is the first of two. -/
def isLeading (code : Nat) : Bool :=
  0xD800 ≤ code && code ≤ 0xDBFF

/-- Whether a code unit is the second of two. -/
def isTrailing (code : Nat) : Bool :=
  0xDC00 ≤ code && code ≤ 0xDFFF

/-- How a string breaks off behind a leading surrogate, `offset` bytes into the text: whatever
else comes instead of the other unit is complained about in its place. -/
def unpaired (offset : Nat) : Option Flaw → Flaw
  | none => ⟨.brokenPair, offset + 1⟩
  | some flaw =>
      match flaw.cause with
      | .badEscape | .controlCharacter => { flaw with cause := .brokenPair }
      | _ => flaw

/-- The characters of a string whose pieces begin `offset` bytes into the text. A leading
surrogate must be followed by a trailing one, and no trailing one stands alone; a string that
breaks off later than that is told by its flaw. -/
def joinPieces (offset : Nat) : List Piece → Option Flaw → Except Flaw (List Char)
  | [], none => .ok []
  | [], some flaw => .error flaw
  | .plain character :: pieces, flaw =>
      (joinPieces (offset + character.utf8Size) pieces flaw).map (character :: ·)
  | .escaped character :: pieces, flaw =>
      (joinPieces (offset + 2) pieces flaw).map (character :: ·)
  | .unit code :: pieces, flaw =>
      if isTrailing code then .error ⟨.loneSurrogate, offset + 6⟩
      else if isLeading code then
        match pieces with
        | [] => .error (unpaired (offset + 6) flaw)
        | .plain _ :: _ => .error ⟨.brokenPair, offset + 7⟩
        | .escaped _ :: _ => .error ⟨.brokenPair, offset + 8⟩
        | .unit next :: pieces =>
            if isTrailing next then
              (joinPieces (offset + 12) pieces flaw).map (surrogatePair code next :: ·)
            else .error ⟨.loneSurrogate, offset + 12⟩
      else (joinPieces (offset + 6) pieces flaw).map (Char.ofNat code :: ·)

/-- Splits off the decimal digits at the beginning. -/
def takeDigits (characters : List Char) : List Nat × List Char :=
  ((characters.takeWhile Char.isDigit).map fun digit => digit.toNat - '0'.toNat,
    characters.dropWhile Char.isDigit)

/-- Something that was read, the bytes of the text before its end, and what follows. -/
structure Scanned (Value : Type) where
  value : Value
  stop : Nat
  rest : List Char

def Scanned.map {Old New : Type} (change : Old → New) (scanned : Scanned Old) : Scanned New :=
  ⟨change scanned.value, scanned.stop, scanned.rest⟩

/-- The digits that have to follow, `offset` bytes into the text. -/
def someDigits (offset : Nat) (characters : List Char) : Except Flaw (Scanned (List Nat)) :=
  match takeDigits characters with
  | ([], []) => .error ⟨.endInValue, offset⟩
  | ([], _ :: _) => .error ⟨.badNumber, offset + 1⟩
  | (digits, rest) => .ok ⟨digits, offset + digits.length, rest⟩

/-- The digits after a decimal point, if there is one. -/
def scanFraction (offset : Nat) : List Char → Except Flaw (Scanned (Option (List Nat)))
  | '.' :: rest => (someDigits (offset + 1) rest).map (Scanned.map some)
  | rest => .ok ⟨none, offset, rest⟩

/-- The sign and digits of an exponent, if there is one. -/
def scanPower (offset : Nat) (characters : List Char) :
    Except Flaw (Scanned (Option (Bool × List Nat))) :=
  let signed (negative : Bool) (digits : List Nat) := some (negative, digits)
  match characters with
  | mark :: rest =>
      if mark = 'e' ∨ mark = 'E' then
        match rest with
        | '-' :: digits => (someDigits (offset + 2) digits).map (Scanned.map (signed true))
        | '+' :: digits => (someDigits (offset + 2) digits).map (Scanned.map (signed false))
        | digits => (someDigits (offset + 1) digits).map (Scanned.map (signed false))
      else .ok ⟨none, offset, characters⟩
  | [] => .ok ⟨none, offset, []⟩

/-- The digits and the exponent of a number whose sign was read. No digit follows a leading
zero. -/
def scanUnsigned (negative : Bool) (offset : Nat) (characters : List Char) :
    Except Flaw (Scanned Literal) := do
  let whole ← someDigits offset characters
  if whole.value.head? = some 0 ∧ 1 < whole.value.length then
    throw ⟨.badNumber, offset + 2⟩
  let fraction ← scanFraction whole.stop whole.rest
  let power ← scanPower fraction.stop fraction.rest
  return power.map fun power =>
    { negative, whole := whole.value, fraction := fraction.value, power }

/-- A number `offset` bytes into the text. -/
def scanNumber (offset : Nat) : List Char → Except Flaw (Scanned Literal)
  | '-' :: rest => scanUnsigned true (offset + 1) rest
  | characters => scanUnsigned false offset characters

/-- The remaining letters of a word, `offset` bytes into the text, and what comes after them. -/
def scanWord (offset : Nat) : List Char → List Char → Except Flaw (List Char)
  | [], rest => .ok rest
  | _ :: _, [] => .error ⟨.endInValue, offset⟩
  | letter :: letters, character :: rest =>
      if letter = character then scanWord (offset + 1) letters rest
      else .error ⟨.noWord, offset + 1⟩

/-- The white space between tokens. -/
def isSpace (character : Char) : Bool :=
  character = ' ' || character = '\n' || character = '\t' || character = '\r'

/-- The tokens of a text of at most `limit` characters, which begins after `offset` bytes. -/
def tokensWithin : Nat → Nat → List Char → List Lexeme
  | 0, _, _ => []
  | _ + 1, _, [] => []
  | limit + 1, offset, character :: rest =>
      let following := tokensWithin limit
      let mark (token : Token) : List Lexeme :=
        ⟨token, offset, offset + 1⟩ :: following (offset + 1) rest
      let broken (token : Token) (flaw : Flaw) : List Lexeme := [⟨token, offset, flaw.offset⟩]
      let word (value : Option Bool) (letters : List Char) : List Lexeme :=
        match scanWord (offset + 1) letters rest with
        | .ok rest =>
            let stop := offset + 1 + letters.length
            ⟨.word (.ok value), offset, stop⟩ :: following stop rest
        | .error flaw => broken (.word (.error flaw)) flaw
      match character with
      | '[' => mark .openArray
      | ']' => mark .closeArray
      | '{' => mark .openObject
      | '}' => mark .closeObject
      | ',' => mark .comma
      | ':' => mark .colon
      | 'n' => word none ['u', 'l', 'l']
      | 't' => word (some true) ['r', 'u', 'e']
      | 'f' => word (some false) ['a', 'l', 's', 'e']
      | '"' =>
          let scanned := scanText (offset + 1) rest
          match scanned.flaw with
          | none =>
              ⟨.text scanned.pieces none, offset, scanned.stop⟩ ::
                following scanned.stop scanned.rest
          | some flaw => broken (.text scanned.pieces (some flaw)) flaw
      | _ =>
          if isSpace character then following (offset + 1) rest
          else if character = '-' || character.isDigit then
            match scanNumber offset (character :: rest) with
            | .ok scanned =>
                ⟨.number (.ok scanned.value), offset, scanned.stop⟩ ::
                  following scanned.stop scanned.rest
            | .error flaw => broken (.number (.error flaw)) flaw
          else [⟨.stray, offset, offset + character.utf8Size⟩]

/-- The tokens of a text. After a broken token nothing more is read. -/
def tokens (text : String) : List Lexeme :=
  tokensWithin text.length 0 text.toList

end VesselHub.Json
