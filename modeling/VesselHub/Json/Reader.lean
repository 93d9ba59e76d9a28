/-
Module: VesselHub.Json.Reader
Purpose: Read JSON text by a machine that takes one token at a time. The same machine skips values
  whose content does not matter, by laxer rules.
Main exports: Json.parse, Json.readValue, Json.Rules.strict, Json.Rules.skipping
-/
import VesselHub.Json.Token
import VesselHub.Json.Value

namespace VesselHub.Json

/-- What the machine makes of numbers and strings, and how many containers it lets into each
other. -/
structure Rules where
  number : Lexeme → Except Flaw Literal → Except Flaw Json
  text : Lexeme → List Piece → Option Flaw → Except Flaw String
  mayNest : Nat → Bool

namespace Rules

/-- Numbers and strings have to have a value, and containers nest at most 127 deep. A number that
is too large is noticed at its end, or in the midst of an exponent that is too large by itself. -/
def strict : Rules where
  number := fun lexeme read => do
    let literal ← read
    match literal.value? with
    | some value => return .number value
    | none => throw ⟨.hugeNumber, lexeme.stop - literal.idleDigits⟩
  text := fun lexeme pieces flaw =>
    (joinPieces (lexeme.start + 1) pieces flaw).map String.ofList
  mayNest := fun depth => depth ≤ 127

/-- Only the shape of numbers and strings counts, and containers nest without limit. A number that
breaks off is no number even at the end of the text. -/
def skipping : Rules where
  number := fun _ read =>
    match read with
    | .error flaw => .error { flaw with cause := .badNumber }
    | .ok _ => .ok .null
  text := fun _ _ flaw =>
    match flaw with
    | some flaw => .error flaw
    | none => .ok ""
  mayNest := fun _ => true

end Rules

/-- A container that waits for a value: the items so far, latest first, or the members so far and
the key of the value. -/
inductive Frame where
  | array (items : List Json)
  | object (members : List (String × Json)) (key : String)

/-- What the machine expects next. -/
inductive State where
  /-- A value, for the innermost frame. -/
  | value (frames : List Frame)
  /-- A value, or the end of the array just opened. -/
  | firstItem (frames : List Frame)
  /-- A comma, or the end of the array. -/
  | afterItem (frames : List Frame) (items : List Json)
  /-- A key, or the end of the object just opened. -/
  | firstKey (frames : List Frame)
  | key (frames : List Frame) (members : List (String × Json))
  | colon (frames : List Frame) (members : List (String × Json)) (key : String)
  /-- A comma, or the end of the object. -/
  | afterMember (frames : List Frame) (members : List (String × Json))
  | done (value : Json)

/-- Hands a finished value to the innermost frame. A repeated key keeps its first position and
takes the last value. -/
def give : List Frame → Json → State
  | [], value => .done value
  | .array items :: frames, value => .afterItem frames (value :: items)
  | .object members key :: frames, value => .afterMember frames (Entries.insert members key value)

/-- What is wrong if the text ends here. -/
def State.ending : State → Cause
  | .value _ | .key _ _ | .done _ => .endInValue
  | .firstItem _ | .afterItem _ _ => .endInList
  | .firstKey _ | .colon _ _ _ | .afterMember _ _ => .endInObject

/-- What is wrong with a token that cannot follow here. -/
def State.unexpected : State → Token → Cause
  | .value (.array _ :: _), .closeArray => .trailingComma
  | .key _ _, .closeObject => .trailingComma
  | .value _, _ | .firstItem _, _ => .noValue
  | .afterItem _ _, _ => .noListComma
  | .firstKey _, _ | .key _ _, _ => .keyIsNoText
  | .colon _ _ _, _ => .noColon
  | .afterMember _ _, _ => .noObjectComma
  | .done _, _ => .trailingText

/-- Starts a value at a token; `none` if no value starts with it. -/
def beginValue (rules : Rules) (frames : List Frame) (lexeme : Lexeme) :
    Option (Except Flaw State) :=
  let nested (state : State) : Except Flaw State :=
    if rules.mayNest (frames.length + 1) then .ok state else .error (lexeme.flaw .tooDeep)
  match lexeme.token with
  | .openArray => some (nested (.firstItem frames))
  | .openObject => some (nested (.firstKey frames))
  | .word value => some (value.map fun value => give frames (value.elim .null .bool))
  | .number read => some ((rules.number lexeme read).map (give frames))
  | .text pieces flaw =>
      some ((rules.text lexeme pieces flaw).map fun text => give frames (.string text))
  | _ => none

/-- One step of the machine; `none` if the token cannot follow here. -/
def step? (rules : Rules) (state : State) (lexeme : Lexeme) : Option (Except Flaw State) :=
  match state, lexeme.token with
  | .value frames, _ => beginValue rules frames lexeme
  | .firstItem frames, .closeArray => some (.ok (give frames (.array [])))
  | .firstItem frames, _ => beginValue rules (.array [] :: frames) lexeme
  | .afterItem frames items, .comma => some (.ok (.value (.array items :: frames)))
  | .afterItem frames items, .closeArray => some (.ok (give frames (.array items.reverse)))
  | .firstKey frames, .closeObject => some (.ok (give frames (.object [])))
  | .firstKey frames, .text pieces flaw =>
      some ((rules.text lexeme pieces flaw).map (.colon frames []))
  | .key frames members, .text pieces flaw =>
      some ((rules.text lexeme pieces flaw).map (.colon frames members))
  | .colon frames members key, .colon => some (.ok (.value (.object members key :: frames)))
  | .afterMember frames members, .comma => some (.ok (.key frames members))
  | .afterMember frames members, .closeObject => some (.ok (give frames (.object members)))
  | _, _ => none

/-- One step of the machine, or what is wrong with the token. -/
def step (rules : Rules) (state : State) (lexeme : Lexeme) : Except Flaw State :=
  (step? rules state lexeme).getD (.error (lexeme.flaw (state.unexpected lexeme.token)))

/-- Runs the machine on a text of `size` bytes until a value is complete; the tokens after it are
returned. -/
def readFrom (rules : Rules) (size : Nat) :
    State → List Lexeme → Except Flaw (Json × List Lexeme)
  | .done value, rest => .ok (value, rest)
  | state, [] => .error ⟨state.ending, size⟩
  | state, lexeme :: rest =>
      match step rules state lexeme with
      | .ok next => readFrom rules size next rest
      | .error flaw => .error flaw

/-- The value at the beginning of the tokens of a text of `size` bytes. -/
def readValue (rules : Rules) (size : Nat) :
    List Lexeme → Except Flaw (Json × List Lexeme) :=
  readFrom rules size (.value [])

/-- Reads a text that is one value. -/
def parse (text : String) : Except Flaw Json := do
  let (value, rest) ← readValue .strict text.utf8ByteSize (tokens text)
  match rest with
  | [] => return value
  | lexeme :: _ => throw (lexeme.flaw .trailingText)

end VesselHub.Json
