/-
Module: VesselHub.Config.Reader
Purpose: Read settings straight from text, where whatever is wrong first is reported.
Main exports: Config.ofText, Config.TextError
-/
import VesselHub.Config.Basic
import VesselHub.Json.Reader

namespace VesselHub.Config

open Json

/-- Why a text holds no settings. -/
inductive TextError where
  /-- It is not JSON. -/
  | flaw (cause : Cause)
  /-- It is, but a value does not fit or a setting is given twice. -/
  | misfit
  /-- The settings cannot be used. -/
  | invalid (cause : ConfigError)
deriving DecidableEq, Repr

/-- The value of a token that is a whole value. An array or an object fits no setting. -/
def scalar (lexeme : Lexeme) : Except TextError Json :=
  match lexeme.token with
  | .openArray | .openObject => .error .misfit
  | _ =>
      match step .strict (.value []) lexeme with
      | .ok (.done value) => .ok value
      | .ok state => .error (.flaw state.ending)
      | .error flaw => .error (.flaw flaw.cause)

/-- Reads the value of a setting, and makes the change. -/
def readSetting (setting : Setting) (config : Config) :
    List Lexeme → Except TextError (Config × List Lexeme)
  | [] => .error (.flaw .endInValue)
  | lexeme :: rest => do
      match setting.read (← scalar lexeme) with
      | .ok change => return (change config, rest)
      | .error _ => throw .misfit

/-- Skips a value that belongs to no setting. -/
def skipValue (lexemes : List Lexeme) : Except TextError (List Lexeme) :=
  match readValue .skipping 0 lexemes with
  | .ok (_, rest) => .ok rest
  | .error flaw => .error (.flaw flaw.cause)

/-- Takes the colon behind a key. -/
def afterColon : List Lexeme → Except TextError (List Lexeme)
  | [] => .error (.flaw .endInObject)
  | lexeme :: rest =>
      match lexeme.token with
      | .colon => .ok rest
      | _ => .error (.flaw .noColon)

/-- Reads one member, known or not, behind its key. -/
def readMember (key : String) (config : Config) (seen : List String) (lexemes : List Lexeme) :
    Except TextError (Config × List Lexeme) :=
  match settings.find? (·.name == key) with
  | some setting => do
      if key ∈ seen then throw .misfit
      readSetting setting config (← afterColon lexemes)
  | none => do
      return (config, ← skipValue (← afterColon lexemes))

/-- Reads members up to the closing brace. At most `limit` are there, `seen` were given before,
and the first may be missing. -/
def readMembers : Nat → Bool → Config → List String → List Lexeme →
    Except TextError (Config × List Lexeme)
  | 0, _, _, _, _ => .error (.flaw .endInObject)
  | _ + 1, isFirst, _, _, [] => .error (.flaw (if isFirst then .endInObject else .endInValue))
  | limit + 1, isFirst, config, seen, lexeme :: rest => do
      match lexeme.token with
      | .closeObject => if isFirst then return (config, rest) else throw (.flaw .trailingComma)
      | .text pieces flaw =>
          let key ← (Rules.strict.text lexeme pieces flaw).mapError (.flaw ·.cause)
          let (config, rest) ← readMember key config seen rest
          match rest with
          | [] => throw (.flaw .endInObject)
          | next :: rest =>
              match next.token with
              | .comma => readMembers limit false config (key :: seen) rest
              | .closeObject => return (config, rest)
              | _ => throw (.flaw .noObjectComma)
      | _ => throw (.flaw .keyIsNoText)

/-- The item that comes next in a list: before it stands a comma, unless it is the first. -/
def afterComma (isFirst : Bool) (lexemes : List Lexeme) : Except TextError (List Lexeme) :=
  match isFirst, lexemes with
  | true, _ => .ok lexemes
  | false, [] => .error (.flaw .endInList)
  | false, lexeme :: rest =>
      match lexeme.token with
      | .comma => .ok rest
      | _ => .error (.flaw .noListComma)

/-- Whether a list ends here. -/
def endsList (lexeme : Lexeme) : Bool :=
  match lexeme.token with
  | .closeArray => true
  | _ => false

/-- Reads the values of settings in order, up to the closing bracket. Trailing ones may be left
out. -/
def readItems : List Setting → Bool → Config → List Lexeme →
    Except TextError (Config × List Lexeme)
  | _, _, _, [] => .error (.flaw .endInList)
  | settings, isFirst, config, lexeme :: rest =>
      if endsList lexeme then .ok (config, rest)
      else
        match settings with
        | [] => .error (.flaw .trailingText)
        | setting :: settings => do
            let (config, rest) ←
              readSetting setting config (← afterComma isFirst (lexeme :: rest))
            readItems settings false config rest

/-- Reads the settings at the beginning of tokens. -/
def readTokens : List Lexeme → Except TextError (Config × List Lexeme)
  | [] => .error (.flaw .endInValue)
  | lexeme :: rest => do
      match lexeme.token with
      | .openObject => readMembers (rest.length + 1) true standard [] rest
      | .openArray => readItems settings true standard rest
      | _ =>
          let _ ← scalar lexeme
          throw .misfit

/-- Reads and checks the settings that a text holds. -/
def ofText (text : String) : Except TextError Config := do
  let (config, rest) ← readTokens (tokens text)
  if !rest.isEmpty then throw (.flaw .trailingText)
  match config.validate with
  | .ok () => return config
  | .error cause => throw (.invalid cause)

end VesselHub.Config
