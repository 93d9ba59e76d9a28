/-
Module: VesselHub.Model.Apply
Purpose: Apply inbound documents and deltas to the model, value by value.
Main exports: Model.apply, Model.applyDelta, MergeReport, ApplyError, Delta.batches
-/
import VesselHub.Delta
import VesselHub.Model.Skipped
import VesselHub.Model.Write

namespace VesselHub

/-- What became of a message. -/
structure MergeReport where
  /-- Values written. -/
  applied : Nat
  /-- Values skipped. -/
  rejected : Nat
  /-- Whether the message was a document. -/
  document : Bool
deriving DecidableEq, Repr

/-- Why a message was rejected as a whole. -/
inductive ApplyError where
  | notADelta
  | malformed (cause : Json.Misfit)

/-- The wording of a complaint. -/
def ApplyError.message : ApplyError → String
  | .notADelta => "message has neither a context nor a vessels document"
  | .malformed cause => "malformed delta: " ++ cause.message

/-- Values of one source, with the time of those that have none of their own. -/
structure Batch where
  source : String
  timestamp : Option String
  values : List PathValue

/-- The provenance of values that name no source. -/
def unknownSource : String := "unknown"

namespace Delta

/-- The flat values as a batch. -/
def flatBatch (delta : Delta) : List Batch :=
  if delta.values.isEmpty then []
  else [{
    source := (delta.source.map Source.provenance).getD unknownSource
    timestamp := delta.source.bind Source.timestamp
    values := delta.values }]

/-- An update as a batch. It is described by its own source, else named by its reference, else
described by the source of the delta; its time is its own, else that of its source, else that of
the source of the delta. -/
def updateBatch (delta : Delta) (update : Update) : Batch where
  source :=
    match update.source, update.sourceRef with
    | some source, _ => source.provenance
    | none, some reference => reference
    | none, none => (delta.source.map Source.provenance).getD unknownSource
  timestamp :=
    (update.timestamp.or (update.source.bind Source.timestamp)).or
      (delta.source.bind Source.timestamp)
  values := update.values

/-- The batches of a delta in order. -/
def batches (delta : Delta) : List Batch :=
  delta.flatBatch ++ delta.updates.map (updateBatch delta)

end Delta

/-- A value that can be written: the key of its leaf, the path of the branch that holds it, and
its time if one is given. -/
structure AcceptedValue where
  branch : String
  key : String
  value : Json
  stamp : Option Instant

/-- Why a value is skipped. -/
inductive Refusal where
  | emptyPath
  | badTimestamp (reason : TimeError)
deriving DecidableEq, Repr

/-- Decides on one value of a batch. -/
def Batch.accept (batch : Batch) (item : PathValue) : Except Refusal AcceptedValue :=
  let path := Path.ofText item.path
  match path.last? with
  | none => .error .emptyPath
  | some key =>
      let accepted (stamp : Option Instant) : AcceptedValue :=
        { branch := path.parent.raw, key, value := item.value, stamp }
      match item.timestamp.or batch.timestamp with
      | none => .ok (accepted none)
      | some raw =>
          match Instant.parse raw with
          | .ok instant => .ok (accepted (some instant))
          | .error reason => .error (.badTimestamp reason)

namespace MergeReport

/-- The report on a delta none of whose values was looked at yet. -/
def start : MergeReport := { applied := 0, rejected := 0, document := false }

/-- The report on a document, whose leaves are not counted. -/
def ofDocument : MergeReport := { applied := 0, rejected := 0, document := true }

def addApplied (report : MergeReport) : MergeReport :=
  { report with applied := report.applied + 1 }

def addRejected (report : MergeReport) (count : Nat) : MergeReport :=
  { report with rejected := report.rejected + count }

end MergeReport

namespace Model

/-- The time of the leaf under a key if the leaf holds this value from this source. -/
def unchangedSince (model : Model) (node : NodeId) (key : String) (value : Json)
    (source : String) : Option Instant := do
  let child ← model.child? node key
  let leaf ← model.leaf? child
  if leaf.value.same value ∧ leaf.source = some source then leaf.timestamp else none

/-- Writes an accepted value below the node of the context. A value without a time gets that of
the leaf it repeats, or else `now`, the one time of receipt of its message. -/
def writeAccepted (now : Instant) (source : String) (context : NodeId)
    (model : Model) (accepted : AcceptedValue) : Option Model := do
  let (model, node) ← model.addNode? context accepted.branch
  let repeated := model.unchangedSince node accepted.key accepted.value source
  let timestamp := (accepted.stamp.or repeated).getD now
  let (model, _) ← model.put? node accepted.key accepted.value source timestamp
  return model

/-- Applies the values of a batch one after the other. -/
def applyValues (now : Instant) (batch : Batch) (context : NodeId) :
    List PathValue → Model → MergeReport → Model × MergeReport
  | [], model, report => (model, report)
  | item :: items, model, report =>
      match (batch.accept item).toOption.bind (writeAccepted now batch.source context model) with
      | some written => applyValues now batch context items written report.addApplied
      | none => applyValues now batch context items model (report.addRejected 1)

/-- Applies a batch below the branch of a context, which is created. -/
def applyBatch (now : Instant) (context : Path) (state : Model × MergeReport) (batch : Batch) :
    Model × MergeReport :=
  match state.1.addNode? state.1.root context.raw with
  | some (model, node) => applyValues now batch node batch.values model state.2
  | none => (state.1, state.2.addRejected batch.values.length)

/-- Applies a delta. Each value is applied on its own, so one that is skipped keeps no other
from being written. The clock is taken to stand still meanwhile: a hub may read it anew for each
value without a time, and all these readings are `now` here. -/
def applyDelta (model : Model) (now : Instant) (delta : Delta) : Model × MergeReport :=
  let context := model.resolver.resolve delta.context
  delta.batches.foldl (applyBatch now context) (model, .start)

/-- Applies an inbound message: a document if it has vessels, else a delta if it has a context. -/
def apply (model : Model) (now : Instant) (message : Json) :
    Except ApplyError (Model × MergeReport) :=
  if (message.member? vesselsKey).isSome then
    .ok (model.merge message, .ofDocument)
  else if (message.member? "context").isNone then .error .notADelta
  else
    match Delta.decode message with
    | .ok delta => .ok (model.applyDelta now delta)
    | .error cause => .error (.malformed cause)

/-- What is logged about one value below a context. -/
def valueLog (context : Path) (batch : Batch) (item : PathValue) : List LogLine :=
  match batch.accept item with
  | .error .emptyPath => [.warn ("Skipping value with empty path in " ++ context.text)]
  | .error (.badTimestamp reason) =>
      [.warn ("Skipping " ++ context.text ++ "." ++ item.path ++ ": bad timestamp: " ++
        reason.message)]
  | .ok _ =>
      let full := context.join item.path
      match Path.validate full.raw with
      | .ok () => []
      | .error cause =>
          [.debug ("Non-conforming path " ++ full.text ++ ": " ++ cause.message)]

/-- What is logged when a delta has been applied. -/
def deltaLog (resolver : Resolver) (delta : Delta) (report : MergeReport) : List LogLine :=
  let context := resolver.resolve delta.context
  delta.batches.flatMap (fun batch => batch.values.flatMap (valueLog context batch)) ++
    [.debug ("Applied delta for " ++ context.text ++ ": " ++ Json.countText report.applied ++
      " values, " ++ Json.countText report.rejected ++ " rejected")]

/-- What is logged when a message has been applied. -/
def applyLog (model : Model) (now : Instant) (message : Json) : List LogLine :=
  if (message.member? vesselsKey).isSome then skippedInDocument model.resolver message
  else if (message.member? "context").isNone then
    [.warn "Rejected message without context"]
  else
    match Delta.decode message with
    | .ok delta => deltaLog model.resolver delta (model.applyDelta now delta).2
    | .error cause => [.warn ("Rejected malformed delta: " ++ cause.message)]

end Model

end VesselHub
