/-
Module: VesselHub.Proofs.Message.Inbound
Purpose: Reading what clients send. A message is told by its members: each kind of request writes
  the verb that it is known by and no verb that is looked for earlier, and a delta writes no verb
  at all, so every message is taken for what it is and read back as it was.
Main exports: Subscription.decode_encode, SubscribeRequest.decode_encode,
  UnsubscribeRequest.decode_encode, GetRequest.decode_encode, ListRequest.decode_encode,
  Inbound.classify_of_verbless, Inbound.classify_encode
-/
import VesselHub.Message.Inbound
import VesselHub.Proofs.Delta

namespace VesselHub

open Json

/-! ### Requests that are read back -/

/-- A request of a context and a list is read as the members that were written. -/
theorem Json.Shape.row_contextAndList {Item : Type} {read : Decoder Item}
    {name key context : String} {presence : Presence} {written : Json} {items : List Item}
    (differs : key ≠ "context")
    (items_read : Decoder.list read written = .ok items) :
    Shape.row ⟨name, [.of "context" .required .text, .of key presence (Decoder.list read)]⟩
        (.object [("context", .string context), (key, written)]) =
      .ok [("context", .string context), (key, written)] := by
  let items_field : Field := .of key presence (Decoder.list read)
  have found : [Field.of "context" .required .text, items_field].find? (·.name == key) =
      some items_field := by
    simp [items_field, Field.of, differs.symm]
  have fits : ∀ member ∈ [some ("context", Json.string context), some (key, written)],
      Shape.Fits ⟨name, [.of "context" .required .text, items_field]⟩ member := by
    rw [List.forall_mem_cons, List.forall_mem_singleton]
    exact ⟨Shape.fits_some rfl rfl, Shape.fits_some found (Field.check_of items_read)⟩
  exact Shape.row_objectOf fits
    (by simp [items_field, Field.of, Entries.contains, differs.symm])

theorem Json.Shape.items_of_found {Item : Type} {row : List (String × Json)} {key : String}
    {read : Decoder Item} {found : Json} (at_key : Entries.get? row key = some found) :
    Shape.items row key read = Decoder.list read found := by
  rw [Shape.items, at_key]

theorem Format.decode_name (format : Format) :
    Decoder.choice Format.choices (.string format.name) = .ok format := by
  cases format <;> rfl

theorem Subscription.decode_encode (subscription : Subscription) :
    Subscription.decode subscription.encode = .ok subscription := by
  have period_read (period : Nat) : Decoder.unsigned (.ofNat period) = .ok period := rfl
  have period_not_null (period : Nat) : Json.ofNat period ≠ .null := nofun
  have format_not_null (format : Format) : Json.string format.name ≠ .null := nofun
  obtain ⟨row, row_eq, path, period, format⟩ :
      ∃ row, Subscription.shape.row subscription.encode = .ok row ∧
        Entries.get? row "path" = some (.string subscription.path) ∧
        Entries.get? row "period" = subscription.period.map .ofNat ∧
        Entries.get? row "format" = subscription.format.map fun format => .string format.name := by
    refine ⟨_, Shape.row_objectOf ?_
      (by simp [Subscription.shape, Field.of, Entries.contains]), ?_⟩
    · simp only [List.forall_mem_cons, List.not_mem_nil, false_implies, implies_true, and_true]
      exact ⟨Shape.fits_some rfl rfl, Shape.fits_nullable rfl period_read period_not_null,
        Shape.fits_nullable rfl Format.decode_name format_not_null⟩
    · simp
  rw [Subscription.decode, row_eq]
  simp only [bind, Except.bind, Shape.value_of_get? path,
    Shape.value?_of_get? period period_read period_not_null,
    Shape.value?_of_get? format Format.decode_name format_not_null]
  rfl

theorem SubscribeRequest.decode_encode (request : SubscribeRequest) :
    SubscribeRequest.decode request.encode = .ok request := by
  have entries_read := list_map fun entry (_ : entry ∈ request.subscriptions) =>
    Subscription.decode_encode entry
  rw [SubscribeRequest.decode, SubscribeRequest.encode, SubscribeRequest.shape,
    Shape.row_contextAndList (by decide) entries_read]
  simp only [bind, Except.bind]
  rw [Shape.value_of_get? rfl, Shape.value_of_get? rfl, entries_read]
  rfl

theorem UnsubscribeRequest.decodeSpec_encodeSpec (path : String) :
    UnsubscribeRequest.decodeSpec (UnsubscribeRequest.encodeSpec path) = .ok path :=
  rfl

theorem UnsubscribeRequest.decode_encode (request : UnsubscribeRequest) :
    UnsubscribeRequest.decode request.encode = .ok request := by
  have paths_read := list_map fun path (_ : path ∈ request.paths) =>
    UnsubscribeRequest.decodeSpec_encodeSpec path
  rw [UnsubscribeRequest.decode, UnsubscribeRequest.encode, UnsubscribeRequest.shape,
    Shape.row_contextAndList (by decide) paths_read]
  simp only [bind, Except.bind]
  rw [Shape.value_of_get? rfl, Shape.value_of_get? rfl, paths_read]
  rfl

theorem Json.list_ofStrings (texts : List String) :
    Decoder.list .text (.ofStrings texts) = .ok texts :=
  list_map fun _ _ => rfl

theorem GetRequest.decode_encode (request : GetRequest) :
    GetRequest.decode request.encode = .ok request := by
  have wanted_read := Json.list_ofStrings request.wanted
  rw [GetRequest.decode, GetRequest.encode, GetRequest.shape,
    Shape.row_contextAndList (by decide) wanted_read]
  simp only [bind, Except.bind]
  rw [Shape.value_of_get? rfl, Shape.items_of_found rfl, wanted_read]
  rfl

theorem ListRequest.decode_encode (request : ListRequest) :
    ListRequest.decode request.encode = .ok request := by
  have wanted_read := Json.list_ofStrings request.wanted
  rw [ListRequest.decode, ListRequest.encode, ListRequest.shape,
    Shape.row_contextAndList (by decide) wanted_read]
  simp only [bind, Except.bind]
  rw [Shape.value_of_get? rfl, Shape.items_of_found rfl, wanted_read]
  rfl

/-! ### Telling messages apart -/

namespace Inbound

/-- The members by which other messages than deltas are known, in the order of looking. -/
def verbs : List String := [vesselsKey, "subscribe", "unsubscribe", "get", "list"]

/-- A message with a context and no verb is taken for a delta, whatever else it holds. -/
theorem classify_of_verbless {members : List (String × Json)}
    (verbless : ∀ verb ∈ verbs, Entries.get? members verb = none)
    (in_context : (Entries.get? members "context").isSome) :
    classify (.object members) = .ok (.delta (.object members)) := by
  simp only [verbs, List.forall_mem_cons, List.not_mem_nil, false_implies, implies_true,
    and_true] at verbless
  obtain ⟨document, subscribe, unsubscribe, get, list⟩ := verbless
  simp [classify, Entries.contains, document, subscribe, unsubscribe, get, list, in_context]

/-- A message in which the verb of a request comes first is taken for that request. -/
theorem classify_of_verb {Request : Type} {kind : Request → Inbound} {decode : Decoder Request}
    {written : Json} {request : Request}
    (verb_found : classify written = ((decode written).map kind).mapError .misfit)
    (read : decode written = .ok request) : classify written = .ok (kind request) := by
  rw [verb_found, read]
  rfl

/-- Whichever of its fields a delta leaves out, it writes its context and no verb. -/
theorem classify_encode_delta (delta : Delta) :
    classify delta.encode = .ok (.delta delta.encode) := by
  change classify (.object (present [_, _, _, _])) = _
  refine classify_of_verbless ?_ rfl
  simp [verbs, vesselsKey, Delta.get?_present_list]

/-- Every request that a client writes is taken for a request of its kind and read back as it was,
and every delta is taken for a delta that reads back as it was, whatever fields are left out. -/
theorem classify_encode :
    (∀ request : SubscribeRequest, classify request.encode = .ok (.subscribe request)) ∧
    (∀ request : UnsubscribeRequest, classify request.encode = .ok (.unsubscribe request)) ∧
    (∀ request : GetRequest, classify request.encode = .ok (.get request)) ∧
    (∀ request : ListRequest, classify request.encode = .ok (.list request)) ∧
    ∀ delta : Delta, classify delta.encode = .ok (.delta delta.encode) ∧
      Delta.decode delta.encode = .ok delta :=
  ⟨fun request => classify_of_verb rfl (SubscribeRequest.decode_encode request),
    fun request => classify_of_verb rfl (UnsubscribeRequest.decode_encode request),
    fun request => classify_of_verb rfl (GetRequest.decode_encode request),
    fun request => classify_of_verb rfl (ListRequest.decode_encode request),
    fun delta => ⟨classify_encode_delta delta, Delta.decode_encode delta⟩⟩

end Inbound

end VesselHub
