/-
Module: VesselHub.Proofs.Message.Server
Purpose: Reading back what the hub sends. A message carries no tag and is read as the first kind
  whose fields it has, so a kind is told from those after it only if it requires a field that they
  lack. Greetings and deltas are read back as they were, and path lists as deltas.
Main exports: Hello.decode_encode, Hello.decode_of_nameless, Delta.ofContext,
  ServerMessage.ofJson_encode_iff
-/
import VesselHub.Message.Server
import VesselHub.Proofs.Delta

namespace VesselHub

open Json

namespace Hello

theorem decode_encode (greeting : Hello) : Hello.decode greeting.encode = .ok greeting := by
  have roles_read : Decoder.list .text (.ofStrings greeting.roles) = .ok greeting.roles :=
    list_map fun _ _ => rfl
  obtain ⟨row, row_eq, name, version, self, roles, timestamp⟩ :
      ∃ row, Hello.shape.row greeting.encode = .ok row ∧
        Entries.get? row "name" = some (.string greeting.name) ∧
        Entries.get? row "version" = some (.string greeting.version) ∧
        Entries.get? row "self" = some (.string greeting.selfContext) ∧
        Entries.get? row "roles" = some (.ofStrings greeting.roles) ∧
        Entries.get? row "timestamp" = some (.string greeting.timestamp) := by
    let members := [
      some ("name", Json.string greeting.name), some ("version", .string greeting.version),
      some ("self", .string greeting.selfContext), some ("roles", .ofStrings greeting.roles),
      some ("timestamp", .string greeting.timestamp)]
    have fits : ∀ member ∈ members, Hello.shape.Fits member := by
      simp only [members, List.forall_mem_cons, List.not_mem_nil, false_implies, implies_true,
        and_true]
      exact ⟨Shape.fits_some rfl rfl, Shape.fits_some rfl rfl, Shape.fits_some rfl rfl,
        Shape.fits_some rfl (Field.check_of roles_read), Shape.fits_some rfl rfl⟩
    exact ⟨present members, Shape.row_objectOf fits
      (by simp [members, Hello.shape, Field.of, Entries.contains]), by simp [members]⟩
  rw [Hello.decode, row_eq]
  simp only [bind, Except.bind, Shape.value_of_get? name, Shape.value_of_get? version,
    Shape.value_of_get? self, Shape.value_of_get? roles, Shape.value_of_get? timestamp, roles_read]
  rfl

/-- A greeting has a name. -/
theorem decode_of_nameless {members : List (String × Json)}
    (nameless : Entries.get? members "name" = none) :
    ∃ cause, Hello.decode (.object members) = .error cause := by
  have is_field : Field.of "name" .required .text ∈ Hello.shape.fields := List.mem_cons_self
  obtain ⟨cause, row_eq⟩ := Shape.row_of_missing is_field rfl nameless
  exact ⟨cause, by rw [Hello.decode, row_eq]; rfl⟩

end Hello

/-- A delta that changes nothing. -/
def Delta.ofContext (context : String) : Delta where
  context := context
  source := none
  values := []
  updates := []

private theorem Delta.nameless_encode (delta : Delta) :
    ∃ members, delta.encode = .object members ∧ Entries.get? members "name" = none := by
  refine ⟨present _, rfl, ?_⟩
  simp [get?_present_list]

/-- All that a delta requires is a context. -/
theorem Delta.decode_pathList (list : PathList) :
    Delta.decode list.encode = .ok (.ofContext list.context) := by
  rfl

namespace ServerMessage

theorem ofJson_of_nameless {members : List (String × Json)} {changes : Delta}
    (nameless : Entries.get? members "name" = none)
    (decoded : Delta.decode (.object members) = .ok changes) :
    ofJson (.object members) = .delta changes := by
  obtain ⟨cause, rejected⟩ := Hello.decode_of_nameless nameless
  rw [ofJson, rejected, decoded]

theorem ofJson_encode_hello (greeting : Hello) :
    ofJson (encode (.hello greeting)) = .hello greeting := by
  rw [encode, ofJson, Hello.decode_encode]

theorem ofJson_encode_delta (changes : Delta) :
    ofJson (encode (.delta changes)) = .delta changes := by
  obtain ⟨members, encode_eq, nameless⟩ := changes.nameless_encode
  have decoded := Delta.decode_encode changes
  rw [encode_eq] at decoded
  rw [encode, encode_eq]
  exact ofJson_of_nameless nameless decoded

/-- A path list has the context that a delta requires, and what it adds is ignored. -/
theorem ofJson_encode_pathList (list : PathList) :
    ofJson (encode (.pathList list)) = .delta (.ofContext list.context) :=
  ofJson_of_nameless rfl (Delta.decode_pathList list)

/-- A message of a fixed form is read back as it was sent if and only if it is no path list. A path
list is read as the delta of its context that changes nothing. -/
theorem ofJson_encode_iff {message : ServerMessage} (fixed : ∀ document, message ≠ .full document) :
    (ofJson message.encode = message ↔ ∀ list, message ≠ .pathList list) ∧
      ∀ list, message = .pathList list →
        ofJson message.encode = .delta (.ofContext list.context) := by
  cases message with
  | hello greeting => exact ⟨iff_of_true (ofJson_encode_hello greeting) nofun, nofun⟩
  | delta changes => exact ⟨iff_of_true (ofJson_encode_delta changes) nofun, nofun⟩
  | pathList list =>
      have as_delta := ofJson_encode_pathList list
      refine ⟨iff_of_false ?_ fun no_list => no_list list rfl, ?_⟩
      · rw [as_delta]
        exact nofun
      · rintro other ⟨⟩
        exact as_delta
  | full document => exact absurd rfl (fixed document)

/-- A change of course is read back. -/
theorem courseChange_read_back :
    let change : ServerMessage := .delta {
      context := "vessels.self"
      source := none
      values := []
      updates := [{
        sourceRef := some "compass", source := none, timestamp := some "2014-08-15T16:00:00.000Z"
        values := [⟨"navigation.course", .number (.int 2), none⟩] }] }
    (∀ document, change ≠ .full document) ∧ ofJson change.encode = change := by
  intro change
  have fixed : ∀ document, change ≠ .full document := nofun
  exact ⟨fixed, (ofJson_encode_iff fixed).1.2 nofun⟩

/-- A list of one path does not come back as a list. -/
theorem pathList_not_read_back :
    ¬ ∀ message : ServerMessage, (∀ document, message ≠ .full document) →
      ofJson message.encode = message := by
  intro always
  have same := always (.pathList ⟨"vessels.self", ["navigation.speed"]⟩) nofun
  rw [ofJson_encode_pathList] at same
  cases same

end ServerMessage

end VesselHub
