/-
Module: VesselHub.Proofs.Json.Apart
Purpose: Values put into a document at paths of which neither leads to the other. Each is found, the
  rest of the document stays, keys keep their positions, and the order of putting shows in the order
  of members only.
Main exports: Json.reordered_insertAt_comm, Json.keys_insertAt_prefix, Json.Descent,
  Json.insertByDescent, Json.insertAt_lawful
-/
import VesselHub.Proofs.Json.Insert
import VesselHub.Proofs.Json.Reordered

namespace VesselHub

/-- Under different keys it makes a difference to the order of new keys only which is written
first. -/
theorem Entries.insert_insert_perm {Value : Type} {key other : String} (differs : key ≠ other)
    (entries : Entries Value) (value twin : Value) :
    (insert (insert entries key value) other twin).Perm
      (insert (insert entries other twin) key value) := by
  induction entries with
  | nil => simpa [insert, differs, Ne.symm differs] using List.Perm.swap _ _ _
  | cons entry rest induction_step =>
      obtain ⟨present, old⟩ := entry
      by_cases is_key : present = key
      · subst is_key
        simp [insert, differs]
      · by_cases is_other : present = other
        · subst is_other
          simp [insert, Ne.symm differs]
        · simpa [insert, is_key, is_other] using induction_step

namespace Json

variable {document : Json} {path other : List String} {members : List (String × Json)}

/-! ### The order of putting -/

/-- Values under one key that differ in the order of members only. -/
theorem Reordered.insert {one twin : Json} (inner : Reordered one twin)
    (members : List (String × Json)) (key : String) :
    Reordered (.object (Entries.insert members key one))
      (.object (Entries.insert members key twin)) := by
  cases found : Entries.get? members key with
  | none =>
      have absent := (Entries.get?_eq_none_iff members key).1 found
      rw [Entries.insert_of_not_mem absent, Entries.insert_of_not_mem absent]
      exact .member members [] key inner
  | some old =>
      obtain ⟨before, after, rfl, absent⟩ := Entries.exists_split_of_get? found
      rw [Entries.insert_of_split absent, Entries.insert_of_split absent]
      exact .member before after key inner

/-- Below one key both values are put into what stands there. -/
private theorem insertAt_insertAt_cons (document : Json) (key : String) (path other : List String)
    (value twin : Json) :
    (document.insertAt (key :: path) value).insertAt (key :: other) twin =
      .object (Entries.insert document.membersOf key
        ((((document.member? key).getD (.object [])).insertAt path value).insertAt other
          twin)) := by
  simp only [insertAt, membersOf, Entries.get?_insert_self, Option.getD_some,
    Entries.insert_insert, member?_eq_get?]

/-- Below different keys each value is put into what stood there before. -/
private theorem insertAt_insertAt_of_ne {key next : String} (differs : key ≠ next) (document : Json)
    (path other : List String) (value twin : Json) :
    (document.insertAt (key :: path) value).insertAt (next :: other) twin =
      .object (Entries.insert
        (Entries.insert document.membersOf key
          (((document.member? key).getD (.object [])).insertAt path value)) next
        (((document.member? next).getD (.object [])).insertAt other twin)) := by
  simp only [insertAt, membersOf, Entries.get?_insert_of_ne _ _ differs, member?_eq_get?]

theorem reordered_insertAt_comm (apart : Path.Apart path other) (document value twin : Json) :
    Reordered ((document.insertAt path value).insertAt other twin)
      ((document.insertAt other twin).insertAt path value) := by
  induction path generalizing document other with
  | nil => exact absurd List.nil_prefix apart.1
  | cons key path induction_step =>
      cases other with
      | nil => exact absurd List.nil_prefix apart.2
      | cons next other =>
          by_cases same : key = next
          · subst same
            rw [insertAt_insertAt_cons, insertAt_insertAt_cons]
            exact (induction_step (Path.apart_cons_iff.1 apart) _).insert _ key
          · rw [insertAt_insertAt_of_ne same, insertAt_insertAt_of_ne (Ne.symm same)]
            exact .members (Entries.insert_insert_perm same ..)

/-! ### The positions of keys -/

/-- Objects that are not put away keep their keys where they are; a new one comes last. -/
theorem keys_insertAt_prefix (stays : ¬ path <+: other) (value : Json)
    (found : document.walk? other = some (.object members)) :
    ∃ after, (document.insertAt path value).walk? other = some (.object after) ∧
      Entries.keys members <+: Entries.keys after := by
  rcases prefix_cases path other with ⟨rest, rfl⟩ | ⟨rest, below, rfl⟩ | apart
  · exact absurd (List.prefix_append path rest) stays
  · cases rest with
    | nil => exact absurd rfl below
    | cons key rest =>
        rw [walk?_insertAt_above, found, Option.getD_some, insertAt]
        refine ⟨_, rfl, ?_⟩
        rw [membersOf, Entries.keys_insert]
        split
        · exact List.prefix_rfl
        · exact List.prefix_append _ _
  · exact ⟨members, (walk?_insertAt_apart apart document value).trans found, List.prefix_rfl⟩

/-! ### Going down step by step -/

/-- A place that was reached in a document: what stands there and, from the inside out, the members
of each object around it with the key that leads further in. -/
structure Descent where
  around : List (List (String × Json) × String)
  here : Json

namespace Descent

def start (document : Json) : Descent := ⟨[], document⟩

/-- Goes on under a key. What is no object gives way to one, and a key that is absent gets one. -/
def enter (descent : Descent) (key : String) : Descent where
  around := (descent.here.membersOf, key) :: descent.around
  here := (Entries.get? descent.here.membersOf key).getD (.object [])

/-- The whole document when something else stands at the place. -/
def replace (descent : Descent) (value : Json) : Json :=
  descent.around.foldl (fun inner level => .object (Entries.insert level.1 level.2 inner)) value

/-- Each step leaves less of the path to go, with the same outcome. -/
private theorem replace_insertAt_enter (descent : Descent) (key : String) (path : List String)
    (value : Json) :
    (descent.enter key).replace ((descent.enter key).here.insertAt path value) =
      descent.replace (descent.here.insertAt (key :: path) value) :=
  rfl

private theorem replace_insertAt_foldl (descent : Descent) (above below : List String)
    (value : Json) :
    let reached := above.foldl enter descent
    reached.replace (reached.here.insertAt below value) =
      descent.replace (descent.here.insertAt (above ++ below) value) := by
  induction above generalizing descent with
  | nil => rfl
  | cons key above induction_step =>
      rw [List.cons_append, ← replace_insertAt_enter]
      exact induction_step (descent.enter key)

end Descent

/-- Puts a value into a document by going down along all keys but the last, which is then written
where the way has led. -/
def insertByDescent (document : Json) (path : List String) (value : Json) : Json :=
  match path.getLast? with
  | none => value
  | some last =>
      let reached := path.dropLast.foldl Descent.enter (.start document)
      reached.replace (.object (Entries.insert reached.here.membersOf last value))

theorem insertByDescent_eq (document : Json) (path : List String) (value : Json) :
    document.insertByDescent path value = document.insertAt path value := by
  rcases path.eq_nil_or_concat' with rfl | ⟨above, last, rfl⟩
  · rfl
  · rw [insertByDescent, List.getLast?_concat, List.dropLast_concat]
    exact Descent.replace_insertAt_foldl (.start document) above [last] value

/-- What is put at a path is found there. Along any path that is apart from it nothing changes.
Every object that does not give way to it has the keys that it had at their positions. And two
values at paths apart from each other are there whichever is put first. -/
theorem insertAt_lawful (document : Json) (path : List String) (value : Json) :
    document.insertByDescent path value = document.insertAt path value ∧
      (document.insertAt path value).walk? path = some value ∧
      (∀ other, Path.Apart path other →
        (document.insertAt path value).walk? other = document.walk? other) ∧
      (∀ other members, ¬ path <+: other → document.walk? other = some (.object members) →
        ∃ after, (document.insertAt path value).walk? other = some (.object after) ∧
          Entries.keys members <+: Entries.keys after) ∧
      ∀ other twin, Path.Apart path other →
        Reordered ((document.insertAt path value).insertAt other twin)
          ((document.insertAt other twin).insertAt path value) :=
  ⟨insertByDescent_eq document path value, walk?_insertAt_self document path value,
    fun _ apart => walk?_insertAt_apart apart document value,
    fun _ _ stays found => keys_insertAt_prefix stays value found,
    fun _ twin apart => reordered_insertAt_comm apart document value twin⟩

/-- An array gives way, and the keys that are new stand in the order of putting. -/
example :
    let document : Json := .object [("tanks", .array [.null]), ("name", .string "Gull")]
    (document.insertAt ["tanks", "fuel"] .null).insertAt ["tanks", "water"] (.bool true) =
        .object [("tanks", .object [("fuel", .null), ("water", .bool true)]),
          ("name", .string "Gull")] ∧
      (document.insertAt ["tanks", "water"] (.bool true)).insertAt ["tanks", "fuel"] .null =
        .object [("tanks", .object [("water", .bool true), ("fuel", .null)]),
          ("name", .string "Gull")] := by
  exact ⟨rfl, rfl⟩

end Json

end VesselHub
