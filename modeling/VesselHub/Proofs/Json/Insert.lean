/-
Module: VesselHub.Proofs.Json.Insert
Purpose: What stands where in a document after values have been put into it: at a path what was put
  there last, on the way to it objects, and everywhere else what stood there before.
Main exports: Json.locate?, Json.walk?_insertAt_append, Json.walk?_insertAt_above,
  Json.walk?_insertAt_apart, Json.insertAll, Json.Nests, Json.nests_insertAll
-/
import VesselHub.Json.Insert
import VesselHub.Path.Basic

namespace VesselHub

/-- Neither of two paths leads to the other or through it. -/
def Path.Apart (one other : List String) : Prop :=
  ¬ one <+: other ∧ ¬ other <+: one

theorem Path.Apart.symm {one other : List String} (apart : Apart one other) : Apart other one :=
  ⟨apart.2, apart.1⟩

theorem Path.apart_append_iff {above one other : List String} :
    Apart (above ++ one) (above ++ other) ↔ Apart one other := by
  simp only [Apart, List.prefix_append_right_inj]

theorem Path.apart_cons_iff {key : String} {one other : List String} :
    Apart (key :: one) (key :: other) ↔ Apart one other := by
  simp only [Apart, List.cons_prefix_cons, true_and]

namespace Json

/-- What is right inside a value under a key. Items of arrays have their positions as keys. -/
def part? (value : Json) (key : String) : Option Json :=
  match value with
  | .object members => Entries.get? members key
  | .array items => (Path.position? key).bind fun position => items[position]?
  | _ => none

/-- What stands at a location of a value. -/
def locate? : Json → List String → Option Json
  | value, [] => some value
  | value, key :: keys => (value.part? key).bind fun part => locate? part keys

variable {document value part : Json} {path keys : List String}

theorem member?_eq_get? (document : Json) (key : String) :
    document.member? key = Entries.get? document.membersOf key := by
  cases document <;> rfl

theorem part?_of_member? {key : String} (found : document.member? key = some part) :
    document.part? key = some part := by
  cases document with
  | object members => exact found
  | null | bool | number | string | array => cases found

theorem locate?_append (value : Json) (keys more : List String) :
    value.locate? (keys ++ more) = (value.locate? keys).bind fun part => part.locate? more := by
  induction keys generalizing value with
  | nil => rfl
  | cons key keys induction_step =>
      rw [List.cons_append, locate?, locate?]
      cases value.part? key with
      | none => rfl
      | some part => exact induction_step part

theorem walk?_append (value : Json) (keys more : List String) :
    value.walk? (keys ++ more) = (value.walk? keys).bind fun part => part.walk? more := by
  induction keys generalizing value with
  | nil => rfl
  | cons key keys induction_step =>
      rw [List.cons_append, walk?, walk?]
      cases value.member? key with
      | none => rfl
      | some part => exact induction_step part

/-- What is reached through objects stands there. -/
theorem locate?_of_walk? (found : document.walk? keys = some part) :
    document.locate? keys = some part := by
  induction keys generalizing document with
  | nil => exact found
  | cons key keys induction_step =>
      obtain ⟨inner, inner_eq, rest⟩ := Option.bind_eq_some_iff.1 found
      rw [locate?, part?_of_member? inner_eq]
      exact induction_step rest

/-! ### Putting one value -/

theorem walk?_insertAt_cons (document value : Json) (key : String) (path keys : List String) :
    (document.insertAt (key :: path) value).walk? (key :: keys) =
      (((document.member? key).getD (.object [])).insertAt path value).walk? keys := by
  rw [insertAt, walk?, member?, Entries.get?_insert_self, Option.bind_some, member?_eq_get?]

theorem locate?_insertAt_cons (document value : Json) (key : String) (path keys : List String) :
    (document.insertAt (key :: path) value).locate? (key :: keys) =
      (((document.member? key).getD (.object [])).insertAt path value).locate? keys := by
  rw [insertAt, locate?, part?, Entries.get?_insert_self, Option.bind_some, member?_eq_get?]

/-- Below a path stands what is inside the value that was put there. -/
theorem walk?_insertAt_append (document value : Json) (path keys : List String) :
    (document.insertAt path value).walk? (path ++ keys) = value.walk? keys := by
  induction path generalizing document with
  | nil => rfl
  | cons key path induction_step =>
      rw [List.cons_append, walk?_insertAt_cons]
      exact induction_step _

theorem locate?_insertAt_append (document value : Json) (path keys : List String) :
    (document.insertAt path value).locate? (path ++ keys) = value.locate? keys := by
  rw [locate?_append, locate?_of_walk? (walk?_insertAt_self document path value), Option.bind_some]

/-- On the way to a path the value is put into what stands there, or into a new object. -/
theorem walk?_insertAt_above (document value : Json) (above below : List String) :
    (document.insertAt (above ++ below) value).walk? above =
      some (((document.walk? above).getD (.object [])).insertAt below value) := by
  induction above generalizing document with
  | nil => rfl
  | cons key above induction_step =>
      rw [List.cons_append, walk?_insertAt_cons, induction_step, walk?]
      cases document.member? key with
      | some inner => rfl
      | none => cases above <;> rfl

/-- Apart from a path everything that can be reached through objects stays. -/
theorem walk?_insertAt_apart (apart : Path.Apart path keys) (document value : Json) :
    (document.insertAt path value).walk? keys = document.walk? keys := by
  induction path generalizing document keys with
  | nil => exact absurd List.nil_prefix apart.1
  | cons key path induction_step =>
      cases keys with
      | nil => exact absurd List.nil_prefix apart.2
      | cons next keys =>
          by_cases same : key = next
          · subst same
            have below := Path.apart_cons_iff.1 apart
            rw [walk?_insertAt_cons, induction_step below, walk?]
            cases document.member? key with
            | some inner => rfl
            | none =>
                cases keys with
                | nil => exact absurd List.nil_prefix below.2
                | cons next keys => rfl
          · rw [insertAt, walk?, walk?, member?, Entries.get?_insert_of_ne _ _ same,
              ← member?_eq_get?]

/-- Apart from a path nothing is new. -/
theorem locate?_of_insertAt_apart (apart : Path.Apart path keys)
    (found : (document.insertAt path value).locate? keys = some part) :
    document.locate? keys = some part := by
  induction path generalizing document keys with
  | nil => exact absurd List.nil_prefix apart.1
  | cons key path induction_step =>
      cases keys with
      | nil => exact absurd List.nil_prefix apart.2
      | cons next keys =>
          by_cases same : key = next
          · subst same
            have below := Path.apart_cons_iff.1 apart
            rw [locate?_insertAt_cons] at found
            have before := induction_step below found
            rw [locate?]
            cases inner_eq : document.member? key with
            | some inner =>
                rw [inner_eq] at before
                rw [part?_of_member? inner_eq]
                exact before
            | none =>
                rw [inner_eq] at before
                cases keys with
                | nil => exact absurd List.nil_prefix below.2
                | cons next keys => cases before
          · rw [insertAt, locate?, part?, Entries.get?_insert_of_ne _ _ same,
              ← member?_eq_get?] at found
            obtain ⟨inner, inner_eq, rest⟩ := Option.bind_eq_some_iff.1 found
            rw [locate?, part?_of_member? inner_eq]
            exact rest

/-- Where a location is, seen from a path. -/
theorem prefix_cases (path keys : List String) :
    (∃ rest, keys = path ++ rest) ∨ (∃ rest, rest ≠ [] ∧ path = keys ++ rest) ∨
      Path.Apart path keys := by
  by_cases below : path <+: keys
  · obtain ⟨rest, split⟩ := below
    exact .inl ⟨rest, split.symm⟩
  · by_cases above : keys <+: path
    · obtain ⟨rest, split⟩ := above
      refine .inr (.inl ⟨rest, ?_, split.symm⟩)
      rintro rfl
      rw [List.append_nil] at split
      exact below (split ▸ List.prefix_rfl)
    · exact .inr (.inr ⟨below, above⟩)

/-! ### Putting many values -/

/-- Puts values into a document, one after the other. -/
def insertAll (document : Json) (places : List (List String × Json)) : Json :=
  places.foldl (fun document place => document.insertAt place.1 place.2) document

/-- A document holds each value at its path and nothing else: on the way to the values it has
objects, each key of them once. -/
structure Nests (document : Json) (places : List (List String × Json)) : Prop where
  holds : ∀ place ∈ places, document.walk? place.1 = some place.2
  nothing_else : ∀ keys part, document.locate? keys = some part →
    (∃ place ∈ places, ∃ rest, keys = place.1 ++ rest ∧ place.2.locate? rest = some part) ∨
      (keys = [] ∨ ∃ place ∈ places, keys <+: place.1 ∧ keys ≠ place.1) ∧
        ∃ members, part = .object members ∧ (Entries.keys members).Nodup

private theorem nests_nothing : Nests (.object []) [] where
  holds := by simp
  nothing_else keys part found := by
    cases keys with
    | nil =>
        cases found
        exact .inr ⟨.inl rfl, [], rfl, List.nodup_nil⟩
    | cons key keys => cases found

/-- A value that is put apart from the others joins them. -/
theorem Nests.insertAt {places : List (List String × Json)} (nests : document.Nests places)
    (apart : ∀ place ∈ places, Path.Apart place.1 path) (value : Json) :
    (document.insertAt path value).Nests (places ++ [(path, value)]) where
  holds place member := by
    rcases List.mem_append.1 member with before | here
    · rw [walk?_insertAt_apart (apart place before).symm]
      exact nests.holds place before
    · rw [List.mem_singleton.1 here]
      exact walk?_insertAt_self document path value
  nothing_else keys part found := by
    rcases prefix_cases path keys with ⟨rest, rfl⟩ | ⟨rest, below, rfl⟩ | elsewhere
    · rw [locate?_insertAt_append] at found
      exact .inl ⟨(path, value), by simp, rest, rfl, found⟩
    · right
      refine ⟨.inr ⟨(keys ++ rest, value), by simp, List.prefix_append _ _, by simp [below]⟩, ?_⟩
      rw [locate?_of_walk? (walk?_insertAt_above document value keys rest)] at found
      cases found
      -- What the value is put into is an object of the document, or a new one.
      have distinct : (Entries.keys ((document.walk? keys).getD (.object [])).membersOf).Nodup := by
        cases inner_eq : document.walk? keys with
        | none => exact List.nodup_nil
        | some inner =>
            rcases nests.nothing_else keys inner (locate?_of_walk? inner_eq) with
              ⟨place, member, more, rfl, -⟩ | ⟨-, members, rfl, distinct⟩
            · rw [List.append_assoc] at apart
              exact absurd (List.prefix_append _ _) (apart place member).1
            · exact distinct
      cases rest with
      | nil => exact absurd rfl below
      | cons key rest => exact ⟨_, rfl, Entries.nodup_keys_insert distinct key _⟩
    · rcases nests.nothing_else keys part (locate?_of_insertAt_apart elsewhere found) with
        ⟨place, member, rest, split, inside⟩ | ⟨on_the_way, is_object⟩
      · exact .inl ⟨place, List.mem_append_left _ member, rest, split, inside⟩
      · refine .inr ⟨on_the_way.imp id ?_, is_object⟩
        rintro ⟨place, member, above⟩
        exact ⟨place, List.mem_append_left _ member, above⟩

theorem Nests.insertAll {earlier : List (List String × Json)} (nests : document.Nests earlier)
    (later : List (List String × Json))
    (apart : (earlier ++ later).Pairwise fun one other => Path.Apart one.1 other.1) :
    (document.insertAll later).Nests (earlier ++ later) := by
  induction later generalizing earlier document with
  | nil => rwa [List.append_nil]
  | cons place later induction_step =>
      have here : ∀ before ∈ earlier, Path.Apart before.1 place.1 := fun before member =>
        (List.pairwise_append.1 apart).2.2 before member place List.mem_cons_self
      rw [List.append_cons] at apart ⊢
      exact induction_step (nests.insertAt here place.2) apart

/-- Values at paths that are apart from each other nest. -/
theorem nests_insertAll {places : List (List String × Json)}
    (apart : places.Pairwise fun one other => Path.Apart one.1 other.1) :
    (insertAll (.object []) places).Nests places :=
  nests_nothing.insertAll places apart

end Json

end VesselHub
