/-
Module: VesselHub.Proofs.Json.Reach
Purpose: The locations inside a value: the keys of members and the positions of items that lead
  there. What is put into a document adds its path and its own locations, and nothing else.
Main exports: Json.Reaches, Json.reaches_insertAt, Tree.reaches_encode, Tree.encode_reaches
-/
import VesselHub.Json.Insert
import VesselHub.Proofs.Json.Record
import VesselHub.Proofs.Tree.Standing

namespace VesselHub

namespace Json

/-- A value is right inside another: a member under its key, an item under its position. -/
def HasPart (value : Json) (key : String) (part : Json) : Prop :=
  match value with
  | .object members => (key, part) ∈ members
  | .array items => ∃ position, items[position]? = some part ∧ key = Path.positionKey position
  | _ => False

/-- Keys and positions lead to something inside a value. -/
def Reaches (value : Json) : List String → Prop
  | [] => True
  | key :: keys => ∃ part, value.HasPart key part ∧ part.Reaches keys

private theorem hasPart_of_mem_membersOf {value part : Json} {key : String}
    (member : (key, part) ∈ value.membersOf) : value.HasPart key part := by
  cases value with
  | object members => exact member
  | null | bool | number | string | array => cases member

/-- A location in a document after something was put into it: one that was there, one on the way
to what was put, or one inside it. -/
theorem reaches_insertAt {document value : Json} {path keys : List String}
    (reaches : (document.insertAt path value).Reaches keys) :
    document.Reaches keys ∨ keys <+: path ∨
      ∃ rest, keys = path ++ rest ∧ value.Reaches rest := by
  induction path generalizing document keys with
  | nil => exact .inr (.inr ⟨keys, rfl, reaches⟩)
  | cons first path induction_step =>
      cases keys with
      | nil => exact .inl trivial
      | cons key keys =>
          rw [insertAt] at reaches
          obtain ⟨part, member, below⟩ := reaches
          rcases Entries.mem_insert member with changed | kept
          · cases changed
            rcases induction_step below with before | on_the_way | ⟨rest, rfl, inside⟩
            · cases found : Entries.get? document.membersOf first with
              | some inner =>
                  rw [found] at before
                  have part := hasPart_of_mem_membersOf (Entries.mem_of_get? found)
                  exact .inl ⟨inner, part, before⟩
              | none =>
                  rw [found] at before
                  cases keys with
                  | nil => exact .inr (.inl (List.cons_prefix_cons.2 ⟨rfl, List.nil_prefix⟩))
                  | cons key keys =>
                      obtain ⟨part, nothing, _⟩ := before
                      cases nothing
            · exact .inr (.inl (List.cons_prefix_cons.2 ⟨rfl, on_the_way⟩))
            · exact .inr (.inr ⟨rest, rfl, inside⟩)
          · exact .inl ⟨part, hasPart_of_mem_membersOf kept, below⟩

end Json

/-! ### Documents of trees -/

/-- What is inside the form of a leaf: its value, its time and its source. -/
theorem Leaf.reaches_encode {leaf : Leaf} {key : String} {keys : List String}
    (reaches : leaf.encode.Reaches (key :: keys)) :
    key = "value" ∧ leaf.value.Reaches keys ∨
      (key = "timestamp" ∨ key = "source") ∧ keys = [] := by
  obtain ⟨part, member, below⟩ := reaches
  have text_only {text : String} (inside : (Json.string text).Reaches keys) : keys = [] := by
    cases keys with
    | nil => rfl
    | cons key keys =>
        obtain ⟨_, nothing, _⟩ := inside
        cases nothing
  rcases List.mem_filterMap.1 (show (key, part) ∈ Json.present _ from member) with
    ⟨written, written_mem, written_eq⟩
  obtain rfl : written = some (key, part) := written_eq
  rcases List.mem_cons.1 written_mem with is_value | others
  · cases is_value
    exact .inl ⟨rfl, below⟩
  rcases List.mem_cons.1 others with is_timestamp | others
  · obtain ⟨text, text_eq, same⟩ := Option.map_eq_some_iff.1 is_timestamp.symm
    obtain ⟨_, _, rfl⟩ := Option.map_eq_some_iff.1 text_eq
    cases same
    exact .inr ⟨.inl rfl, text_only below⟩
  · obtain ⟨text, text_eq, same⟩ := Option.map_eq_some_iff.1 (List.mem_singleton.1 others).symm
    obtain ⟨_, _, rfl⟩ := Option.map_eq_some_iff.1 text_eq
    cases same
    exact .inr ⟨.inr rfl, text_only below⟩

namespace Tree

variable {tree branch : Tree} {keys : List String}

private theorem hasPart_encode {kid : Tree} {key : String} (has_kid : tree.HasKid key kid) :
    tree.encode.HasPart key kid.encode := by
  cases tree with
  | leaf held => cases has_kid
  | object children =>
      rw [encode, encodeChildren_eq_map]
      exact List.mem_map.2 ⟨_, has_kid, rfl⟩
  | array items =>
      obtain ⟨position, item_eq, key_eq⟩ := has_kid
      rw [encode, encodeItems_eq_map]
      exact ⟨position, by rw [List.getElem?_map, item_eq, Option.map_some], key_eq⟩

private theorem exists_kid_of_hasPart {key : String} {part : Json}
    (not_leaf : ∀ held, tree ≠ .leaf held)
    (has_part : tree.encode.HasPart key part) : ∃ kid, tree.HasKid key kid ∧ part = kid.encode := by
  cases tree with
  | leaf held => exact absurd rfl (not_leaf held)
  | object children =>
      rw [encode, encodeChildren_eq_map] at has_part
      obtain ⟨⟨_, kid⟩, member, same⟩ := List.mem_map.1 has_part
      cases same
      exact ⟨kid, member, rfl⟩
  | array items =>
      rw [encode, encodeItems_eq_map] at has_part
      obtain ⟨position, item_eq, key_eq⟩ := has_part
      rw [List.getElem?_map, Option.map_eq_some_iff] at item_eq
      obtain ⟨kid, kid_eq, rfl⟩ := item_eq
      exact ⟨kid, ⟨position, kid_eq, key_eq⟩, rfl⟩

/-- A location in the document of a tree is where a branch stands, or inside the form of a leaf. -/
theorem reaches_encode (reaches : tree.encode.Reaches keys) :
    (∃ branch, tree.StandsAt keys branch) ∨ ∃ above held key rest,
      tree.StandsAt above (.leaf held) ∧ keys = above ++ key :: rest ∧
        held.encode.Reaches (key :: rest) := by
  induction keys generalizing tree with
  | nil => exact .inl ⟨tree, rfl⟩
  | cons key keys induction_step =>
      by_cases is_leaf : ∃ held, tree = .leaf held
      · obtain ⟨held, rfl⟩ := is_leaf
        exact .inr ⟨[], held, key, keys, rfl, rfl, reaches⟩
      · rw [not_exists] at is_leaf
        obtain ⟨part, has_part, below⟩ := reaches
        obtain ⟨kid, has_kid, rfl⟩ := exists_kid_of_hasPart is_leaf has_part
        rcases induction_step below with
          ⟨branch, stands⟩ | ⟨above, held, next, rest, stands, rfl, inside⟩
        · exact .inl ⟨branch, kid, has_kid, stands⟩
        · exact .inr ⟨key :: above, held, next, rest, ⟨kid, has_kid, stands⟩, rfl, inside⟩

/-- Where a branch stands is a location in the document. -/
theorem encode_reaches (stands : tree.StandsAt keys branch) : tree.encode.Reaches keys := by
  induction keys generalizing tree with
  | nil => trivial
  | cons key keys induction_step =>
      obtain ⟨kid, has_kid, below⟩ := stands
      exact ⟨kid.encode, hasPart_encode has_kid, induction_step below⟩

end Tree

end VesselHub
