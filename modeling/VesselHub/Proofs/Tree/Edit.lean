/-
Module: VesselHub.Proofs.Tree.Edit
Purpose: Merging a document as edits of children, one after the other. Edits of one child in a row
  are a single edit, and edits that are made twice are made once, even where a later edit of the
  list destroys what an earlier one built.
Main exports: Tree.Edit, Tree.editChildren, Tree.Edit.andThen, Tree.Edit.apply_twice,
  Tree.editChildren_twice, Tree.merge_twice
-/
import VesselHub.Proofs.Tree.Keys
import VesselHub.Proofs.Tree.Merge

namespace VesselHub

/-- Entries with distinct keys are determined by their keys in order and the value under each. -/
theorem Entries.ext_of_get? {Value : Type} {one other : Entries Value}
    (distinct : (keys one).Nodup) (same_keys : keys one = keys other)
    (same_values : ∀ key, get? one key = get? other key) : one = other := by
  induction one generalizing other with
  | nil =>
      cases other with
      | nil => rfl
      | cons entry other => cases same_keys
  | cons entry one induction_step =>
      cases other with
      | nil => cases same_keys
      | cons second other =>
          obtain ⟨key, value⟩ := entry
          obtain ⟨same_key, value'⟩ := second
          rw [keys_cons, keys_cons, List.cons.injEq] at same_keys
          obtain ⟨rfl, rest_keys⟩ := same_keys
          rw [keys_cons, List.nodup_cons] at distinct
          have same_value : value = value' := by simpa [get?] using same_values key
          rw [same_value, induction_step distinct.2 rest_keys]
          intro wanted
          by_cases is_key : key = wanted
          · subst is_key
            rw [(get?_eq_none_iff one key).2 distinct.1,
              (get?_eq_none_iff other key).2 (rest_keys ▸ distinct.1)]
          · simpa [get?, is_key] using same_values wanted

namespace Tree

/-- What merging a document does to the child under a key. -/
inductive Edit where
  /-- The child stays as it is: a leaf with a bad time is skipped. -/
  | keep
  /-- A leaf or an array takes the place of the child. -/
  | place (tree : Tree)
  /-- The child becomes an object, whose own children are edited one after the other. -/
  | inside (edits : List (String × Edit))

mutual

/-- Edits the child under a key. -/
def editChild (tree : Tree) (key : String) : Edit → Tree
  | .keep => tree
  | .place child => tree.setChild key child
  | .inside edits => tree.setChild key (editChildren (tree.objectAt key) edits)

/-- Edits children one after the other. -/
def editChildren (tree : Tree) : List (String × Edit) → Tree
  | [] => tree
  | (key, edit) :: edits => editChildren (editChild tree key edit) edits

end

namespace Edit

/-- Whether there is a child afterwards in any case. -/
def acts : Edit → Bool
  | .keep => false
  | _ => true

/-- What becomes of a child, or of its absence. -/
def apply (edit : Edit) (child : Option Tree) : Option Tree :=
  match edit with
  | .keep => child
  | .place tree => some tree
  | .inside edits => some (editChildren (.object (child.getD .empty).childrenOf) edits)

/-- Two edits of a child in a row. -/
def andThen : Edit → Edit → Edit
  | first, .keep => first
  | _, .place tree => .place tree
  | .keep, .inside edits => .inside edits
  | .place tree, .inside edits => .place (editChildren (.object tree.childrenOf) edits)
  | .inside first, .inside second => .inside (first ++ second)

/-- All edits of the child under a key in a row. -/
def onKey (key : String) : List (String × Edit) → Edit
  | [] => .keep
  | (other, edit) :: edits =>
      if other = key then edit.andThen (onKey key edits) else onKey key edits

mutual

/-- How often an edit goes inside a child. -/
def size : Edit → Nat
  | .keep => 0
  | .place _ => 0
  | .inside edits => sizeAll edits + 1

def sizeAll : List (String × Edit) → Nat
  | [] => 0
  | (_, edit) :: edits => size edit + sizeAll edits

end

end Edit

variable {tree : Tree}

/-! ### What a list of edits does -/

theorem editChildren_append (tree : Tree) (first second : List (String × Edit)) :
    tree.editChildren (first ++ second) = (tree.editChildren first).editChildren second := by
  induction first generalizing tree with
  | nil => rfl
  | cons entry first induction_step =>
      obtain ⟨key, edit⟩ := entry
      exact induction_step _

private theorem editChild_object (children : List (String × Tree)) (key : String) (edit : Edit) :
    ∃ after, (object children).editChild key edit = .object after := by
  cases edit <;> exact ⟨_, rfl⟩

theorem editChildren_object (children : List (String × Tree)) (edits : List (String × Edit)) :
    ∃ after, (object children).editChildren edits = .object after := by
  induction edits generalizing children with
  | nil => exact ⟨children, rfl⟩
  | cons entry edits induction_step =>
      obtain ⟨key, edit⟩ := entry
      obtain ⟨between, first⟩ := editChild_object children key edit
      obtain ⟨after, rest⟩ := induction_step between
      exact ⟨after, by rw [editChildren, first, rest]⟩

/-- Edits that do anything make an object of the tree first. -/
theorem editChildren_of_object (tree : Tree) (edits : List (String × Edit)) :
    tree.editChildren edits = tree ∨
      tree.editChildren edits = (object tree.childrenOf).editChildren edits := by
  induction edits with
  | nil => exact Or.inl rfl
  | cons entry edits induction_step =>
      obtain ⟨key, edit⟩ := entry
      cases edit with
      | keep => exact induction_step
      | place child => exact Or.inr rfl
      | inside inner => exact Or.inr rfl

theorem get?_editChild_self (tree : Tree) (key : String) (edit : Edit) :
    Entries.get? (tree.editChild key edit).childrenOf key =
      edit.apply (Entries.get? tree.childrenOf key) := by
  cases edit with
  | keep => rfl
  | place child => exact Entries.get?_insert_self ..
  | inside edits => exact Entries.get?_insert_self ..

theorem get?_editChild_of_ne {key other : String} (differs : key ≠ other) (tree : Tree)
    (edit : Edit) : Entries.get? (tree.editChild key edit).childrenOf other =
      Entries.get? tree.childrenOf other := by
  cases edit with
  | keep => rfl
  | place child => exact Entries.get?_insert_of_ne _ _ differs
  | inside edits => exact Entries.get?_insert_of_ne _ _ differs

/-- Keys with another one behind them, unless it is among them. -/
def addKey (keys : List String) (key : String) : List String :=
  if key ∈ keys then keys else keys ++ [key]

theorem keys_editChild (tree : Tree) (key : String) (edit : Edit) :
    Entries.keys (tree.editChild key edit).childrenOf =
      if edit.acts then addKey (Entries.keys tree.childrenOf) key
      else Entries.keys tree.childrenOf := by
  cases edit with
  | keep => rfl
  | place child => exact Entries.keys_insert ..
  | inside edits => exact Entries.keys_insert ..

/-- Keys stay in their order, and the new ones come behind them. -/
theorem keys_editChildren (tree : Tree) (edits : List (String × Edit)) :
    Entries.keys (tree.editChildren edits).childrenOf =
      (Entries.keys (edits.filter fun entry => entry.2.acts)).foldl addKey
        (Entries.keys tree.childrenOf) := by
  induction edits generalizing tree with
  | nil => rfl
  | cons entry edits induction_step =>
      obtain ⟨key, edit⟩ := entry
      rw [editChildren, induction_step, keys_editChild]
      cases acts : edit.acts with
      | true => rw [List.filter_cons_of_pos (by exact acts)]; rfl
      | false => rw [List.filter_cons_of_neg (by simp [acts])]; rfl

/-- Two edits in a row do what the first does and then the second. -/
theorem Edit.apply_andThen (first second : Edit) (child : Option Tree) :
    (first.andThen second).apply child = second.apply (first.apply child) := by
  cases second with
  | keep => rfl
  | place tree => rfl
  | inside edits =>
      cases first with
      | keep => rfl
      | place tree => rfl
      | inside earlier =>
          obtain ⟨between, is_object⟩ := editChildren_object (child.getD .empty).childrenOf earlier
          rw [andThen, apply, apply, apply, editChildren_append, is_object, Option.getD_some]
          rfl

/-- The child under a key sees the edits of that key only. -/
theorem get?_editChildren (tree : Tree) (edits : List (String × Edit)) (key : String) :
    Entries.get? (tree.editChildren edits).childrenOf key =
      (Edit.onKey key edits).apply (Entries.get? tree.childrenOf key) := by
  induction edits generalizing tree with
  | nil => rfl
  | cons entry edits induction_step =>
      obtain ⟨other, edit⟩ := entry
      rw [editChildren, induction_step, Edit.onKey]
      by_cases same : other = key
      · subst same
        rw [if_pos rfl, Edit.apply_andThen, get?_editChild_self]
      · rw [if_neg same, get?_editChild_of_ne same]

/-! ### Making edits twice -/

private theorem nodup_foldl_addKey {keys : List String} (distinct : keys.Nodup)
    (added : List String) : (added.foldl addKey keys).Nodup := by
  induction added generalizing keys with
  | nil => exact distinct
  | cons key added induction_step =>
      apply induction_step
      rw [addKey]
      split
      · exact distinct
      · rename_i absent
        exact List.nodup_append.2 ⟨distinct, by simp, by
          intro other other_mem last last_mem same
          rw [List.mem_singleton.1 last_mem] at same
          exact absent (same ▸ other_mem)⟩

private theorem mem_foldl_addKey {keys added : List String} {key : String} :
    key ∈ added.foldl addKey keys ↔ key ∈ keys ∨ key ∈ added := by
  induction added generalizing keys with
  | nil => simp
  | cons first added induction_step =>
      rw [List.foldl_cons, induction_step, addKey]
      split <;> simp only [List.mem_append, List.mem_cons, List.not_mem_nil, or_false]
      · rename_i present
        constructor
        · exact Or.imp_right Or.inr
        · rintro (earlier | rfl | later)
          · exact Or.inl earlier
          · exact Or.inl present
          · exact Or.inr later
      · exact or_assoc

/-- Keys that are there already are not added. -/
private theorem foldl_addKey_of_subset {keys added : List String} (present : added ⊆ keys) :
    added.foldl addKey keys = keys := by
  induction added with
  | nil => rfl
  | cons key added induction_step =>
      rw [List.cons_subset] at present
      rw [List.foldl_cons, addKey, if_pos present.1, induction_step present.2]

theorem nodup_keys_childrenOf (distinct : tree.DistinctKeys) :
    (Entries.keys tree.childrenOf).Nodup := by
  cases tree with
  | object children => exact distinct.1
  | array items => exact List.nodup_nil
  | leaf held => exact List.nodup_nil

theorem distinctKeys_of_get? (distinct : tree.DistinctKeys) {key : String} {child : Tree}
    (found : Entries.get? tree.childrenOf key = some child) : child.DistinctKeys := by
  cases tree with
  | object children => exact EveryObject.kid distinct (Entries.mem_of_get? found)
  | array items => cases found
  | leaf held => cases found

/-- Edits are made once when they are made twice, if those of every single key are. -/
theorem editChildren_twice_of_onKey {children : List (String × Tree)}
    (distinct : (Entries.keys children).Nodup) {edits : List (String × Edit)}
    (each : ∀ key, (Edit.onKey key edits).apply
        ((Edit.onKey key edits).apply (Entries.get? children key)) =
      (Edit.onKey key edits).apply (Entries.get? children key)) :
    ((object children).editChildren edits).editChildren edits =
      (object children).editChildren edits := by
  obtain ⟨once, once_eq⟩ := editChildren_object children edits
  obtain ⟨twice, twice_eq⟩ := editChildren_object once edits
  have once_children : childrenOf ((object children).editChildren edits) = once := by
    rw [once_eq, childrenOf]
  have twice_children : childrenOf ((object once).editChildren edits) = twice := by
    rw [twice_eq, childrenOf]
  have once_keys := keys_editChildren (.object children) edits
  have twice_keys := keys_editChildren (.object once) edits
  rw [once_children] at once_keys
  rw [twice_children] at twice_keys
  -- All keys that are added the second time were added the first time.
  have same_keys : Entries.keys once = Entries.keys twice := by
    rw [twice_keys, childrenOf, foldl_addKey_of_subset]
    intro key added
    rw [once_keys]
    exact mem_foldl_addKey.2 (Or.inr added)
  have distinct_once : (Entries.keys once).Nodup := by
    rw [once_keys]
    exact nodup_foldl_addKey distinct _
  rw [once_eq, twice_eq, Entries.ext_of_get? distinct_once same_keys]
  intro key
  have at_once := get?_editChildren (.object children) edits key
  have at_twice := get?_editChildren (.object once) edits key
  rw [once_children, childrenOf] at at_once
  rw [twice_children, childrenOf, at_once] at at_twice
  rw [at_once, at_twice, each key]

namespace Edit

private theorem sizeAll_append (edits more : List (String × Edit)) :
    sizeAll (edits ++ more) = sizeAll edits + sizeAll more := by
  induction edits with
  | nil => rw [List.nil_append, sizeAll, Nat.zero_add]
  | cons entry edits induction_step =>
      rw [List.cons_append, sizeAll, sizeAll, induction_step, Nat.add_assoc]

theorem size_andThen_le (first second : Edit) :
    (first.andThen second).size ≤ first.size + second.size := by
  cases second with
  | keep => exact Nat.le_add_right ..
  | place tree => exact Nat.zero_le _
  | inside later =>
      cases first with
      | keep => exact Nat.le_add_left ..
      | place tree => exact Nat.zero_le _
      | inside edits =>
          rw [andThen, size, size, size, sizeAll_append]
          omega

theorem size_onKey_le (key : String) (edits : List (String × Edit)) :
    (onKey key edits).size ≤ sizeAll edits := by
  induction edits with
  | nil => simp [onKey, size]
  | cons entry edits induction_step =>
      obtain ⟨other, edit⟩ := entry
      rw [onKey, sizeAll]
      split
      · have joined := size_andThen_le edit (onKey key edits)
        omega
      · omega

/-- An edit that is made twice is made once. The induction is on how deep the edit goes, since the
edits of one key in a row are no part of the list that they come from. -/
theorem apply_twice (edit : Edit) {child : Option Tree}
    (distinct : (child.getD .empty).DistinctKeys) :
    edit.apply (edit.apply child) = edit.apply child := by
  induction depth : edit.size using Nat.strongRecOn generalizing edit child with
  | _ depth induction_step =>
      subst depth
      cases edit with
      | keep => rfl
      | place tree => rfl
      | inside edits =>
          have once := editChildren_twice_of_onKey (nodup_keys_childrenOf distinct) fun key =>
            induction_step _ (Nat.lt_succ_of_le (size_onKey_le key edits)) (onKey key edits) ?_ rfl
          · obtain ⟨after, is_object⟩ :=
              editChildren_object (child.getD .empty).childrenOf edits
            rw [is_object] at once
            rw [apply, apply, is_object, Option.getD_some]
            exact congrArg some once
          · cases found : Entries.get? (child.getD .empty).childrenOf key with
            | none => exact ⟨List.nodup_nil, trivial⟩
            | some inner => exact distinctKeys_of_get? distinct found

end Edit

/-- Edits that are made twice in a row are made once. -/
theorem editChildren_twice (distinct : tree.DistinctKeys) (edits : List (String × Edit)) :
    (tree.editChildren edits).editChildren edits = tree.editChildren edits := by
  rcases editChildren_of_object tree edits with same | made_object
  · rw [same, same]
  · rw [made_object]
    refine editChildren_twice_of_onKey (nodup_keys_childrenOf distinct) fun key =>
      Edit.apply_twice _ ?_
    cases found : Entries.get? tree.childrenOf key with
    | none => exact ⟨List.nodup_nil, trivial⟩
    | some child => exact distinctKeys_of_get? distinct found

/-! ### Writing at the end of keys -/

/-- What placing a tree at the end of keys does to the child under the first of them. -/
def Edit.along (placed : Tree) : List String → Edit
  | [] => .place placed
  | key :: keys => .inside [(key, along placed keys)]

/-- Placing a tree at the end of a path, as edits. -/
def Edit.placeAt (placed : Tree) : List String → List (String × Edit)
  | [] => []
  | key :: keys => [(key, along placed keys)]

theorem editChildren_placeAt (placed tree : Tree) {path : List String} (nonempty : path ≠ []) :
    tree.editChildren (Edit.placeAt placed path) = tree.changeAt path fun _ => placed := by
  cases path with
  | nil => exact absurd rfl nonempty
  | cons key keys =>
      induction keys generalizing tree key with
      | nil => rfl
      | cons next keys induction_step =>
          have inner := induction_step (tree.objectAt key) next (List.cons_ne_nil next keys)
          rw [changeAt, ← inner]
          rfl

/-! ### Merging -/

mutual

/-- What merging a document does. -/
def Edit.ofJson : Json → Edit
  | .object members =>
      if Entries.contains members "value" then
        match Leaf.decode members with
        | .ok held => .place (.leaf held)
        | .error _ => .keep
      else .inside (Edit.ofMembers members)
  | .array items => .place (.array (buildItems items))
  | .null => .place (.leaf (.bare .null))
  | .bool value => .place (.leaf (.bare (.bool value)))
  | .number value => .place (.leaf (.bare (.number value)))
  | .string value => .place (.leaf (.bare (.string value)))

def Edit.ofMembers : List (String × Json) → List (String × Edit)
  | [] => []
  | (key, value) :: members => (key, Edit.ofJson value) :: Edit.ofMembers members

end

/-- What merging a top-level member of a document does. -/
def Edit.ofTop (resolver : Resolver) : String × Json → Edit
  | (key, .object members) =>
      if key = vesselsKey then
        .inside (members.map fun vessel => (resolver.resolveKey vessel.1, .ofJson vessel.2))
      else .ofJson (.object members)
  | (_, value) => .ofJson value

mutual

theorem mergeChild_eq_editChild : ∀ (document : Json) (tree : Tree) (key : String),
    tree.mergeChild key document = tree.editChild key (.ofJson document)
  | .object members, tree, key => by
      rw [mergeChild, Edit.ofJson]
      split
      · cases Leaf.decode members <;> rfl
      · rw [editChild, mergeMembers_eq_editChildren members]
  | .array items, tree, key => by rw [mergeChild, Edit.ofJson, editChild]
  | .null, tree, key => by rw [mergeChild, Edit.ofJson, editChild, putLeaf]
  | .bool value, tree, key => by rw [mergeChild, Edit.ofJson, editChild, putLeaf]
  | .number value, tree, key => by rw [mergeChild, Edit.ofJson, editChild, putLeaf]
  | .string value, tree, key => by rw [mergeChild, Edit.ofJson, editChild, putLeaf]

theorem mergeMembers_eq_editChildren : ∀ (members : List (String × Json)) (tree : Tree),
    tree.mergeMembers members = tree.editChildren (Edit.ofMembers members)
  | [], _ => rfl
  | (key, value) :: members, tree => by
      rw [mergeMembers, Edit.ofMembers, editChildren, mergeChild_eq_editChild value,
        mergeMembers_eq_editChildren members]

end

variable {resolver : Resolver}

theorem mergeVessels_eq_editChildren (tree : Tree) (vessels : List (String × Json)) :
    mergeVessels resolver tree vessels = tree.editChildren
      (vessels.map fun vessel => (resolver.resolveKey vessel.1, .ofJson vessel.2)) := by
  induction vessels generalizing tree with
  | nil => rfl
  | cons vessel vessels induction_step =>
      obtain ⟨key, value⟩ := vessel
      rw [mergeVessels, induction_step, mergeChild_eq_editChild]
      rfl

theorem mergeTop_eq_editChildren (tree : Tree) (members : List (String × Json)) :
    mergeTop resolver tree members = tree.editChildren
      (members.map fun member => (member.1, .ofTop resolver member)) := by
  induction members generalizing tree with
  | nil => rfl
  | cons member members induction_step =>
      obtain ⟨key, value⟩ := member
      rw [List.map_cons, editChildren, ← induction_step]
      cases value with
      | object vessels =>
          rw [mergeTop, Edit.ofTop]
          by_cases is_vessels : key = vesselsKey
          · rw [if_pos is_vessels, if_pos is_vessels, editChild, mergeVessels_eq_editChildren]
          · rw [if_neg is_vessels, if_neg is_vessels, mergeChild_eq_editChild]
      | _ =>
          rw [Edit.ofTop, ← mergeChild_eq_editChild]
          · rfl
          · exact nofun

/-- Merging a document twice is merging it once, also where it names the local vessel twice. -/
theorem merge_twice (distinct : tree.DistinctKeys) (document : Json) :
    (tree.merge resolver document).merge resolver document = tree.merge resolver document := by
  cases document with
  | object members =>
      simp only [merge, mergeTop_eq_editChildren]
      exact editChildren_twice distinct _
  | _ => rfl

end Tree

end VesselHub
