/-
Module: VesselHub.Proofs.Tree.Unstamped
Purpose: Trees up to the times of their leaves. Such trees have the same branches in the same order,
  and their documents are equal if and only if they show leaves of equal form everywhere.
Main exports: Tree.unstamped, Tree.size_unstamped, Tree.unstamped_changeAt, Tree.encode_within?,
  Tree.encode_eq_of_view
-/
import VesselHub.Proofs.Tree.View

namespace VesselHub

/-- A leaf without its time. -/
def Leaf.unstamped (leaf : Leaf) : Leaf :=
  { leaf with timestamp := none }

namespace Tree

mutual

/-- The tree without the times of its leaves. -/
def unstamped : Tree → Tree
  | .leaf held => .leaf held.unstamped
  | .object children => .object (unstampedChildren children)
  | .array items => .array (unstampedItems items)

def unstampedChildren : List (String × Tree) → List (String × Tree)
  | [] => []
  | (key, child) :: children => (key, child.unstamped) :: unstampedChildren children

def unstampedItems : List Tree → List Tree
  | [] => []
  | item :: items => item.unstamped :: unstampedItems items

end

theorem unstampedChildren_eq_map (children : List (String × Tree)) :
    unstampedChildren children = children.map fun entry => (entry.1, entry.2.unstamped) := by
  induction children with
  | nil => rfl
  | cons entry children induction_step =>
      rw [unstampedChildren, induction_step]
      rfl

theorem keys_unstampedChildren (children : List (String × Tree)) :
    Entries.keys (unstampedChildren children) = Entries.keys children := by
  rw [unstampedChildren_eq_map, Entries.keys_map_values unstamped]

mutual

/-- Times make no branches. -/
theorem size_unstamped : ∀ tree : Tree, tree.unstamped.size = tree.size
  | .leaf _ => rfl
  | .object children => by rw [unstamped, size, size, childrenSize_unstamped children]
  | .array items => by rw [unstamped, size, size, itemsSize_unstamped items]

theorem childrenSize_unstamped : ∀ children : List (String × Tree),
    childrenSize (unstampedChildren children) = childrenSize children
  | [] => rfl
  | (_, child) :: children => by
      rw [unstampedChildren, childrenSize, childrenSize, size_unstamped child,
        childrenSize_unstamped children]

theorem itemsSize_unstamped : ∀ items : List Tree,
    itemsSize (unstampedItems items) = itemsSize items
  | [] => rfl
  | item :: items => by
      rw [unstampedItems, itemsSize, itemsSize, size_unstamped item, itemsSize_unstamped items]

end

mutual

theorem distinctKeys_unstamped : ∀ {tree : Tree}, tree.DistinctKeys → tree.unstamped.DistinctKeys
  | .leaf _, _ => trivial
  | .object children, ⟨here, below⟩ =>
      ⟨(keys_unstampedChildren children).symm ▸ here, distinctChildren_unstamped below⟩
  | .array _, below => distinctItems_unstamped below

theorem distinctChildren_unstamped : ∀ {children : List (String × Tree)},
    EveryChild List.Nodup children → EveryChild List.Nodup (unstampedChildren children)
  | [], _ => trivial
  | (_, _) :: _, ⟨first, others⟩ =>
      ⟨distinctKeys_unstamped first, distinctChildren_unstamped others⟩

theorem distinctItems_unstamped : ∀ {items : List Tree},
    EveryItem List.Nodup items → EveryItem List.Nodup (unstampedItems items)
  | [], _ => trivial
  | _ :: _, ⟨first, others⟩ => ⟨distinctKeys_unstamped first, distinctItems_unstamped others⟩

end

theorem childrenOf_unstamped (tree : Tree) :
    tree.unstamped.childrenOf = unstampedChildren tree.childrenOf := by
  cases tree <;> rfl

theorem unstamped_setChild (tree : Tree) (key : String) (child : Tree) :
    (tree.setChild key child).unstamped = tree.unstamped.setChild key child.unstamped := by
  rw [setChild, setChild, unstamped, childrenOf_unstamped, unstampedChildren_eq_map,
    unstampedChildren_eq_map, Entries.insert_map_values unstamped]

theorem unstamped_objectAt (tree : Tree) (key : String) :
    (tree.objectAt key).unstamped = tree.unstamped.objectAt key := by
  rw [objectAt, objectAt, unstamped, childrenOf_unstamped tree, unstampedChildren_eq_map
    tree.childrenOf, Entries.get?_map_values unstamped]
  cases Entries.get? tree.childrenOf key with
  | none => rfl
  | some child => rw [Option.map_some, Option.getD_some, Option.getD_some, childrenOf_unstamped]

/-- A leaf is written at the same place, whatever the times. -/
theorem unstamped_changeAt (tree : Tree) (keys : List String) (held : Leaf) :
    (tree.changeAt keys fun _ => .leaf held).unstamped =
      tree.unstamped.changeAt keys fun _ => .leaf held.unstamped := by
  induction keys generalizing tree with
  | nil => rfl
  | cons key keys induction_step =>
      rw [changeAt, changeAt, unstamped_setChild, induction_step, unstamped_objectAt]

/-! ### Documents of trees that differ in times -/

/-- Where documents are equal, so are those of the branches. -/
theorem encode_within? {one other inner twin : Tree} (same : one.encode = other.encode)
    {path : List String} (found : one.within? path = some inner)
    (twin_found : other.within? path = some twin) : inner.encode = twin.encode := by
  induction path generalizing one other with
  | nil =>
      cases found
      cases twin_found
      exact same
  | cons key path induction_step =>
      obtain ⟨child, child_eq, below⟩ := Option.bind_eq_some_iff.1 found
      obtain ⟨twin_child, twin_eq, twin_below⟩ := Option.bind_eq_some_iff.1 twin_found
      refine induction_step ?_ below twin_below
      cases one with
      | leaf held => cases child_eq
      | array items => cases child_eq
      | object ones =>
          cases other with
          | leaf held => cases twin_eq
          | array items => cases twin_eq
          | object others =>
              rw [childrenOf_object] at child_eq twin_eq
              have at_key := congrArg (fun members => Entries.get? members key)
                (Json.object.inj same)
              simp only [encodeChildren_eq_map, Entries.get?_map_values encode, child_eq,
                twin_eq, Option.map_some, Option.some.injEq] at at_key
              exact at_key

mutual

/-- Trees that differ in times have equal documents if they show equal forms at each path. -/
theorem encode_eq_of_view : ∀ {one other : Tree}, one.DistinctKeys →
    one.unstamped = other.unstamped →
      (∀ path, (one.view path).map encode = (other.view path).map encode) →
        one.encode = other.encode
  | .leaf _, other, _, same, shows => by
      cases other with
      | leaf twin => exact Option.some.inj (shows [])
      | array items => cases same
      | object others => cases same
  | .array _, other, _, same, shows => by
      cases other with
      | leaf twin => cases same
      | array items => exact Option.some.inj (shows [])
      | object others => cases same
  | .object ones, other, distinct, same, shows => by
      cases other with
      | leaf twin => cases same
      | array items => cases same
      | object others =>
          rw [unstamped, unstamped, object.injEq] at same
          have same_keys : Entries.keys ones = Entries.keys others := by
            rw [← keys_unstampedChildren ones, same, keys_unstampedChildren]
          rw [encode, encode, encodeChildren_eq_of_view distinct.2 same]
          intro key one other one_mem other_mem path
          have at_path := shows (key :: path)
          rw [view, view, within?_cons, within?_cons, Entries.get?_of_mem distinct.1 one_mem,
            Entries.get?_of_mem (same_keys ▸ distinct.1) other_mem] at at_path
          exact at_path

theorem encodeChildren_eq_of_view : ∀ {ones others : List (String × Tree)},
    EveryChild List.Nodup ones → unstampedChildren ones = unstampedChildren others →
      (∀ key one other, (key, one) ∈ ones → (key, other) ∈ others →
        ∀ path, (one.view path).map encode = (other.view path).map encode) →
          encodeChildren ones = encodeChildren others
  | [], [], _, _, _ => rfl
  | [], _ :: _, _, same, _ => by cases same
  | _ :: _, [], _, same, _ => by cases same
  | (key, one) :: ones, (twin_key, other) :: others, distinct, same, shows => by
      rw [unstampedChildren, unstampedChildren, List.cons.injEq, Prod.mk.injEq] at same
      obtain ⟨⟨rfl, same_child⟩, same_rest⟩ := same
      rw [encodeChildren, encodeChildren,
        encode_eq_of_view distinct.1 same_child
          (shows key one other List.mem_cons_self List.mem_cons_self),
        encodeChildren_eq_of_view distinct.2 same_rest fun key one other one_mem other_mem =>
          shows key one other (List.mem_cons_of_mem _ one_mem) (List.mem_cons_of_mem _ other_mem)]

end

end Tree

end VesselHub
