/-
Module: VesselHub.Proofs.Tree.Private
Purpose: Changes inside private branches. What is left of a tree without its private branches does
  not change when something is written or deleted behind a private key, as long as only objects
  stand on the way to it.
Main exports: Tree.Opens, Tree.LeadsPrivate, Tree.safe_changeAt, Tree.safe_modifyAt,
  Tree.MergesPrivately, Tree.safe_merge, Tree.safe_writeBatches
-/
import VesselHub.Proofs.Model.Apply
import VesselHub.Proofs.Path.Private
import VesselHub.Proofs.Tree.Merge

namespace VesselHub

namespace Entries

variable {Value : Type}

/-- Writing what is there changes nothing. -/
theorem insert_of_get? {entries : Entries Value} {key : String} {value : Value}
    (found : get? entries key = some value) : insert entries key value = entries := by
  obtain ⟨before, after, rfl, absent⟩ := exists_split_of_get? found
  exact insert_of_split absent after value value

end Entries

namespace Tree

variable {tree other : Tree} {key : String} {keys : List String}

/-! ### What is public -/

private theorem safeItems_eq_map (items : List Tree) : safeItems items = items.map safe := by
  induction items with
  | nil => rfl
  | cons item items induction_step => rw [safeItems, induction_step, List.map_cons]

theorem get?_safeChildren (is_public : Path.isPrivateKey key = false)
    (children : List (String × Tree)) :
    Entries.get? (safeChildren children) key = (Entries.get? children key).map safe := by
  induction children with
  | nil => rfl
  | cons entry children induction_step =>
      obtain ⟨present, child⟩ := entry
      rw [safeChildren]
      by_cases same : present = key
      · subst same
        simp [is_public, Entries.get?]
      · split <;> simp [Entries.get?, same, induction_step]

theorem safeChildren_insert (children : List (String × Tree)) (key : String) (child : Tree) :
    safeChildren (Entries.insert children key child) =
      if Path.isPrivateKey key then safeChildren children
      else Entries.insert (safeChildren children) key child.safe := by
  induction children with
  | nil => simp [Entries.insert, safeChildren]
  | cons entry children induction_step =>
      obtain ⟨present, old⟩ := entry
      by_cases same : present = key
      · subst same
        cases hidden : Path.isPrivateKey present <;>
          simp [Entries.insert, safeChildren, hidden]
      · cases hidden : Path.isPrivateKey key <;> cases shown : Path.isPrivateKey present <;>
          simp [Entries.insert, safeChildren, same, hidden, shown, induction_step]

/-- Trees that look alike are objects alike. -/
theorem exists_object_of_safe {children : List (String × Tree)}
    (same : (object children).safe = other.safe) :
    ∃ others, other = .object others ∧ safeChildren children = safeChildren others := by
  cases other with
  | leaf held => cases same
  | array items => cases same
  | object others => exact ⟨others, rfl, Tree.object.inj same⟩

/-- Children under a public key look alike if the objects do. -/
theorem exists_child_of_safe {children others : List (String × Tree)} {child : Tree}
    (same : safeChildren children = safeChildren others)
    (is_public : Path.isPrivateKey key = false)
    (found : Entries.get? children key = some child) :
    ∃ other, Entries.get? others key = some other ∧ child.safe = other.safe := by
  have alike := get?_safeChildren is_public children
  rw [same, get?_safeChildren is_public, found] at alike
  obtain ⟨other, other_eq, other_safe⟩ := Option.map_eq_some_iff.1 alike
  exact ⟨other, other_eq, other_safe.symm⟩

/-- What is put under a private key is not seen. -/
theorem safe_setChild_hidden (hidden : Path.isPrivateKey key = true)
    (children : List (String × Tree)) (child : Tree) :
    ((object children).setChild key child).safe = (object children).safe := by
  rw [setChild, childrenOf, safe, safeChildren_insert, if_pos hidden, safe]

/-- Nor is it seen when a child gives way to one that looks alike. -/
theorem safe_setChild_alike {children : List (String × Tree)} {child after : Tree}
    (found : Entries.get? children key = some child) (alike : after.safe = child.safe) :
    ((object children).setChild key after).safe = (object children).safe := by
  cases hidden : Path.isPrivateKey key with
  | true => exact safe_setChild_hidden hidden children after
  | false =>
      have shown := get?_safeChildren hidden children
      rw [found, Option.map_some, ← alike] at shown
      rw [setChild, childrenOf, safe, safeChildren_insert, hidden, safe]
      exact congrArg object (Entries.insert_of_get? shown)

/-! ### Writing behind private keys -/

/-- Keys lead through objects that are there, to one of them or into a private branch. -/
inductive Opens : Tree → List String → Prop where
  | here (children : List (String × Tree)) : Opens (.object children) []
  | hidden {key : String} (is_private : Path.isPrivateKey key = true)
      (children : List (String × Tree)) (keys : List String) :
      Opens (.object children) (key :: keys)
  | through {children : List (String × Tree)} {key : String} {keys : List String} {child : Tree}
      (found : Entries.get? children key = some child) (rest : Opens child keys) :
      Opens (.object children) (key :: keys)

instance decidableOpens : (tree : Tree) → (keys : List String) → Decidable (tree.Opens keys)
  | .leaf _, _ => isFalse nofun
  | .array _, _ => isFalse nofun
  | .object children, [] => isTrue (.here children)
  | .object children, key :: keys =>
      if is_private : Path.isPrivateKey key = true then
        isTrue (.hidden is_private children keys)
      else
        match found : Entries.get? children key with
        | none => isFalse fun
            | .hidden hides _ _ => is_private hides
            | .through finds _ => nomatch found.symm.trans finds
        | some child =>
            match decidableOpens child keys with
            | isTrue rest => isTrue (.through found rest)
            | isFalse closed => isFalse fun
                | .hidden hides _ _ => is_private hides
                | .through finds rest =>
                    closed (Option.some.inj (finds.symm.trans found) ▸ rest)

/-- Keys lead through objects that are there into a private branch. -/
def LeadsPrivate (tree : Tree) (keys : List String) : Prop :=
  tree.Opens keys ∧ keys.any Path.isPrivateKey = true

instance (tree : Tree) (keys : List String) : Decidable (tree.LeadsPrivate keys) :=
  inferInstanceAs (Decidable (_ ∧ _))

theorem Opens.exists_object (opens : tree.Opens keys) : ∃ children, tree = .object children := by
  cases opens with
  | here children => exact ⟨children, rfl⟩
  | hidden _ children _ => exact ⟨children, rfl⟩
  | through _ _ => exact ⟨_, rfl⟩

private theorem Opens.of_append {more : List String} (opens : tree.Opens (keys ++ more)) :
    tree.Opens keys := by
  induction keys generalizing tree with
  | nil =>
      obtain ⟨children, rfl⟩ := opens.exists_object
      exact .here children
  | cons key keys induction_step =>
      cases opens with
      | hidden is_private children _ => exact .hidden is_private children keys
      | through found rest => exact .through found (induction_step rest)

/-- Where keys lead can be told without the private branches. -/
theorem Opens.of_safe (opens : tree.Opens keys) (same : tree.safe = other.safe) :
    other.Opens keys := by
  induction opens generalizing other with
  | here children =>
      obtain ⟨others, rfl, _⟩ := exists_object_of_safe same
      exact .here others
  | hidden is_private children keys =>
      obtain ⟨others, rfl, _⟩ := exists_object_of_safe same
      exact .hidden is_private others keys
  | @through children key keys child found rest induction_step =>
      obtain ⟨others, rfl, alike⟩ := exists_object_of_safe same
      cases is_private : Path.isPrivateKey key with
      | true => exact .hidden is_private others keys
      | false =>
          obtain ⟨other_child, other_found, child_alike⟩ :=
            exists_child_of_safe alike is_private found
          exact .through other_found (induction_step child_alike)

theorem LeadsPrivate.of_safe (leads : tree.LeadsPrivate keys) (same : tree.safe = other.safe) :
    other.LeadsPrivate keys :=
  ⟨leads.1.of_safe same, leads.2⟩

/-- A change is not seen that is made behind a private key, or that cannot be seen itself. -/
theorem safe_changeAt (opens : tree.Opens keys) {change : Tree → Tree}
    (unseen : keys.any Path.isPrivateKey = true ∨
      ∀ children, (change (.object children)).safe = (object children).safe) :
    (tree.changeAt keys change).safe = tree.safe := by
  induction opens with
  | here children => exact unseen.resolve_left Bool.false_ne_true children
  | hidden is_private children keys => exact safe_setChild_hidden is_private children _
  | @through children key keys child found rest induction_step =>
      obtain ⟨inner, rfl⟩ := rest.exists_object
      have at_key : (object children).objectAt key = .object inner := by
        rw [objectAt, childrenOf, found]
        rfl
      rw [changeAt, at_key]
      cases is_private : Path.isPrivateKey key with
      | true => exact safe_setChild_hidden is_private children _
      | false =>
          refine safe_setChild_alike found (induction_step (unseen.imp (fun some_private => ?_) id))
          rwa [List.any_cons, is_private, Bool.false_or] at some_private

theorem safe_writeAll {writes : List (List String × Leaf)}
    (each : ∀ write ∈ writes, tree.LeadsPrivate write.1) :
    (tree.writeAll writes).safe = tree.safe := by
  induction writes generalizing tree with
  | nil => rfl
  | cons write writes induction_step =>
      rw [List.forall_mem_cons] at each
      have first : (tree.changeAt write.1 fun _ => .leaf write.2).safe = tree.safe :=
        safe_changeAt each.1.1 (Or.inl each.1.2)
      exact (induction_step fun later member => (each.2 later member).of_safe first.symm).trans
        first

theorem safe_writeBatches {batches : List (List (List String × Leaf))} (opens : tree.Opens keys)
    (each : ∀ writes ∈ batches, ∀ write ∈ writes, tree.LeadsPrivate write.1) :
    (tree.writeBatches keys batches).safe = tree.safe := by
  induction batches generalizing tree with
  | nil => rfl
  | cons writes batches induction_step =>
      rw [List.forall_mem_cons] at each
      have created : (tree.changeAt keys id).safe = tree.safe :=
        safe_changeAt opens (Or.inr fun _ => rfl)
      have first : ((tree.changeAt keys id).writeAll writes).safe = tree.safe :=
        (safe_writeAll fun write member => (each.1 write member).of_safe created.symm).trans
          created
      refine (induction_step (opens.of_safe first.symm) ?_).trans first
      intro later later_mem write member
      exact (each.2 later later_mem write member).of_safe first.symm

/-! ### Changing branches that are there -/

private theorem safeItems_modify {change : Tree → Tree}
    (unseen : ∀ item, (change item).safe = item.safe) (items : List Tree) (position : Nat) :
    safeItems (items.modify position change) = safeItems items := by
  rw [safeItems_eq_map, safeItems_eq_map]
  apply List.ext_getElem?
  intro index
  rw [List.getElem?_map, List.getElem?_map, List.getElem?_modify]
  split
  · cases items[index]? with
    | none => rfl
    | some item => exact congrArg some (unseen item)
  · rw [id_map']

/-- A child changes unseen under a private key, or when its change cannot be seen itself. -/
theorem safeChildren_change {change : Tree → Tree} (unseen : Path.isPrivateKey key = true ∨
      ∀ child, (change child).safe = child.safe) (children : List (String × Tree)) :
    safeChildren (children.map fun entry =>
        if entry.1 = key then (entry.1, change entry.2) else entry) =
      safeChildren children := by
  induction children with
  | nil => rfl
  | cons entry children induction_step =>
      obtain ⟨present, child⟩ := entry
      rw [List.map_cons]
      by_cases same : present = key
      · subst same
        rw [if_pos rfl, safeChildren, safeChildren, induction_step]
        rcases unseen with hidden | unseen
        · rw [if_pos hidden, if_pos hidden]
        · rw [unseen child]
      · rw [if_neg same, safeChildren, safeChildren, induction_step]

/-- A change is not seen that is made below a private key, wherever that leads, or that cannot be
seen itself. -/
theorem safe_modifyAt {change : Tree → Tree} (unseen : keys.any Path.isPrivateKey = true ∨
      ∀ branch, (change branch).safe = branch.safe) (tree : Tree) :
    (tree.modifyAt keys change).safe = tree.safe := by
  induction keys generalizing tree with
  | nil => exact unseen.resolve_left Bool.false_ne_true tree
  | cons key keys induction_step =>
      have below : Path.isPrivateKey key = true ∨
          ∀ branch : Tree, (branch.modifyAt keys change).safe = branch.safe := by
        cases hidden : Path.isPrivateKey key with
        | true => exact Or.inl rfl
        | false =>
            rw [List.any_cons, hidden, Bool.false_or] at unseen
            exact Or.inr (induction_step unseen)
      cases tree with
      | leaf held => rfl
      | array items =>
          rw [modifyAt]
          cases position_eq : Path.position? key with
          | none => rfl
          | some position =>
              -- A key that is a position is public, so the change is made further below.
              have shown : ¬ Path.isPrivateKey key = true := by
                intro hidden
                rw [Path.position?_of_private hidden] at position_eq
                cases position_eq
              dsimp only
              rw [safe, safe, safeItems_modify (below.resolve_left shown)]
      | object children => rw [modifyAt, safe, safeChildren_change below, safe]

/-- Deleting behind a private key, or a private branch itself, is not seen. -/
theorem safe_deleteChild_hidden (hidden : Path.isPrivateKey key = true) (tree : Tree) :
    (tree.deleteChild key).safe = tree.safe := by
  cases tree with
  | leaf held => rfl
  | array items => rfl
  | object children =>
      rw [deleteChild, safe, safe]
      congr 1
      induction children with
      | nil => rfl
      | cons entry children induction_step =>
          obtain ⟨present, child⟩ := entry
          rw [Entries.erase]
          split
          · rename_i same
            rw [safeChildren, same, if_pos hidden]
          · rw [safeChildren, safeChildren, induction_step]

theorem safe_deleteAt (resolver : Resolver) (tree : Tree) {path key : String}
    (hidden : ((resolver.resolve path).segments ++ [key]).any Path.isPrivateKey = true) :
    (tree.deleteAt resolver path key).safe = tree.safe := by
  rw [List.any_append, Bool.or_eq_true] at hidden
  refine safe_modifyAt (hidden.imp id fun last branch => ?_) tree
  exact safe_deleteChild_hidden (by simpa using last) branch

/-! ### Merging documents -/

/-- Merging a document under a key writes only behind private keys. -/
inductive MergesPrivately : Tree → String → Json → Prop where
  | hidden {key : String} (is_private : Path.isPrivateKey key = true)
      (children : List (String × Tree)) (document : Json) :
      MergesPrivately (.object children) key document
  | through {children inner : List (String × Tree)} {key : String}
      {members : List (String × Json)} (found : Entries.get? children key = some (.object inner))
      (no_leaf : Entries.contains members "value" = false)
      (each : ∀ member ∈ members, MergesPrivately (.object inner) member.1 member.2) :
      MergesPrivately (.object children) key (.object members)

/-- Members are merged one after the other. None of them is seen if none is that is merged into
what looks like the tree. -/
theorem safe_mergeMembers {members : List (String × Json)}
    (unseen : ∀ member ∈ members, ∀ other : Tree, tree.safe = other.safe →
      (other.mergeChild member.1 member.2).safe = other.safe)
    (same : tree.safe = other.safe) : (other.mergeMembers members).safe = other.safe := by
  induction members generalizing other with
  | nil => rfl
  | cons member members induction_step =>
      rw [List.forall_mem_cons] at unseen
      have first := unseen.1 other same
      exact (induction_step unseen.2 (same.trans first.symm)).trans first

/-- Merging into an object that is there is not seen if merging its members is not. -/
theorem safe_mergeInto {children inner : List (String × Tree)} {members : List (String × Json)}
    (found : Entries.get? children key = some (.object inner))
    (unseen : ∀ member ∈ members, ∀ other : Tree, (object inner).safe = other.safe →
      (other.mergeChild member.1 member.2).safe = other.safe)
    (same : (object children).safe = other.safe) :
    (other.setChild key ((other.objectAt key).mergeMembers members)).safe = other.safe := by
  obtain ⟨others, rfl, alike⟩ := exists_object_of_safe same
  cases is_private : Path.isPrivateKey key with
  | true => exact safe_setChild_hidden is_private others _
  | false =>
      obtain ⟨child, other_found, child_alike⟩ := exists_child_of_safe alike is_private found
      obtain ⟨other_inner, rfl, _⟩ := exists_object_of_safe child_alike
      have at_key : (object others).objectAt key = .object other_inner := by
        rw [objectAt, childrenOf, other_found]
        rfl
      rw [at_key]
      exact safe_setChild_alike other_found (safe_mergeMembers unseen child_alike)

theorem safe_mergeChild {document : Json} (privately : tree.MergesPrivately key document)
    (same : tree.safe = other.safe) : (other.mergeChild key document).safe = other.safe := by
  induction privately generalizing other with
  | hidden is_private children document =>
      obtain ⟨others, rfl, _⟩ := exists_object_of_safe same
      obtain ⟨child, merged_eq⟩ := mergeChild_eq (.object others) _ document
      rw [merged_eq]
      split
      · exact safe_setChild_hidden is_private others child
      · rfl
  | through found no_leaf each induction_step =>
      rw [mergeChild, no_leaf, if_neg Bool.false_ne_true]
      exact safe_mergeInto found (fun member member_mem other => induction_step member member_mem)
        same

/-- Merging at the end of keys is not seen if they lead into a private branch. -/
theorem safe_mergeAt {resolver : Resolver} {path : String}
    (leads : tree.LeadsPrivate ((resolver.resolve path).segments ++ [key])) (document : Json) :
    (tree.mergeAt resolver path key document).safe = tree.safe := by
  obtain ⟨opens, hidden⟩ := leads
  rw [List.any_append, Bool.or_eq_true] at hidden
  refine safe_changeAt opens.of_append (hidden.imp id fun last children => ?_)
  have is_private : Path.isPrivateKey key = true := by simpa using last
  exact safe_mergeChild (.hidden is_private children document) rfl

/-- Vessels are members with resolved keys. -/
theorem mergeVessels_eq (resolver : Resolver) (tree : Tree) (vessels : List (String × Json)) :
    mergeVessels resolver tree vessels =
      tree.mergeMembers (vessels.map fun vessel => (resolver.resolveKey vessel.1, vessel.2)) := by
  induction vessels generalizing tree with
  | nil => rfl
  | cons vessel vessels induction_step =>
      obtain ⟨key, value⟩ := vessel
      rw [mergeVessels, induction_step]
      rfl

/-- Merging a member of a document writes only behind private keys. -/
inductive MergesTopPrivately (resolver : Resolver) : Tree → String × Json → Prop where
  | plain {tree : Tree} {key : String} {value : Json}
      (not_vessels : ∀ vessels, value = .object vessels → key ≠ vesselsKey)
      (privately : tree.MergesPrivately key value) : MergesTopPrivately resolver tree (key, value)
  | vessels {children inner : List (String × Tree)} {vessels : List (String × Json)}
      (found : Entries.get? children vesselsKey = some (.object inner))
      (each : ∀ vessel ∈ vessels,
        (object inner).MergesPrivately (resolver.resolveKey vessel.1) vessel.2) :
      MergesTopPrivately resolver (.object children) (vesselsKey, .object vessels)

/-- One member of a document, whether or not it holds the vessels. -/
private theorem exists_mergeTop_step {resolver : Resolver} {member : String × Json}
    (privately : tree.MergesTopPrivately resolver member) (same : tree.safe = other.safe)
    (members : List (String × Json)) :
    ∃ merged, mergeTop resolver other (member :: members) = mergeTop resolver merged members ∧
      merged.safe = other.safe := by
  cases privately with
  | @plain _ key value not_vessels privately =>
      refine ⟨other.mergeChild key value, ?_, safe_mergeChild privately same⟩
      cases value with
      | object vessels => rw [mergeTop, if_neg (not_vessels vessels rfl)]
      | _ => rfl
  | @vessels children inner vessels found each =>
      refine ⟨other.setChild vesselsKey
        (mergeVessels resolver (other.objectAt vesselsKey) vessels), ?_, ?_⟩
      · rw [mergeTop, if_pos rfl]
      rw [mergeVessels_eq]
      refine safe_mergeInto found (fun member member_mem other alike => ?_) same
      obtain ⟨vessel, vessel_mem, rfl⟩ := List.mem_map.1 member_mem
      exact safe_mergeChild (each vessel vessel_mem) alike

theorem safe_mergeTop {resolver : Resolver} {members : List (String × Json)}
    (each : ∀ member ∈ members, tree.MergesTopPrivately resolver member)
    (same : tree.safe = other.safe) : (mergeTop resolver other members).safe = other.safe := by
  induction members generalizing other with
  | nil => rfl
  | cons member members induction_step =>
      rw [List.forall_mem_cons] at each
      obtain ⟨merged, step, first⟩ := exists_mergeTop_step each.1 same members
      rw [step]
      exact (induction_step each.2 (same.trans first.symm)).trans first

/-- Merging a document writes only behind private keys. -/
def MergesDocumentPrivately (resolver : Resolver) (tree : Tree) (document : Json) : Prop :=
  ∃ members, document = .object members ∧
    ∀ member ∈ members, tree.MergesTopPrivately resolver member

theorem safe_merge {resolver : Resolver} {document : Json}
    (privately : tree.MergesDocumentPrivately resolver document) :
    (tree.merge resolver document).safe = tree.safe := by
  obtain ⟨members, rfl, each⟩ := privately
  exact safe_mergeTop each rfl

end Tree

end VesselHub
