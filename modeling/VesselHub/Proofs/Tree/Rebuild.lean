/-
Module: VesselHub.Proofs.Tree.Rebuild
Purpose: Merging the document of a tree rebuilds the tree, its times cut to what their text shows.
  Nothing in the document may look like something else: no branch like a leaf, and no time like
  another text.
Main exports: Tree.toMillis, Tree.IsPortable, Tree.buildItem_encode, Tree.mergeMembers_encode,
  Tree.reordered_rebuilt
-/
import VesselHub.Proofs.Json.Record
import VesselHub.Proofs.Json.Reordered
import VesselHub.Proofs.Leaf
import VesselHub.Proofs.Path.Resolve
import VesselHub.Proofs.Tree.Private
import VesselHub.Proofs.Tree.Standing

namespace VesselHub

namespace Tree

mutual

/-- The tree with as much of its times as is sent. -/
def toMillis : Tree → Tree
  | .leaf held => .leaf held.toMillis
  | .object children => .object (childrenToMillis children)
  | .array items => .array (itemsToMillis items)

def childrenToMillis : List (String × Tree) → List (String × Tree)
  | [] => []
  | (key, child) :: children => (key, child.toMillis) :: childrenToMillis children

def itemsToMillis : List Tree → List Tree
  | [] => []
  | item :: items => item.toMillis :: itemsToMillis items

end

mutual

/-- What is cut off is not sent. -/
theorem encode_toMillis : ∀ tree : Tree, tree.toMillis.encode = tree.encode
  | .leaf held => held.encode_toMillis
  | .object children => congrArg Json.object (encodeChildren_toMillis children)
  | .array items => congrArg Json.array (encodeItems_toMillis items)

theorem encodeChildren_toMillis : ∀ children : List (String × Tree),
    encodeChildren (childrenToMillis children) = encodeChildren children
  | [] => rfl
  | (key, child) :: children => by
      rw [childrenToMillis, encodeChildren, encodeChildren, encode_toMillis,
        encodeChildren_toMillis]

theorem encodeItems_toMillis : ∀ items : List Tree,
    encodeItems (itemsToMillis items) = encodeItems items
  | [] => rfl
  | item :: items => by
      rw [itemsToMillis, encodeItems, encodeItems, encode_toMillis, encodeItems_toMillis]

end

@[simp] theorem encodeChildren_append (children others : List (String × Tree)) :
    encodeChildren (children ++ others) = encodeChildren children ++ encodeChildren others := by
  simp [encodeChildren_eq_map]

@[simp] theorem keys_encodeChildren (children : List (String × Tree)) :
    Entries.keys (encodeChildren children) = Entries.keys children := by
  rw [encodeChildren_eq_map]
  exact Entries.keys_map_values Tree.encode children

theorem childrenToMillis_eq_map (children : List (String × Tree)) :
    childrenToMillis children = children.map fun entry => (entry.1, entry.2.toMillis) := by
  induction children with
  | nil => rfl
  | cons entry children induction_step =>
      rw [childrenToMillis, induction_step]
      rfl

/-! ### Branches that say what they are -/

/-- A branch whose document cannot be taken for something else: an object that does not look like
a leaf, or a leaf whose time has a text that is read. -/
def IsPlainBranch : Tree → Prop
  | .leaf held => ∀ instant, held.timestamp = some instant → instant.IsPlain
  | .object children => (Entries.keys children).Nodup ∧ "value" ∉ Entries.keys children
  | .array _ => True

/-- Every branch is plain. -/
def IsPlainTree (tree : Tree) : Prop :=
  ∀ keys branch, tree.StandsAt keys branch → branch.IsPlainBranch

variable {tree child : Tree} {key : String} {children before after : List (String × Tree)}

theorem IsPlainTree.kid {kid : Tree} (plain : tree.IsPlainTree) (has_kid : tree.HasKid key kid) :
    kid.IsPlainTree :=
  fun keys branch stands => plain (key :: keys) branch ⟨kid, has_kid, stands⟩

theorem IsPlainTree.entries (plain : (object children).IsPlainTree) :
    ∀ entry ∈ children, entry.2.IsPlainTree :=
  fun entry member => plain.kid (show (object children).HasKid entry.1 entry.2 from member)

theorem IsPlainTree.items {items : List Tree} (plain : (array items).IsPlainTree) (position : Nat)
    (item : Tree) (item_eq : items[position]? = some item) : item.IsPlainTree :=
  plain.kid (show (array items).HasKid _ item from ⟨position, item_eq, rfl⟩)

instance (instant : Instant) : Decidable instant.IsValid :=
  inferInstanceAs (Decidable (_ ∨ _))

instance (instant : Instant) : Decidable instant.IsPlain :=
  decidable_of_iff (instant.IsValid ∧
    0 ≤ (Date.ofDayNumber (instant.seconds / Instant.secondsPerDay)).year ∧
    (Date.ofDayNumber (instant.seconds / Instant.secondsPerDay)).year ≤ 9999)
    ⟨fun plain => ⟨plain.1, plain.2.1, plain.2.2⟩,
      fun plain => ⟨plain.valid, plain.year_nonneg, plain.year_le⟩⟩

mutual

/-- Whether every branch is plain, by looking at all of them. -/
def looksPlain : Tree → Bool
  | .leaf held => held.timestamp.all fun instant => decide instant.IsPlain
  | .object children =>
      decide ((Entries.keys children).Nodup ∧ "value" ∉ Entries.keys children) &&
        childrenLookPlain children
  | .array items => itemsLookPlain items

def childrenLookPlain : List (String × Tree) → Bool
  | [] => true
  | (_, child) :: children => child.looksPlain && childrenLookPlain children

def itemsLookPlain : List Tree → Bool
  | [] => true
  | item :: items => item.looksPlain && itemsLookPlain items

end

mutual

theorem isPlainTree_of_looksPlain : ∀ {tree : Tree}, tree.looksPlain = true → tree.IsPlainTree
  | .leaf held, plain => by
      rintro (_ | ⟨key, keys⟩) branch stands
      · cases stands
        intro instant timed
        rw [looksPlain, timed] at plain
        exact of_decide_eq_true plain
      · obtain ⟨_, has_kid, _⟩ := stands
        cases has_kid
  | .object children, plain => by
      rw [looksPlain, Bool.and_eq_true, decide_eq_true_eq] at plain
      rintro (_ | ⟨key, keys⟩) branch stands
      · cases stands
        exact plain.1
      · obtain ⟨kid, member, below⟩ := stands
        exact isPlainTree_of_childrenLookPlain plain.2 member keys branch below
  | .array items, plain => by
      rintro (_ | ⟨key, keys⟩) branch stands
      · cases stands
        trivial
      · obtain ⟨item, ⟨position, item_eq, _⟩, below⟩ := stands
        exact isPlainTree_of_itemsLookPlain plain (List.mem_of_getElem? item_eq) keys branch below

theorem isPlainTree_of_childrenLookPlain : ∀ {children : List (String × Tree)} {key : String}
    {child : Tree}, childrenLookPlain children = true → (key, child) ∈ children →
      child.IsPlainTree
  | (_, first) :: children, key, child, plain, member => by
      rw [childrenLookPlain, Bool.and_eq_true] at plain
      cases member with
      | head => exact isPlainTree_of_looksPlain plain.1
      | tail _ later => exact isPlainTree_of_childrenLookPlain plain.2 later

theorem isPlainTree_of_itemsLookPlain : ∀ {items : List Tree} {item : Tree},
    itemsLookPlain items = true → item ∈ items → item.IsPlainTree
  | first :: items, item, plain, member => by
      rw [itemsLookPlain, Bool.and_eq_true] at plain
      cases member with
      | head => exact isPlainTree_of_looksPlain plain.1
      | tail _ later => exact isPlainTree_of_itemsLookPlain plain.2 later

end

theorem contains_value_eq_false (plain : (object children).IsPlainTree) :
    Entries.contains (encodeChildren children) "value" = false := by
  obtain ⟨-, absent⟩ := plain [] _ rfl
  rw [← keys_encodeChildren, ← Entries.get?_eq_none_iff] at absent
  rw [Entries.contains, absent]
  rfl

/-! ### Rebuilding -/

private theorem mergeMembers_append (tree : Tree) (members others : List (String × Json)) :
    tree.mergeMembers (members ++ others) = (tree.mergeMembers members).mergeMembers others := by
  induction members generalizing tree with
  | nil => rfl
  | cons member members induction_step => exact induction_step _

theorem not_mem_keys_of_nodup
    (distinct : (Entries.keys (before ++ (key, child) :: after)).Nodup) :
    key ∉ Entries.keys before ∧ key ∉ Entries.keys after := by
  have moved := (List.perm_middle.map Prod.fst).nodup_iff.1 distinct
  rw [List.map_cons, List.nodup_cons, List.map_append, List.mem_append, not_or] at moved
  exact moved.1

theorem objectAt_of_not_mem (absent : key ∉ Entries.keys children) :
    (object children).objectAt key = empty := by
  rw [objectAt, childrenOf, (Entries.get?_eq_none_iff children key).2 absent]
  rfl

mutual

/-- Where there is nothing, or an object that is empty, the document of a tree puts the tree. -/
theorem mergeChild_encode : ∀ {child : Tree} (tree : Tree) {key : String}, child.IsPlainTree →
    tree.objectAt key = empty → tree.mergeChild key child.encode = tree.setChild key child.toMillis
  | .leaf held, tree, key, plain, _ => by
      have time_read := Leaf.decodeTimestamp_text fun instant timed =>
        Instant.parse_text (plain [] _ rfl instant timed)
      rw [encode, held.mergeChild_encode, time_read]
      rfl
  | .object children, tree, key, plain, vacant => by
      have no_value := contains_value_eq_false plain
      rw [encode, mergeChild, if_neg (Bool.eq_false_iff.1 no_value), vacant, toMillis]
      exact congrArg _ (mergeMembers_encode [] (plain [] _ rfl).1 plain.entries)
  | .array items, tree, key, plain, _ => by
      rw [encode, mergeChild, toMillis, buildItems_encode plain.items]

/-- The members of a document come behind those that are there. -/
theorem mergeMembers_encode : ∀ {children : List (String × Tree)} (base : List (String × Tree)),
    (Entries.keys (base ++ children)).Nodup → (∀ entry ∈ children, entry.2.IsPlainTree) →
      (object base).mergeMembers (encodeChildren children) =
        .object (base ++ childrenToMillis children)
  | [], base, _, _ => by rw [encodeChildren, mergeMembers, childrenToMillis, List.append_nil]
  | (key, child) :: children, base, distinct, plain => by
      obtain ⟨absent, -⟩ := not_mem_keys_of_nodup distinct
      have first := mergeChild_encode (.object base) (plain _ List.mem_cons_self)
        (objectAt_of_not_mem absent)
      have both : (Entries.keys (base ++ [(key, child.toMillis)] ++ children)).Nodup := by
        simpa [Entries.keys] using distinct
      rw [encodeChildren, mergeMembers, first, setChild, childrenOf,
        Entries.insert_of_not_mem absent, childrenToMillis,
        mergeMembers_encode _ both fun entry member => plain entry (List.mem_cons_of_mem _ member),
        List.append_assoc, List.singleton_append]

theorem buildItem_encode : ∀ {tree : Tree}, tree.IsPlainTree →
    buildItem tree.encode = some tree.toMillis
  | .leaf held, plain => by
      have time_read := Leaf.decodeTimestamp_text fun instant timed =>
        Instant.parse_text (plain [] _ rfl instant timed)
      rw [encode, held.buildItem_encode, time_read]
      rfl
  | .object children, plain => by
      have no_value := contains_value_eq_false plain
      rw [encode, buildItem, if_neg (Bool.eq_false_iff.1 no_value), toMillis]
      exact congrArg _ (mergeMembers_encode [] (plain [] _ rfl).1 plain.entries)
  | .array items, plain => by
      rw [encode, buildItem, toMillis, buildItems_encode plain.items]

theorem buildItems_encode : ∀ {items : List Tree},
    (∀ (position : Nat) (item : Tree), items[position]? = some item → item.IsPlainTree) →
      buildItems (encodeItems items) = itemsToMillis items
  | [], _ => rfl
  | item :: items, plain => by
      rw [encodeItems, buildItems, buildItem_encode (plain 0 item rfl),
        buildItems_encode fun position other item_eq => plain (position + 1) other item_eq]
      rfl

end

/-- Where one of the children is there already, as an empty object, it comes first. -/
theorem mergeMembers_encode_onto
    (distinct : (Entries.keys (before ++ (key, child) :: after)).Nodup)
    (plain : ∀ entry ∈ before ++ (key, child) :: after, entry.2.IsPlainTree) :
    (object [(key, empty)]).mergeMembers (encodeChildren (before ++ (key, child) :: after)) =
      .object ((key, child.toMillis) :: (childrenToMillis before ++ childrenToMillis after)) := by
  have moved : (Entries.keys ((key, child) :: (before ++ after))).Nodup :=
    (List.perm_middle.map Prod.fst).nodup_iff.1 distinct
  rw [List.forall_mem_append, List.forall_mem_cons] at plain
  have until_key : (object [(key, empty)]).mergeMembers (encodeChildren before) =
      .object ((key, empty) :: childrenToMillis before) := by
    refine mergeMembers_encode _ ?_ plain.1
    rw [← List.singleton_append, ← List.append_assoc] at moved
    exact (moved.sublist ((List.sublist_append_left _ _).map Prod.fst))
  have at_key : (object ((key, empty) :: childrenToMillis before)).mergeChild key child.encode =
      .object ((key, child.toMillis) :: childrenToMillis before) := by
    rw [mergeChild_encode _ plain.2.1 (by simp [objectAt, childrenOf, Entries.get?, empty])]
    simp [setChild, childrenOf, Entries.insert]
  rw [encodeChildren_append, mergeMembers_append, until_key, encodeChildren, mergeMembers, at_key,
    mergeMembers_encode _ _ plain.2.2]
  · rfl
  · simpa [Entries.keys, childrenToMillis_eq_map, Function.comp_def] using moved

/-! ### Vessels and other top-level branches -/

/-- A tree whose document says everything about it. The top level and the vessels may have a
child `value`, since neither is ever read as a leaf. -/
structure IsPortable (tree : Tree) : Prop where
  vessels : ∀ branch, tree.HasKid vesselsKey branch →
    ∃ vessels, branch = .object vessels ∧ selfKey ∉ Entries.keys vessels
  no_value : ∀ keys children, tree.StandsAt keys (.object children) → keys ≠ [] →
    keys ≠ [vesselsKey] → "value" ∉ Entries.keys children
  times : ∀ keys held instant, tree.StandsAt keys (.leaf held) →
    held.timestamp = some instant → instant.IsPlain

/-- Whether a tree is portable, by looking at all of it. -/
def looksPortable : Tree → Bool
  | .object children => children.all fun entry =>
      if entry.1 = vesselsKey then
        match entry.2 with
        | .object vessels =>
            decide (selfKey ∉ Entries.keys vessels) && vessels.all fun vessel =>
              vessel.2.looksPlain
        | _ => false
      else entry.2.looksPlain
  | _ => false

theorem isPortable_of_looksPortable (looks : tree.looksPortable = true) : tree.IsPortable := by
  cases tree with
  | leaf | array => cases looks
  | object children =>
      rw [looksPortable, List.all_eq_true] at looks
      have vessels : ∀ branch, (vesselsKey, branch) ∈ children → ∃ vessels,
          branch = .object vessels ∧ selfKey ∉ Entries.keys vessels ∧
            ∀ vessel ∈ vessels, vessel.2.IsPlainTree := by
        intro branch member
        have look := looks _ member
        rw [if_pos rfl] at look
        cases branch with
        | leaf | array => cases look
        | object vessels =>
            simp only [Bool.and_eq_true, decide_eq_true_eq, List.all_eq_true] at look
            exact ⟨vessels, rfl, look.1, fun vessel vessel_mem =>
              isPlainTree_of_looksPlain (look.2 vessel vessel_mem)⟩
      have plain : ∀ keys branch, (object children).StandsAt keys branch → keys ≠ [] →
          keys ≠ [vesselsKey] → branch.IsPlainBranch := by
        rintro (_ | ⟨key, keys⟩) branch stands not_top not_vessels
        · exact absurd rfl not_top
        obtain ⟨kid, member, below⟩ := stands
        by_cases is_vessels : key = vesselsKey
        · subst is_vessels
          obtain ⟨inner, rfl, -, all_plain⟩ := vessels kid member
          rcases keys with _ | ⟨next, keys⟩
          · exact absurd rfl not_vessels
          obtain ⟨vessel, vessel_mem, rest⟩ := below
          exact all_plain _ vessel_mem keys branch rest
        · have look := looks _ member
          rw [if_neg is_vessels] at look
          exact isPlainTree_of_looksPlain look keys branch below
      refine ⟨fun branch member => ?_, fun keys inner stands not_top not_vessels => ?_, ?_⟩
      · obtain ⟨inner, branch_eq, no_alias, -⟩ := vessels branch member
        exact ⟨inner, branch_eq, no_alias⟩
      · exact (plain keys _ stands not_top not_vessels).2
      · intro keys held instant stands
        refine plain keys _ stands ?_ ?_ instant
        · rintro rfl
          cases stands
        · rintro rfl
          obtain ⟨kid, member, below⟩ := stands
          obtain ⟨inner, rfl, -⟩ := vessels kid member
          cases below

/-- Below the top level and the vessels everything is plain. -/
theorem IsPortable.plain {keys : List String} {branch : Tree} (portable : tree.IsPortable)
    (distinct : tree.DistinctKeys) (stands : tree.StandsAt keys branch) (not_top : keys ≠ [])
    (not_vessels : keys ≠ [vesselsKey]) : branch.IsPlainTree := by
  intro more below stands_below
  have whole := standsAt_append.2 ⟨branch, stands, stands_below⟩
  cases below with
  | leaf held => exact fun instant => portable.times _ held instant whole
  | array items => trivial
  | object children =>
      refine ⟨(EveryObject.standsAt distinct whole).1, portable.no_value _ children whole ?_ ?_⟩
      · exact fun none => not_top (List.append_eq_nil_iff.1 none).1
      · intro only
        rcases List.append_eq_singleton_iff.1 only with ⟨none, -⟩ | ⟨vessels, -⟩
        · exact not_top none
        · exact not_vessels vessels

private theorem IsPortable.plain_entry (portable : (object children).IsPortable)
    (distinct : (object children).DistinctKeys) {entry : String × Tree}
    (member : entry ∈ children) (not_vessels : entry.1 ≠ vesselsKey) : entry.2.IsPlainTree := by
  have stands : (object children).StandsAt [entry.1] entry.2 := ⟨entry.2, member, rfl⟩
  exact portable.plain distinct stands (by simp) (by simpa using not_vessels)

private theorem IsPortable.plain_vessel (portable : (object children).IsPortable)
    (distinct : (object children).DistinctKeys) {vessels : List (String × Tree)}
    (has_vessels : (vesselsKey, .object vessels) ∈ children) :
    ∀ entry ∈ vessels, entry.2.IsPlainTree := by
  intro entry member
  have stands : (object children).StandsAt [vesselsKey, entry.1] entry.2 :=
    ⟨.object vessels, has_vessels, entry.2, member, rfl⟩
  exact portable.plain distinct stands (by simp) (by simp)

variable {resolver : Resolver}

private theorem mergeTop_append (tree : Tree) (members others : List (String × Json)) :
    mergeTop resolver tree (members ++ others) =
      mergeTop resolver (mergeTop resolver tree members) others := by
  induction members generalizing tree with
  | nil => rfl
  | cons member members induction_step => exact induction_step _

/-- Without vessels a document is merged like any other object. -/
theorem mergeTop_of_not_mem {members : List (String × Json)}
    (absent : vesselsKey ∉ Entries.keys members) (tree : Tree) :
    mergeTop resolver tree members = tree.mergeMembers members := by
  induction members generalizing tree with
  | nil => rfl
  | cons member members induction_step =>
      obtain ⟨key, value⟩ := member
      rw [Entries.keys_cons, List.mem_cons, not_or] at absent
      rw [mergeMembers, ← induction_step absent.2]
      cases value with
      | object vessels => rw [mergeTop, if_neg (Ne.symm absent.1)]
      | null | bool | number | string | array => rfl

/-- Vessels none of which has the alias for its key are merged like any other object. -/
theorem mergeVessels_of_not_mem (resolver : Resolver) {vessels : List (String × Json)}
    (absent : selfKey ∉ Entries.keys vessels) (tree : Tree) :
    mergeVessels resolver tree vessels = tree.mergeMembers vessels := by
  induction vessels generalizing tree with
  | nil => rfl
  | cons vessel vessels induction_step =>
      obtain ⟨key, value⟩ := vessel
      rw [Entries.keys_cons, List.mem_cons, not_or] at absent
      rw [mergeVessels, mergeMembers, induction_step absent.2, Resolver.resolveKey,
        if_neg (Ne.symm absent.1)]

/-- The tree of a model that holds nothing but the branch of the local vessel. -/
def ofSelf (resolver : Resolver) : Tree :=
  .object [(vesselsKey, .object [(resolver.selfId, empty)])]

/-- The tree with the branch of the local vessel, which is empty if it was not there. -/
def withSelf (resolver : Resolver) (tree : Tree) : Tree :=
  if (tree.at? resolver resolver.selfContext).isSome then tree
  else tree.addPath resolver resolver.selfContext

theorem addPath_selfContext (valid : resolver.IsValid) (tree : Tree) :
    tree.addPath resolver resolver.selfContext =
      tree.setChild vesselsKey ((tree.objectAt vesselsKey).setChild resolver.selfId
        ((tree.objectAt vesselsKey).objectAt resolver.selfId)) := by
  rw [addPath, Resolver.segments_selfContext valid]
  rfl

/-- The vessels with the local one. -/
def vesselsWithSelf (resolver : Resolver) (vessels : List (String × Tree)) :
    List (String × Tree) :=
  if resolver.selfId ∈ Entries.keys vessels then vessels
  else vessels ++ [(resolver.selfId, empty)]

private theorem withSelf_of_vessels (valid : resolver.IsValid) {vessels : List (String × Tree)}
    (absent : vesselsKey ∉ Entries.keys before) :
    (object (before ++ (vesselsKey, .object vessels) :: after)).withSelf resolver =
      .object (before ++ (vesselsKey, .object (vesselsWithSelf resolver vessels)) :: after) := by
  have found := Entries.get?_of_split absent after (object vessels)
  rw [withSelf, at?, Resolver.segments_selfContext valid, walk?, child?, found, Option.bind_some,
    walk?, child?, vesselsWithSelf]
  cases at_self : Entries.get? vessels resolver.selfId with
  | some self =>
      have present : resolver.selfId ∈ Entries.keys vessels :=
        List.mem_map.2 ⟨_, Entries.mem_of_get? at_self, rfl⟩
      rw [Option.bind_some, walk?, if_pos (by rfl), if_pos present]
  | none =>
      have missing := (Entries.get?_eq_none_iff vessels resolver.selfId).1 at_self
      rw [if_neg (by simp), if_neg missing, addPath_selfContext valid, objectAt, childrenOf, found,
        Option.getD_some, childrenOf, objectAt_of_not_mem missing, setChild, setChild, childrenOf,
        childrenOf, Entries.insert_of_split absent, Entries.insert_of_not_mem missing]

private theorem withSelf_of_not_mem (valid : resolver.IsValid)
    (absent : vesselsKey ∉ Entries.keys children) :
    (object children).withSelf resolver =
      .object (children ++ [(vesselsKey, .object [(resolver.selfId, empty)])]) := by
  have missing := (Entries.get?_eq_none_iff children vesselsKey).2 absent
  rw [withSelf, at?, Resolver.segments_selfContext valid, walk?, child?, missing, if_neg (by simp),
    addPath_selfContext valid, objectAt_of_not_mem absent, setChild, childrenOf,
    Entries.insert_of_not_mem absent]
  rfl

/-- The vessels of a document are rebuilt beside the empty local one, which comes first. -/
theorem exists_rebuilt_vessels {vessels : List (String × Tree)}
    (distinct : (Entries.keys vessels).Nodup)
    (plain : ∀ entry ∈ vessels, entry.2.IsPlainTree) (resolver : Resolver) :
    ∃ rebuilt, (object [(resolver.selfId, empty)]).mergeMembers (encodeChildren vessels) =
        .object rebuilt ∧
      (encodeChildren rebuilt).Perm (encodeChildren (vesselsWithSelf resolver vessels)) := by
  rw [vesselsWithSelf]
  split
  · rename_i present
    obtain ⟨⟨_, self⟩, member, rfl⟩ := List.mem_map.1 present
    obtain ⟨before, after, rfl⟩ := List.append_of_mem member
    refine ⟨_, mergeMembers_encode_onto distinct plain, ?_⟩
    simp only [encodeChildren, encodeChildren_append, encodeChildren_toMillis, encode_toMillis]
    exact List.perm_middle.symm
  · rename_i missing
    refine ⟨_, mergeMembers_encode _ (List.nodup_cons.2 ⟨missing, distinct⟩) plain, ?_⟩
    rw [encodeChildren_append, encodeChildren_append, encodeChildren_toMillis]
    exact List.perm_append_comm

/-- The other top-level branches are rebuilt behind the vessels. -/
theorem mergeTop_encode_vessels {vessels rebuilt : List (String × Tree)}
    (distinct : (Entries.keys (before ++ (vesselsKey, .object vessels) :: after)).Nodup)
    (plain : ∀ entry ∈ before ++ after, entry.2.IsPlainTree)
    (inner : mergeVessels resolver (.object [(resolver.selfId, empty)]) (encodeChildren vessels) =
      .object rebuilt) :
    mergeTop resolver (ofSelf resolver)
        (encodeChildren (before ++ (vesselsKey, .object vessels) :: after)) =
      .object ((vesselsKey, .object rebuilt) ::
        (childrenToMillis before ++ childrenToMillis after)) := by
  have moved : (Entries.keys ((vesselsKey, object vessels) :: (before ++ after))).Nodup :=
    (List.perm_middle.map Prod.fst).nodup_iff.1 distinct
  have absent := not_mem_keys_of_nodup distinct
  rw [List.forall_mem_append] at plain
  have until_vessels : mergeTop resolver (ofSelf resolver) (encodeChildren before) =
      .object ((vesselsKey, .object [(resolver.selfId, empty)]) :: childrenToMillis before) := by
    rw [mergeTop_of_not_mem (by rw [keys_encodeChildren]; exact absent.1)]
    refine mergeMembers_encode _ ?_ plain.1
    rw [← List.singleton_append, ← List.append_assoc] at moved
    exact moved.sublist ((List.sublist_append_left _ _).map Prod.fst)
  rw [encodeChildren_append, mergeTop_append, until_vessels, encodeChildren, encode, mergeTop,
    if_pos rfl, mergeTop_of_not_mem (by rw [keys_encodeChildren]; exact absent.2)]
  have at_vessels : (object ((vesselsKey, .object [(resolver.selfId, empty)]) ::
      childrenToMillis before)).objectAt vesselsKey = .object [(resolver.selfId, empty)] := by
    simp [objectAt, childrenOf, Entries.get?]
  have put : (object ((vesselsKey, .object [(resolver.selfId, empty)]) ::
      childrenToMillis before)).setChild vesselsKey (.object rebuilt) =
        .object ((vesselsKey, .object rebuilt) :: childrenToMillis before) := by
    simp [setChild, childrenOf, Entries.insert]
  rw [at_vessels, inner, put, mergeMembers_encode _ _ plain.2]
  · rfl
  · simpa [Entries.keys, childrenToMillis_eq_map, Function.comp_def] using moved

/-- Merging the document of a portable tree into a new one rebuilds the tree with the branch of
the local vessel, but for the order of members. -/
theorem reordered_rebuilt (valid : resolver.IsValid) (distinct : (object children).DistinctKeys)
    (portable : (object children).IsPortable) :
    ((ofSelf resolver).merge resolver (object children).encode).encode.Reordered
      ((object children).withSelf resolver).encode := by
  rw [encode, merge]
  by_cases has_vessels : vesselsKey ∈ Entries.keys children
  · obtain ⟨⟨_, branch⟩, member, rfl⟩ := List.mem_map.1 has_vessels
    obtain ⟨vessels, rfl, no_alias⟩ := portable.vessels branch member
    obtain ⟨before, after, rfl⟩ := List.append_of_mem member
    obtain ⟨keys, below⟩ := distinct
    have vessels_distinct := (everyChild_iff _).1 below _ (List.mem_map.2 ⟨_, member, rfl⟩)
    have vessels_plain := portable.plain_vessel ⟨keys, below⟩ member
    obtain ⟨absent, absent_after⟩ := not_mem_keys_of_nodup keys
    obtain ⟨rebuilt, inner, perm⟩ :=
      exists_rebuilt_vessels vessels_distinct.1 vessels_plain resolver
    rw [← mergeVessels_of_not_mem resolver (by rwa [keys_encodeChildren])] at inner
    have others : ∀ entry ∈ before ++ after, entry.2.IsPlainTree := by
      intro entry entry_mem
      rcases List.mem_append.1 entry_mem with earlier | later
      · refine portable.plain_entry ⟨keys, below⟩ (List.mem_append_left _ earlier) ?_
        exact fun same => absent (List.mem_map.2 ⟨entry, earlier, same⟩)
      · refine portable.plain_entry ⟨keys, below⟩
          (List.mem_append_right _ (List.mem_cons_of_mem _ later)) ?_
        exact fun same => absent_after (List.mem_map.2 ⟨entry, later, same⟩)
    rw [mergeTop_encode_vessels keys others inner,
      withSelf_of_vessels valid absent]
    simp only [encode, encodeChildren, encodeChildren_append, encodeChildren_toMillis]
    exact (Json.Reordered.members List.perm_middle.symm).trans (.member _ _ _ (.members perm))
  · have plain : ∀ entry ∈ children, entry.2.IsPlainTree := fun entry member =>
      portable.plain_entry distinct member fun vessels =>
        has_vessels (List.mem_map.2 ⟨entry, member, vessels⟩)
    have both : (Entries.keys ([(vesselsKey, object [(resolver.selfId, empty)])] ++
        children)).Nodup := List.nodup_cons.2 ⟨has_vessels, distinct.1⟩
    rw [mergeTop_of_not_mem (by rwa [keys_encodeChildren]), ofSelf,
      mergeMembers_encode _ both plain, withSelf_of_not_mem valid has_vessels, encode, encode,
      encodeChildren_append, encodeChildren_append, encodeChildren_toMillis]
    exact .members List.perm_append_comm

end Tree

end VesselHub
