/-
Module: VesselHub.Proofs.Tree.Restriction
Purpose: When a document into which branches of a tree have been put is a restriction of the tree's
  own document: every path must lead through objects, or what it spoils must be replaced later.
Main exports: Tree.passesLeaf, Json.Restricts, Tree.objectsAlong, Tree.Settled,
  Json.restricts_insertAll_iff
-/
import VesselHub.Proofs.Json.Insert
import VesselHub.Proofs.Tree.Within

namespace VesselHub

/-! ### Restrictions -/

/-- Whether keys lead on below a leaf, into the form that it is sent in. -/
def Tree.passesLeaf : Tree → List String → Bool
  | _, [] => false
  | .leaf _, _ :: _ => true
  | .object children, key :: keys =>
      (Entries.get? children key).any fun child => child.passesLeaf keys
  | .array items, key :: keys =>
      (Path.position? key).any fun position => items[position]?.any fun item =>
        item.passesLeaf keys

/-- A value has the kind of a branch and, for a leaf, its content. -/
def Json.HasShape (value : Json) : Tree → Prop
  | .leaf held => value = held.encode
  | .object _ => ∃ members, value = .object members
  | .array _ => ∃ items, value = .array items

/-- What stands at some keys of another document stands at the same keys of the tree's. -/
def Tree.Agrees (tree : Tree) (keys : List String) (part : Json) : Prop :=
  ∃ branch, tree.walk? keys = some branch ∧ tree.encode.locate? keys = some branch.encode ∧
    part.HasShape branch

/-- Every location of a document, those inside leaves apart, is one of the tree's document, with the
same kind and the same content if it is a leaf. -/
def Json.Restricts (document : Json) (tree : Tree) : Prop :=
  ∀ keys part, document.locate? keys = some part → tree.passesLeaf keys = false →
    tree.Agrees keys part

/-- So is every location that is not at or below one of some paths. -/
def Json.RestrictsBeside (document : Json) (tree : Tree) (later : List (List String)) : Prop :=
  ∀ keys part, document.locate? keys = some part → tree.passesLeaf keys = false →
    tree.Agrees keys part ∨ ∃ path ∈ later, path <+: keys

namespace Tree

variable {tree branch : Tree} {keys : List String} {part : Json}

theorem passesLeaf_cons (tree : Tree) (key : String) (keys : List String)
    (inner : ∀ held, tree ≠ .leaf held) :
    tree.passesLeaf (key :: keys) = (tree.child? key).any fun child => child.passesLeaf keys := by
  cases tree with
  | leaf held => exact absurd rfl (inner held)
  | object children => rfl
  | array items =>
      rw [passesLeaf, child?]
      cases Path.position? key <;> rfl

theorem not_leaf_of_child? {key : String} {child : Tree} (found : tree.child? key = some child) :
    ∀ held, tree ≠ .leaf held := by
  rintro held rfl
  cases found

/-- Keys that go on from a branch pass a leaf if they do so there. -/
theorem passesLeaf_append (found : tree.walk? keys = some branch) (more : List String) :
    tree.passesLeaf (keys ++ more) = branch.passesLeaf more := by
  induction keys generalizing tree with
  | nil =>
      cases found
      rfl
  | cons key keys induction_step =>
      obtain ⟨child, child_eq, rest⟩ := Option.bind_eq_some_iff.1 found
      rw [List.cons_append, passesLeaf_cons _ _ _ (not_leaf_of_child? child_eq), child_eq]
      exact induction_step rest

/-- What is found is not inside a leaf. -/
theorem passesLeaf_of_walk? (found : tree.walk? keys = some branch) :
    tree.passesLeaf keys = false := by
  have here := passesLeaf_append found []
  rw [List.append_nil] at here
  rw [here]
  cases branch <;> rfl

theorem part?_encode (tree : Tree) (key : String) (inner : ∀ held, tree ≠ .leaf held) :
    tree.encode.part? key = (tree.child? key).map encode := by
  cases tree with
  | leaf held => exact absurd rfl (inner held)
  | object children =>
      rw [encode, encodeChildren_eq_map]
      exact Entries.get?_map_values encode children key
  | array items =>
      rw [encode, encodeItems_eq_map, Json.part?, child?]
      cases Path.position? key with
      | none => rfl
      | some position => exact List.getElem?_map

/-- What is found in a tree stands in its document. -/
theorem locate?_encode (found : tree.walk? keys = some branch) :
    tree.encode.locate? keys = some branch.encode := by
  induction keys generalizing tree with
  | nil =>
      cases found
      rfl
  | cons key keys induction_step =>
      obtain ⟨child, child_eq, rest⟩ := Option.bind_eq_some_iff.1 found
      rw [Json.locate?, part?_encode tree key (not_leaf_of_child? child_eq), child_eq]
      exact induction_step rest

/-- What stands in the document of a tree outside its leaves is found in the tree. -/
theorem exists_walk?_of_locate? (found : tree.encode.locate? keys = some part)
    (outside : tree.passesLeaf keys = false) :
    ∃ branch, tree.walk? keys = some branch ∧ part = branch.encode := by
  induction keys generalizing tree with
  | nil =>
      cases found
      exact ⟨tree, rfl, rfl⟩
  | cons key keys induction_step =>
      have inner : ∀ held, tree ≠ .leaf held := by
        rintro held rfl
        cases outside
      rw [Json.locate?, part?_encode tree key inner] at found
      obtain ⟨_, part_eq, rest⟩ := Option.bind_eq_some_iff.1 found
      obtain ⟨child, child_eq, rfl⟩ := Option.map_eq_some_iff.1 part_eq
      rw [passesLeaf_cons _ _ _ inner, child_eq] at outside
      rw [walk?, child_eq]
      exact induction_step rest outside

private theorem hasShape_encode (branch : Tree) : branch.encode.HasShape branch := by
  cases branch with
  | leaf held => rfl
  | object children => exact ⟨_, rfl⟩
  | array items => exact ⟨_, rfl⟩

theorem agrees_of_walk? (found : tree.walk? keys = some branch) (shape : part.HasShape branch) :
    tree.Agrees keys part :=
  ⟨branch, found, locate?_encode found, shape⟩

/-! ### Ways through objects -/

/-- How far keys lead through objects. -/
def objectsAlong : Tree → List String → List String
  | _, [] => []
  | tree, key :: keys =>
      match Entries.get? tree.childrenOf key with
      | none => []
      | some child => key :: child.objectsAlong keys

/-- Above what is found through objects stand objects. -/
theorem within?_above {above below : List String} (nonempty : below ≠ [])
    (found : (tree.within? (above ++ below)).isSome) :
    ∃ children, tree.within? above = some (.object children) := by
  rw [within?_append] at found
  cases above_eq : tree.within? above with
  | none =>
      rw [above_eq] at found
      cases found
  | some middle =>
      rw [above_eq, Option.bind_some] at found
      cases below with
      | nil => exact absurd rfl nonempty
      | cons key below =>
          cases middle with
          | object children => exact ⟨children, rfl⟩
          | leaf held => cases found
          | array items => cases found

/-- An object of another document agrees with what stands above a place reached through objects. -/
theorem agrees_above {above below : List String} (nonempty : below ≠ [])
    (found : (tree.within? (above ++ below)).isSome) (members : List (String × Json)) :
    tree.Agrees above (.object members) := by
  obtain ⟨children, here⟩ := within?_above nonempty found
  exact agrees_of_walk? (walk?_of_within? here) ⟨members, rfl⟩

theorem object_or_eq_of_prefix {above : List String} {one other : Tree} (starts : above <+: keys)
    (found_above : tree.within? above = some one) (found : tree.within? keys = some other) :
    (∃ children, one = .object children) ∨ one = other := by
  obtain ⟨below, rfl⟩ := starts
  by_cases nothing : below = []
  · rw [nothing, List.append_nil, found_above] at found
    exact .inr (Option.some.inj found)
  · obtain ⟨children, is_object⟩ := within?_above nothing (by rw [found]; rfl)
    rw [found_above] at is_object
    exact .inl ⟨children, Option.some.inj is_object⟩

private theorem objectsAlong_prefix (tree : Tree) (keys : List String) :
    tree.objectsAlong keys <+: keys := by
  induction keys generalizing tree with
  | nil => exact List.prefix_rfl
  | cons key keys induction_step =>
      rw [objectsAlong]
      split
      · exact List.nil_prefix
      · exact List.cons_prefix_cons.2 ⟨rfl, induction_step _⟩

private theorem isSome_within?_objectsAlong (tree : Tree) (keys : List String) :
    (tree.within? (tree.objectsAlong keys)).isSome := by
  induction keys generalizing tree with
  | nil => rfl
  | cons key keys induction_step =>
      rw [objectsAlong]
      split
      · rfl
      · rename_i child child_eq
        rw [within?, child_eq]
        exact induction_step child

/-- Where keys leave the objects. -/
theorem exists_departure (absent : tree.within? keys = none) :
    ∃ key below branch, keys = tree.objectsAlong keys ++ key :: below ∧
      tree.within? (tree.objectsAlong keys) = some branch ∧
      Entries.get? branch.childrenOf key = none := by
  induction keys generalizing tree with
  | nil => cases absent
  | cons key keys induction_step =>
      rw [within?] at absent
      rw [objectsAlong]
      cases child_eq : Entries.get? tree.childrenOf key with
      | none => exact ⟨key, keys, tree, rfl, rfl, child_eq⟩
      | some child =>
          rw [child_eq] at absent
          obtain ⟨next, below, branch, split, found, missing⟩ := induction_step absent
          refine ⟨next, below, branch, congrArg (List.cons key) split, ?_, missing⟩
          dsimp only
          rw [within?, child_eq]
          exact found

/-- Every path leads through objects, or one of the later paths leads to or above the place where it
leaves them. -/
def Settled (tree : Tree) : List (List String) → Prop
  | [] => True
  | path :: later =>
      ((tree.within? path).isSome ∨ ∃ other ∈ later, other <+: tree.objectsAlong path) ∧
        tree.Settled later

/-- Below what is no object only the empty path is settled for good. -/
theorem Settled.nil_mem {paths : List (List String)} (settled : tree.Settled paths)
    (no_children : tree.childrenOf = []) (nonempty : paths ≠ []) : [] ∈ paths := by
  induction paths with
  | nil => exact absurd rfl nonempty
  | cons path later induction_step =>
      rcases settled.1 with reached | ⟨other, other_mem, -⟩
      · cases path with
        | nil => exact List.mem_cons_self
        | cons key path =>
            rw [within?, no_children] at reached
            cases reached
      · exact List.mem_cons_of_mem _
          (induction_step settled.2 (List.ne_nil_of_mem other_mem))

/-- A branch stands at a path, if anything does, and no leaf stands above it. -/
structure Leads (tree : Tree) (path : List String) (branch : Tree) : Prop where
  here : ∀ other, tree.within? path = some other → other = branch
  no_leaf_above : ∀ above key below, path = above ++ key :: below →
    ∀ held, tree.within? above ≠ some (.leaf held)

end Tree

/-! ### Putting branches into a document -/

namespace Json

variable {document : Json} {tree branch : Tree} {path keys : List String}
  {later : List (List String)}

/-- A branch that is put at its path spoils nothing but what is replaced later. -/
theorem RestrictsBeside.insertAt (leads : tree.Leads path branch)
    (settled : (tree.within? path).isSome ∨ ∃ other ∈ later, other <+: tree.objectsAlong path)
    (restricts : document.RestrictsBeside tree (path :: later)) :
    (document.insertAt path branch.encode).RestrictsBeside tree later := by
  intro keys part found outside
  rcases prefix_cases path keys with ⟨rest, rfl⟩ | ⟨rest, below, rfl⟩ | elsewhere
  · -- Inside the branch.
    rcases settled with reached | ⟨other, other_mem, above⟩
    · obtain ⟨other, other_eq⟩ := Option.isSome_iff_exists.1 reached
      have here := Tree.walk?_of_within? other_eq
      rw [leads.here other other_eq] at here
      rw [Tree.passesLeaf_append here] at outside
      rw [locate?_insertAt_append] at found
      obtain ⟨inner, inner_eq, rfl⟩ := Tree.exists_walk?_of_locate? found outside
      have stands : tree.walk? (path ++ rest) = some inner := by
        rw [Tree.walk?_append, here]
        exact inner_eq
      exact .inl (Tree.agrees_of_walk? stands inner.hasShape_encode)
    · exact .inr ⟨other, other_mem, (above.trans (tree.objectsAlong_prefix path)).trans
        (List.prefix_append path rest)⟩
  · -- On the way to the branch.
    rw [locate?_of_walk? (walk?_insertAt_above document branch.encode keys rest)] at found
    obtain ⟨members, rfl⟩ : ∃ members, part = .object members := by
      cases rest with
      | nil => exact absurd rfl below
      | cons key rest =>
          cases found
          exact ⟨_, rfl⟩
    rcases settled with reached | ⟨other, other_mem, above⟩
    · exact .inl (Tree.agrees_above below reached members)
    · have reached := tree.isSome_within?_objectsAlong (keys ++ rest)
      rcases List.prefix_or_prefix_of_prefix (tree.objectsAlong_prefix (keys ++ rest))
        (List.prefix_append keys rest) with starts | ⟨more, split⟩
      · exact .inr ⟨other, other_mem, above.trans starts⟩
      · rw [← split] at above reached
        by_cases nothing : more = []
        · rw [nothing, List.append_nil] at above
          exact .inr ⟨other, other_mem, above⟩
        · exact .inl (Tree.agrees_above nothing reached members)
  · -- Elsewhere.
    rcases restricts keys part (locate?_of_insertAt_apart elsewhere found) outside with
      agrees | ⟨other, other_mem, above⟩
    · exact .inl agrees
    · rcases List.mem_cons.1 other_mem with rfl | is_later
      · exact absurd above elsewhere.1
      · exact .inr ⟨other, is_later, above⟩

/-- Branches that are put at settled paths spoil nothing. -/
theorem RestrictsBeside.insertAll {places : List (List String × Tree)}
    (leads : ∀ place ∈ places, tree.Leads place.1 place.2)
    (settled : tree.Settled (places.map Prod.fst))
    (restricts : document.RestrictsBeside tree (places.map Prod.fst)) :
    (document.insertAll (places.map fun place => (place.1, place.2.encode))).RestrictsBeside
      tree [] := by
  induction places generalizing document with
  | nil => exact restricts
  | cons place places induction_step =>
      rw [List.forall_mem_cons] at leads
      exact induction_step leads.2 settled.2 (restricts.insertAt leads.1 settled.1)

/-- What stands right below some keys is not undone by what is put elsewhere, or below. -/
theorem isSome_walk?_insertAt {key : String} (not_above : ¬ path <+: keys) (value : Json)
    (stands : (document.walk? (keys ++ [key])).isSome) :
    ((document.insertAt path value).walk? (keys ++ [key])).isSome := by
  rcases prefix_cases path (keys ++ [key]) with ⟨rest, split⟩ | ⟨rest, -, rfl⟩ | elsewhere
  · have same : path = keys ++ [key] :=
      (List.prefix_concat_iff.1 ⟨rest, split.symm⟩).resolve_right not_above
    rw [same, walk?_insertAt_self]
    rfl
  · rw [walk?_insertAt_above]
    rfl
  · rw [walk?_insertAt_apart elsewhere]
    exact stands

private theorem isSome_walk?_insertAll {key : String} {places : List (List String × Json)}
    (not_above : ∀ place ∈ places, ¬ place.1 <+: keys)
    (stands : (document.walk? (keys ++ [key])).isSome) :
    ((document.insertAll places).walk? (keys ++ [key])).isSome := by
  induction places generalizing document with
  | nil => exact stands
  | cons place places induction_step =>
      rw [List.forall_mem_cons] at not_above
      exact induction_step not_above.2 (isSome_walk?_insertAt not_above.1 place.2 stands)

/-- A document with something below a place where the tree has no object, or nothing under that
key, is no restriction of it. -/
theorem not_restricts_of_departure {key : String} (found : tree.within? keys = some branch)
    (no_leaf : ∀ held, branch ≠ .leaf held)
    (missing : Entries.get? branch.childrenOf key = none)
    (stands : (document.walk? (keys ++ [key])).isSome) : ¬ document.Restricts tree := by
  intro restricts
  obtain ⟨part, part_eq⟩ := Option.isSome_iff_exists.1 stands
  have found_here := Tree.walk?_of_within? found
  cases branch with
  | leaf held => exact no_leaf held rfl
  | array items =>
      -- The array became an object.
      rw [walk?_append] at part_eq
      obtain ⟨middle, middle_eq, below⟩ := Option.bind_eq_some_iff.1 part_eq
      obtain ⟨other, other_eq, -, shape⟩ := restricts keys middle (locate?_of_walk? middle_eq)
        (Tree.passesLeaf_of_walk? found_here)
      rw [found_here] at other_eq
      cases other_eq
      obtain ⟨others, rfl⟩ := shape
      cases below
  | object children =>
      -- The object has a key too many.
      have outside : tree.passesLeaf (keys ++ [key]) = false := by
        rw [Tree.passesLeaf_append found_here, Tree.passesLeaf,
          show Entries.get? children key = none from missing]
        rfl
      obtain ⟨other, other_eq, -, -⟩ := restricts _ part (locate?_of_walk? part_eq) outside
      rw [Tree.walk?_append, found_here, Option.bind_some, Tree.walk?, Tree.child?] at other_eq
      rw [show Entries.get? children key = none from missing] at other_eq
      cases other_eq

/-- Branches that are put into a document of which it is a restriction stand at settled paths. -/
theorem settled_of_restricts {places : List (List String × Tree)}
    (leads : ∀ place ∈ places, tree.Leads place.1 place.2)
    (restricts : (document.insertAll (places.map fun place =>
      (place.1, place.2.encode))).Restricts tree) : tree.Settled (places.map Prod.fst) := by
  induction places generalizing document with
  | nil => trivial
  | cons place places induction_step =>
      rw [List.forall_mem_cons] at leads
      refine ⟨?_, induction_step leads.2 restricts⟩
      apply Classical.byContradiction
      intro unsettled
      rw [not_or, Bool.not_eq_true, Option.isSome_eq_false_iff, Option.isNone_iff_eq_none,
        not_exists] at unsettled
      obtain ⟨key, below, branch, split, found, missing⟩ := Tree.exists_departure unsettled.1
      have stands : ((document.insertAt place.1 place.2.encode).walk?
          (tree.objectsAlong place.1 ++ [key])).isSome := by
        have longer : place.1 = (tree.objectsAlong place.1 ++ [key]) ++ below := by
          rw [List.append_assoc]
          exact split
        have way := walk?_insertAt_above document place.2.encode
          (tree.objectsAlong place.1 ++ [key]) below
        rw [← longer] at way
        rw [way]
        rfl
      have no_leaf : ∀ held, branch ≠ .leaf held := by
        rintro held rfl
        exact leads.1.no_leaf_above _ _ _ split held found
      refine not_restricts_of_departure found no_leaf missing
        (isSome_walk?_insertAll ?_ stands) restricts
      rw [List.forall_mem_map]
      exact fun other other_mem above =>
        unsettled.2 other.1 ⟨List.mem_map_of_mem other_mem, above⟩

/-- Branches of a tree that are put into an empty document make a restriction of the tree's document
exactly if their paths are settled and, without any branch, the tree is an object. -/
theorem restricts_insertAll_iff {places : List (List String × Tree)}
    (leads : ∀ place ∈ places, tree.Leads place.1 place.2) :
    (insertAll (.object []) (places.map fun place => (place.1, place.2.encode))).Restricts tree ↔
      (places = [] → ∃ children, tree = .object children) ∧
        tree.Settled (places.map Prod.fst) := by
  constructor
  · refine fun restricts => ⟨?_, settled_of_restricts leads restricts⟩
    rintro rfl
    obtain ⟨branch, here, -, shape⟩ := restricts [] (.object []) rfl
      (Tree.passesLeaf_of_walk? rfl)
    cases here
    cases tree with
    | object children => exact ⟨children, rfl⟩
    | array items =>
        obtain ⟨items, nothing⟩ := shape
        cases nothing
    | leaf held => cases shape
  · rintro ⟨object_if_none, settled⟩
    have beside : (object []).RestrictsBeside tree (places.map Prod.fst) := by
      intro keys part found _
      cases keys with
      | cons key keys => cases found
      | nil =>
          cases found
          by_cases object : ∃ children, tree = .object children
          · obtain ⟨children, rfl⟩ := object
            exact .inl (Tree.agrees_of_walk? rfl ⟨[], rfl⟩)
          · have no_children : tree.childrenOf = [] := by
              cases tree with
              | object children => exact absurd ⟨children, rfl⟩ object
              | array items => rfl
              | leaf held => rfl
            exact .inr ⟨[], settled.nil_mem no_children fun nothing =>
              object (object_if_none (List.map_eq_nil_iff.1 nothing)), List.prefix_rfl⟩
    intro keys part found outside
    exact (beside.insertAll leads settled keys part found outside).resolve_right (by simp)

end Json

end VesselHub
