/-
Module: VesselHub.Proofs.Tree.View
Purpose: What a tree shows at each path through its objects. A value that is received is seen at
  its path, above it and below it, and nowhere else, so values that arrive apart from each other
  can be received in any order. Trees that show the same differ in the order of children only.
Main exports: Tree.view, Tree.view_receive, Tree.View.receiveAll_comm, Tree.reordered_of_view
-/
import VesselHub.Proofs.Json.Reordered
import VesselHub.Proofs.Tree.Receive
import VesselHub.Proofs.Tree.Within

namespace VesselHub.Tree

/-- A branch without its children: only that an object is there. -/
def face : Tree → Tree
  | .object _ => .empty
  | other => other

/-- What stands at each path, without the children of objects. -/
abbrev View := List String → Option Tree

/-- What stands at each path below objects. -/
def view (tree : Tree) : View := fun path => (tree.within? path).map face

private theorem repeatedTime_face (arrival : Arrival) (found : Option Tree) :
    arrival.repeatedTime (found.map face) = arrival.repeatedTime found := by
  cases found with
  | none => rfl
  | some branch => cases branch <;> rfl

theorem leaf_face (arrival : Arrival) (now : Instant) (found : Option Tree) :
    arrival.leaf now (found.map face) = arrival.leaf now found := by
  rw [Arrival.leaf, Arrival.time, repeatedTime_face]
  rfl

namespace View

/-- The objects along keys are made. -/
def create (view : View) (keys : List String) : View := fun path =>
  if path <+: keys then some .empty else view path

/-- A value is received: nothing is left below its leaf, and above it there are objects. -/
def receive (now : Instant) (view : View) (arrival : Arrival) : View := fun path =>
  if path = arrival.path then some (.leaf (arrival.leaf now (view arrival.path)))
  else if arrival.path <+: path then none
  else if path <+: arrival.path then some .empty
  else view path

def receiveAll (now : Instant) (view : View) (arrivals : List Arrival) : View :=
  arrivals.foldl (receive now) view

/-- Batches are received below keys, which are there if there is any batch. -/
def receiveBatches (now : Instant) (keys : List String) (view : View)
    (batches : List (List Arrival)) : View :=
  if batches = [] then view else (view.create keys).receiveAll now batches.flatten

end View

variable {now : Instant} {keys : List String} {arrival : Arrival} {tree : Tree}

theorem view_changeAt_id (below_root : keys ≠ []) (tree : Tree) :
    (tree.changeAt keys id).view = tree.view.create keys := by
  funext path
  rw [view, View.create]
  split
  · rename_i on_way
    obtain ⟨children, is_object⟩ := tree.within?_changeAt_id below_root on_way
    rw [is_object]
    rfl
  · rename_i not_below
    have kept : (tree.changeAt keys id).within? path = tree.within? path :=
      within?_changeAt not_below fun _ _ _ => rfl
    rw [kept]
    rfl

/-- What a value finds is what stands at its path, if it finds anything in an object. -/
theorem foundBy_eq_within? {children : List (String × Tree)}
    (is_object : tree.through arrival.branch = .object children) :
    tree.foundBy arrival = tree.within? arrival.path := by
  rw [Arrival.path, ← get?_through, foundBy, is_object]
  rfl

/-- What a tree shows where a value was received, and elsewhere. -/
theorem view_receive_eq (tree : Tree) (arrival : Arrival) (path : List String) :
    (tree.receive now arrival).view path =
      if path = arrival.path then some (.leaf (arrival.leaf now (tree.foundBy arrival)))
      else if arrival.path <+: path then none
      else if path <+: arrival.path then some .empty
      else tree.view path := by
  rw [view, receive]
  split
  · rename_i here
    rw [here, within?_changeAt_self]
    rfl
  · rename_i elsewhere
    split
    · rename_i below
      obtain ⟨more, rfl⟩ := below
      rw [within?_changeAt_below _ _ fun none_more => elsewhere (by rw [none_more]; simp)]
      rfl
    · rename_i not_below
      split
      · rename_i above
        obtain ⟨more, split⟩ := above
        have further : more ≠ [] := fun none_more => elsewhere (by rw [← split, none_more]; simp)
        rw [← split]
        obtain ⟨children, is_object⟩ := tree.within?_changeAt_above path further fun _ =>
          .leaf (arrival.leaf now (tree.foundBy arrival))
        rw [is_object]
        rfl
      · rename_i not_above
        rw [within?_changeAt not_above fun rest split => absurd ⟨rest, split.symm⟩ not_below]
        rfl

/-- Where a value finds an object, all it needs of the tree is what the tree shows. -/
theorem view_receive (sees : ∃ children, tree.through arrival.branch = .object children) :
    (tree.receive now arrival).view = tree.view.receive now arrival := by
  obtain ⟨children, is_object⟩ := sees
  funext path
  rw [view_receive_eq, foundBy_eq_within? is_object, ← leaf_face]
  rfl

theorem view_receiveAll {arrivals : List Arrival}
    (below_root : ∀ arrival ∈ arrivals, arrival.branch ≠ []) (tree : Tree) :
    (tree.receiveAll now arrivals).view = tree.view.receiveAll now arrivals := by
  induction arrivals generalizing tree with
  | nil => rfl
  | cons arrival arrivals induction_step =>
      rw [List.forall_mem_cons] at below_root
      rw [View.receiveAll, List.foldl_cons, ← view_receive (tree.through_of_ne_nil below_root.1)]
      exact induction_step below_root.2 _

theorem view_receiveBatches {batches : List (List Arrival)} (below_root : keys ≠ [])
    (below : ∀ arrival ∈ batches.flatten, keys <+: arrival.branch) (tree : Tree) :
    (tree.receiveBatches now keys batches).view = tree.view.receiveBatches now keys batches := by
  rw [View.receiveBatches]
  split
  · rename_i no_batches
    rw [no_batches]
    rfl
  · rename_i nonempty
    rw [receiveBatches_eq nonempty below, view_receiveAll, view_changeAt_id below_root]
    intro arrival member at_root
    have above := below arrival member
    rw [at_root, List.prefix_nil] at above
    exact below_root above

/-! ### In any order -/

namespace View

theorem create_create (view : View) (keys more : List String) :
    (view.create keys).create more = (view.create more).create keys := by
  funext path
  simp only [create]
  split <;> split <;> rfl

theorem receive_create {view : View} (apart : ¬ arrival.path <+: keys) :
    (view.create keys).receive now arrival = (view.receive now arrival).create keys := by
  have not_on_way : ∀ path, arrival.path <+: path → ¬ path <+: keys := fun _ below on_way =>
    apart (below.trans on_way)
  funext path
  simp only [receive, create, if_neg apart]
  by_cases here : path = arrival.path
  · rw [if_pos here, if_pos here, if_neg (here ▸ apart)]
  · rw [if_neg here, if_neg here]
    by_cases below : arrival.path <+: path
    · rw [if_pos below, if_pos below, if_neg (not_on_way path below)]
    · rw [if_neg below, if_neg below]
      split <;> split <;> rfl

theorem receive_elsewhere {path : List String} (elsewhere : arrival.reaches path = false)
    (view : View) : view.receive now arrival path = view path := by
  obtain ⟨not_below, not_above⟩ := Arrival.reaches_eq_false_iff.1 elsewhere
  have not_here : path ≠ arrival.path := by
    rintro rfl
    exact not_below List.prefix_rfl
  rw [receive, if_neg not_here, if_neg not_below, if_neg not_above]

/-- At the path of a value and below it, all depends on what the value finds. -/
theorem receive_congr {path : List String} (below : arrival.path <+: path) {view other : View}
    (same : view arrival.path = other arrival.path) :
    view.receive now arrival path = other.receive now arrival path := by
  rw [receive, receive, same, if_pos below, if_pos below]

/-- A value that does not reach the path of another does not reach what is below it. -/
theorem receive_below_elsewhere {one other : Arrival} (apart : other.reaches one.path = false)
    {path : List String} (below : one.path <+: path) (view : View) :
    view.receive now other path = view path := by
  obtain ⟨other_not_below, one_not_below⟩ := Arrival.reaches_eq_false_iff.1 apart
  refine receive_elsewhere (Arrival.reaches_eq_false_iff.2 ⟨fun other_below => ?_, fun above =>
    one_not_below (below.trans above)⟩) view
  rcases List.prefix_or_prefix_of_prefix below other_below with one_first | other_first
  · exact one_not_below one_first
  · exact other_not_below other_first

/-- Values that do not reach each other can be received in any order. -/
theorem receive_comm {view : View} {one other : Arrival} (apart : one.reaches other.path = false) :
    (view.receive now one).receive now other = (view.receive now other).receive now one := by
  have apart_symm : other.reaches one.path = false := (other.reaches_comm one).trans apart
  funext path
  by_cases below_one : one.path <+: path
  · rw [receive_below_elsewhere apart_symm below_one,
      receive_congr below_one (receive_below_elsewhere apart_symm List.prefix_rfl view)]
  · by_cases below_other : other.path <+: path
    · rw [receive_below_elsewhere apart below_other,
        receive_congr below_other (receive_below_elsewhere apart List.prefix_rfl view)]
    · -- Objects may be made above both, and nothing else is written.
      have not_one : path ≠ one.path := by
        rintro rfl
        exact below_one List.prefix_rfl
      have not_other : path ≠ other.path := by
        rintro rfl
        exact below_other List.prefix_rfl
      simp only [receive, if_neg below_one, if_neg below_other, if_neg not_one, if_neg not_other]
      split <;> split <;> rfl

theorem receiveAll_create {view : View} {arrivals : List Arrival}
    (apart : ∀ arrival ∈ arrivals, ¬ arrival.path <+: keys) :
    (view.create keys).receiveAll now arrivals = (view.receiveAll now arrivals).create keys := by
  induction arrivals generalizing view with
  | nil => rfl
  | cons arrival arrivals induction_step =>
      rw [List.forall_mem_cons] at apart
      rw [receiveAll, List.foldl_cons, receive_create apart.1]
      exact induction_step apart.2

theorem receiveAll_receive {view : View} {arrivals : List Arrival}
    (apart : ∀ other ∈ arrivals, arrival.reaches other.path = false) :
    (view.receive now arrival).receiveAll now arrivals =
      (view.receiveAll now arrivals).receive now arrival := by
  induction arrivals generalizing view with
  | nil => rfl
  | cons other arrivals induction_step =>
      rw [List.forall_mem_cons] at apart
      rw [receiveAll, List.foldl_cons, receive_comm apart.1]
      exact induction_step apart.2

theorem receiveAll_comm {view : View} {ones others : List Arrival}
    (apart : ∀ one ∈ ones, ∀ other ∈ others, one.reaches other.path = false) :
    (view.receiveAll now ones).receiveAll now others =
      (view.receiveAll now others).receiveAll now ones := by
  induction ones generalizing view with
  | nil => rfl
  | cons one ones induction_step =>
      rw [List.forall_mem_cons] at apart
      have rest : ((view.receive now one).receiveAll now ones).receiveAll now others =
          ((view.receive now one).receiveAll now others).receiveAll now ones :=
        induction_step apart.2
      rw [receiveAll_receive apart.1] at rest
      exact rest

/-- Batches whose values do not reach each other, and are not above the keys below which the others
arrive, can be received in any order. -/
theorem receiveBatches_comm {view : View} {keys more : List String}
    {ones others : List (List Arrival)}
    (apart : ∀ one ∈ ones.flatten, ∀ other ∈ others.flatten, one.reaches other.path = false)
    (one_below : ∀ one ∈ ones.flatten, ¬ one.path <+: more)
    (other_below : ∀ other ∈ others.flatten, ¬ other.path <+: keys) :
    (view.receiveBatches now keys ones).receiveBatches now more others =
      (view.receiveBatches now more others).receiveBatches now keys ones := by
  simp only [receiveBatches]
  split
  · rfl
  · split
    · rfl
    · rw [← receiveAll_create one_below, ← receiveAll_create other_below, receiveAll_comm apart,
        create_create]

end View

/-! ### Trees that show the same -/

theorem within?_cons (children : List (String × Tree)) (key : String) (path : List String) :
    (object children).within? (key :: path) =
      (Entries.get? children key).bind fun child => child.within? path := rfl

/-- Objects that show the same hold children that show the same. -/
theorem view_child {ones others : List (String × Tree)}
    (same : (object ones).view = (object others).view) (key : String) :
    (Entries.get? ones key).map view = (Entries.get? others key).map view := by
  have at_key := fun path => congrFun same (key :: path)
  simp only [view, within?_cons] at at_key
  cases one_eq : Entries.get? ones key with
  | none =>
      cases other_eq : Entries.get? others key with
      | none => rfl
      | some other => simpa [one_eq, other_eq, within?] using at_key []
  | some one =>
      cases other_eq : Entries.get? others key with
      | none => simpa [one_eq, other_eq, within?] using at_key []
      | some other =>
          rw [Option.map_some, Option.map_some, Option.some.injEq]
          funext path
          simpa [one_eq, other_eq, view] using at_key path

/-- Trees that show the same are of the same kind at the top. -/
theorem face_of_view {one other : Tree} (same : one.view = other.view) :
    one.face = other.face :=
  Option.some.inj (congrFun same [])

/-- Under each key, trees that show the same have children that show the same. -/
private theorem exists_twin {ones others : List (String × Tree)}
    (distinct : (Entries.keys ones).Nodup)
    (same : (object ones).view = (object others).view) {entry : String × Tree}
    (member : entry ∈ ones) : ∃ twin, Entries.get? others entry.1 = some twin ∧
      entry.2.view = twin.view := by
  have at_key := view_child same entry.1
  rw [Entries.get?_of_mem distinct member] at at_key
  obtain ⟨twin, found, shows⟩ := Option.map_eq_some_iff.1 at_key.symm
  exact ⟨twin, found, shows.symm⟩

/-- Objects that show the same have the same keys, in whatever order. -/
private theorem keys_perm {ones others : List (String × Tree)}
    (distinct : (Entries.keys ones).Nodup) (distinct' : (Entries.keys others).Nodup)
    (same : (object ones).view = (object others).view) :
    (Entries.keys ones).Perm (Entries.keys others) := by
  apply (List.perm_ext_iff_of_nodup distinct distinct').2
  intro key
  have at_key := congrArg Option.isSome (view_child same key)
  have found_iff : ∀ children : List (String × Tree),
      key ∈ Entries.keys children ↔ (Entries.get? children key).isSome := by
    intro children
    rw [← not_iff_not, ← Entries.get?_eq_none_iff, Option.not_isSome_iff_eq_none]
  rw [found_iff, found_iff, ← Option.isSome_map (f := view), at_key, Option.isSome_map]

/-- Members in the order of the keys, and in the order of the keys of the other object. -/
private theorem map_keys_encode {children : List (String × Tree)}
    (distinct : (Entries.keys children).Nodup) :
    (Entries.keys children).map (fun key =>
      (key, ((Entries.get? children key).getD .empty).encode)) = encodeChildren children := by
  rw [encodeChildren_eq_map, Entries.keys, List.map_map]
  apply List.map_congr_left
  intro entry member
  rw [Function.comp_apply, Entries.get?_of_mem distinct member, Option.getD_some]

mutual

/-- Trees without repeated keys that show the same differ in the order of children only. -/
theorem reordered_of_view : ∀ {one other : Tree}, one.DistinctKeys → other.DistinctKeys →
    one.view = other.view → Json.Reordered one.encode other.encode
  | .leaf held, other, _, _, same => by
      have here := face_of_view same
      cases other with
      | leaf twin =>
          cases here
          exact .refl _
      | array items => cases here
      | object others => cases here
  | .array items, other, _, _, same => by
      have here := face_of_view same
      cases other with
      | leaf twin => cases here
      | array twins =>
          cases here
          exact .refl _
      | object others => cases here
  | .object ones, other, distinct, distinct', same => by
      have here := face_of_view same
      cases other with
      | leaf twin => cases here
      | array twins => cases here
      | object others =>
          have twins : ∀ entry ∈ ones, ∃ twin, Entries.get? others entry.1 = some twin ∧
              twin.DistinctKeys ∧ entry.2.view = twin.view := by
            intro entry member
            obtain ⟨twin, found, shows⟩ := exists_twin distinct.1 same member
            exact ⟨twin, found, EveryObject.kid distinct' (Entries.mem_of_get? found), shows⟩
          have perm := keys_perm distinct.1 distinct'.1 same
          rw [encode, encode, ← map_keys_encode distinct'.1, encodeChildren_eq_map]
          refine
            (Json.Reordered.object_map (reordered_of_views distinct.2 twins)).trans (.members ?_)
          have by_key := perm.map fun key =>
            (key, ((Entries.get? others key).getD .empty).encode)
          rwa [Entries.keys, List.map_map] at by_key

theorem reordered_of_views : ∀ {ones others : List (String × Tree)}, EveryChild List.Nodup ones →
    (∀ entry ∈ ones, ∃ twin, Entries.get? others entry.1 = some twin ∧ twin.DistinctKeys ∧
      entry.2.view = twin.view) →
    ∀ entry ∈ ones, Json.Reordered entry.2.encode
      ((Entries.get? others entry.1).getD .empty).encode
  | [], _, _, _ => fun _ member => absurd member List.not_mem_nil
  | (key, one) :: ones, others, distinct, twins => by
      rw [List.forall_mem_cons] at twins
      rw [List.forall_mem_cons]
      obtain ⟨⟨twin, found, twin_distinct, shows⟩, later⟩ := twins
      refine ⟨?_, reordered_of_views distinct.2 later⟩
      rw [found]
      exact reordered_of_view distinct.1 twin_distinct shows

end

end VesselHub.Tree
