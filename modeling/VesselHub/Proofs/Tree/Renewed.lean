/-
Module: VesselHub.Proofs.Tree.Renewed
Purpose: Values that are received once more. All branches stay as they are, and a leaf gets a new
  time if and only if its value has none of its own and an earlier value of the same list was in its
  way: it wrote something else at the path, or above it or below it.
Main exports: Arrival.renewed, Arrival.renewsAmong, Arrival.timeAfter,
  Tree.unstamped_receiveAll_twice, Tree.time_receiveAll, Tree.encode_receiveAll_twice_iff,
  Tree.receiveBatches_twice
-/
import VesselHub.Proofs.Tree.Edit
import VesselHub.Proofs.Tree.Unstamped

namespace VesselHub

namespace Arrival

/-- A value repeats one that was written before: at the same path, from the same source. -/
def repeats (later earlier : Arrival) : Bool :=
  earlier.path = later.path && earlier.value.same later.value && earlier.source = later.source

/-- A value gets the time of receipt, whatever stood in the tree before the values that came
earlier, the latest of them first. -/
def renewed (arrival : Arrival) : List Arrival → Bool
  | [] => false
  | before :: earlier =>
      arrival.stamp.isNone &&
        if before.reaches arrival.path then !arrival.repeats before || before.renewed earlier
        else arrival.renewed earlier

/-- One of the values is renewed and then left alone by the values behind it. The values that came
earlier are given the latest first. -/
def renewsAmong : List Arrival → List Arrival → Bool
  | _, [] => false
  | earlier, arrival :: later =>
      (arrival.renewed earlier && !later.any fun other => other.reaches arrival.path) ||
        renewsAmong (arrival :: earlier) later

/-- The time that a value gets if `found` stood at its path before the values that came earlier,
the latest of them first. -/
def timeAfter (now : Instant) (found : Option Tree) (arrival : Arrival) : List Arrival → Instant
  | [] => arrival.time now found
  | before :: earlier =>
      arrival.stamp.getD
        (if before.reaches arrival.path then
          if arrival.repeats before then before.timeAfter now found earlier else now
        else arrival.timeAfter now found earlier)

variable {arrival : Arrival} {now : Instant} {found : Option Tree}

theorem repeats_iff {later earlier : Arrival} : later.repeats earlier = true ↔
    earlier.path = later.path ∧ earlier.value.same later.value = true ∧
      earlier.source = later.source := by
  rw [repeats, Bool.and_eq_true, Bool.and_eq_true, decide_eq_true_eq, decide_eq_true_eq,
    and_assoc]

theorem time_of_stamp {stamp : Instant} (given : arrival.stamp = some stamp) :
    arrival.time now found = stamp := by
  rw [time, given]
  rfl

/-- A value that is renewed gets the time of receipt. -/
theorem timeAfter_of_renewed {earlier : List Arrival} (is_renewed : arrival.renewed earlier) :
    arrival.timeAfter now found earlier = now := by
  induction earlier generalizing arrival with
  | nil => cases is_renewed
  | cons before earlier induction_step =>
      rw [renewed, Bool.and_eq_true, Option.isNone_iff_eq_none] at is_renewed
      obtain ⟨no_stamp, is_renewed⟩ := is_renewed
      rw [timeAfter, no_stamp, Option.getD_none]
      by_cases reaches : before.reaches arrival.path
      · rw [if_pos reaches, Bool.or_eq_true, Bool.not_eq_true'] at is_renewed
        rw [if_pos reaches]
        split
        · rename_i repeated
          rw [repeated] at is_renewed
          exact induction_step (is_renewed.resolve_left nofun)
        · rfl
      · rw [if_neg reaches] at is_renewed
        rw [if_neg reaches]
        exact induction_step is_renewed

/-- A value that is renewed has no time, and an earlier one was in its way. -/
theorem exists_reaches_of_renewed {earlier : List Arrival} (is_renewed : arrival.renewed earlier) :
    arrival.stamp = none ∧ ∃ before ∈ earlier, before.reaches arrival.path := by
  induction earlier with
  | nil => cases is_renewed
  | cons before earlier induction_step =>
      rw [renewed, Bool.and_eq_true, Option.isNone_iff_eq_none] at is_renewed
      obtain ⟨no_stamp, is_renewed⟩ := is_renewed
      by_cases reaches : before.reaches arrival.path
      · exact ⟨no_stamp, before, List.mem_cons_self, reaches⟩
      · rw [if_neg reaches] at is_renewed
        obtain ⟨-, other, member, other_reaches⟩ := induction_step is_renewed
        exact ⟨no_stamp, other, List.mem_cons_of_mem _ member, other_reaches⟩

/-- A value that is not renewed gets the same time again, if the leaf at its path holds an equal
value from the same source with that time. -/
theorem timeAfter_again {now later : Instant} {held : Leaf} {earlier : List Arrival}
    (not_renewed : arrival.renewed earlier = false)
    (distinct : arrival.value.HasDistinctKeys)
    (distinct_earlier : ∀ before ∈ earlier, before.value.HasDistinctKeys)
    (same_value : held.value.same arrival.value) (same_source : held.source = some arrival.source)
    (same_time : held.timestamp = some (arrival.timeAfter now found earlier)) :
    arrival.timeAfter later (some (.leaf held)) earlier = arrival.timeAfter now found earlier := by
  induction earlier generalizing arrival with
  | nil =>
      cases given : arrival.stamp with
      | some stamp => rw [timeAfter, timeAfter, time_of_stamp given, time_of_stamp given]
      | none =>
          rw [timeAfter, time, given, repeatedTime, if_pos ⟨same_value, same_source⟩, same_time]
          rfl
  | cons before earlier induction_step =>
      rw [List.forall_mem_cons] at distinct_earlier
      rw [renewed] at not_renewed
      rw [timeAfter] at same_time
      rw [timeAfter, timeAfter]
      cases given : arrival.stamp with
      | some stamp => rfl
      | none =>
          rw [given, Option.isNone_none, Bool.true_and] at not_renewed
          rw [given, Option.getD_none] at same_time
          rw [Option.getD_none, Option.getD_none]
          by_cases reaches : before.reaches arrival.path
          · rw [if_pos reaches, Bool.or_eq_false_iff, Bool.not_eq_false'] at not_renewed
            obtain ⟨repeated, before_not_renewed⟩ := not_renewed
            obtain ⟨-, value, source⟩ := repeats_iff.1 repeated
            rw [if_pos reaches, if_pos repeated] at same_time
            rw [if_pos reaches, if_pos reaches, if_pos repeated, if_pos repeated]
            exact induction_step before_not_renewed distinct_earlier.1 distinct_earlier.2
              (Json.same_trans same_value (Json.same_symm distinct_earlier.1 distinct value))
              (by rw [same_source, source]) same_time
          · rw [if_neg reaches] at not_renewed same_time
            rw [if_neg reaches, if_neg reaches]
            exact induction_step not_renewed distinct distinct_earlier.2 same_value same_source
              same_time

/-- The time of a value is written alike when it is received once more, if both times of receipt
are or the value is not renewed. -/
theorem text_timeAfter_again {first second : Instant} {earlier : List Arrival}
    (unrenewed : first.text = second.text ∨ arrival.renewed earlier = false)
    (distinct : arrival.value.HasDistinctKeys)
    (distinct_earlier : ∀ before ∈ earlier, before.value.HasDistinctKeys) :
    (arrival.timeAfter second
      (some (.leaf {
        value := arrival.value
        source := some arrival.source
        timestamp := some (arrival.timeAfter first found earlier) })) earlier).text =
      (arrival.timeAfter first found earlier).text := by
  cases is_renewed : arrival.renewed earlier with
  | true =>
      rw [timeAfter_of_renewed is_renewed, timeAfter_of_renewed is_renewed]
      exact (unrenewed.resolve_right (by rw [is_renewed]; nofun)).symm
  | false =>
      rw [timeAfter_again is_renewed distinct distinct_earlier (Json.same_refl distinct) rfl rfl]

theorem renewsAmong_iff {earlier arrivals : List Arrival} : renewsAmong earlier arrivals = true ↔
    ∃ before arrival later, arrivals = before ++ arrival :: later ∧
      arrival.renewed (before.reverse ++ earlier) = true ∧
        ∀ other ∈ later, other.reaches arrival.path = false := by
  induction arrivals generalizing earlier with
  | nil => simp [renewsAmong]
  | cons first arrivals induction_step =>
      rw [renewsAmong, Bool.or_eq_true, Bool.and_eq_true, Bool.not_eq_true', List.any_eq_false,
        induction_step]
      constructor
      · rintro (⟨is_renewed, lasting⟩ | ⟨before, arrival, later, rfl, is_renewed, lasting⟩)
        · exact ⟨[], first, arrivals, rfl, is_renewed, fun other member =>
            Bool.eq_false_iff.2 (lasting other member)⟩
        · exact ⟨first :: before, arrival, later, rfl, by simpa using is_renewed, lasting⟩
      · rintro ⟨before, arrival, later, split, is_renewed, lasting⟩
        cases before with
        | nil =>
            cases split
            exact Or.inl ⟨is_renewed, fun other member =>
              Bool.eq_false_iff.1 (lasting other member)⟩
        | cons start before =>
            cases split
            exact Or.inr ⟨before, arrival, later, rfl, by simpa using is_renewed, lasting⟩

/-- Either no value has a property, or there is a last one that has it. -/
theorem exists_last (property : Arrival → Bool) (arrivals : List Arrival) :
    (∀ arrival ∈ arrivals, property arrival = false) ∨
      ∃ before arrival later, arrivals = before ++ arrival :: later ∧ property arrival = true ∧
        ∀ other ∈ later, property other = false := by
  induction arrivals with
  | nil => exact Or.inl nofun
  | cons first arrivals induction_step =>
      rcases induction_step with none_later | ⟨before, arrival, later, rfl, has, none_later⟩
      · cases has : property first with
        | true => exact Or.inr ⟨[], first, arrivals, rfl, has, none_later⟩
        | false => exact Or.inl (List.forall_mem_cons.2 ⟨has, none_later⟩)
      · exact Or.inr ⟨first :: before, arrival, later, rfl, has, none_later⟩

end Arrival

namespace Tree

variable {arrivals : List Arrival}

/-! ### The branches -/

/-- What receiving values does to the tree without its times. -/
theorem unstamped_receiveAll (now : Instant) (arrivals : List Arrival) (tree : Tree) :
    (tree.receiveAll now arrivals).unstamped = tree.unstamped.editChildren
      (arrivals.flatMap fun arrival =>
        Edit.placeAt (.leaf (arrival.leaf now none).unstamped) arrival.path) := by
  induction arrivals generalizing tree with
  | nil => rfl
  | cons arrival arrivals induction_step =>
      have same_leaf : ∀ found, (arrival.leaf now found).unstamped =
          (arrival.leaf now none).unstamped := fun _ => rfl
      rw [List.flatMap_cons, editChildren_append, editChildren_placeAt _ _ arrival.path_ne_nil,
        ← same_leaf (tree.foundBy arrival), ← unstamped_changeAt]
      exact induction_step (tree.receive now arrival)

/-- Values that are received once more, whenever that is, leave all but times as it is. -/
theorem unstamped_receiveAll_twice {tree : Tree} (distinct : tree.DistinctKeys)
    (arrivals : List Arrival) (first second : Instant) :
    ((tree.receiveAll first arrivals).receiveAll second arrivals).unstamped =
      (tree.receiveAll first arrivals).unstamped := by
  have same_leaf : ∀ arrival : Arrival, (arrival.leaf second none).unstamped =
      (arrival.leaf first none).unstamped := fun _ => rfl
  simp only [unstamped_receiveAll, same_leaf]
  exact editChildren_twice (distinctKeys_unstamped distinct) _

/-! ### The times -/

theorem receiveAll_object (now : Instant) (children : List (String × Tree))
    (arrivals : List Arrival) :
    ∃ after, (object children).receiveAll now arrivals = .object after := by
  induction arrivals generalizing children with
  | nil => exact ⟨children, rfl⟩
  | cons arrival arrivals induction_step =>
      obtain ⟨between, is_object⟩ := (object children).changeAt_object arrival.path_ne_nil
        fun _ => .leaf (arrival.leaf now ((object children).foundBy arrival))
      obtain ⟨after, rest⟩ := induction_step between
      exact ⟨after, (congrArg (fun tree => receiveAll now tree arrivals) is_object).trans rest⟩

/-- Values that do not reach a path leave what is shown there. -/
theorem view_receiveAll_elsewhere {now : Instant} {path : List String}
    (elsewhere : ∀ arrival ∈ arrivals, arrival.reaches path = false) (tree : Tree) :
    (tree.receiveAll now arrivals).view path = tree.view path := by
  induction arrivals generalizing tree with
  | nil => rfl
  | cons arrival arrivals induction_step =>
      rw [List.forall_mem_cons] at elsewhere
      obtain ⟨not_reached, others⟩ := elsewhere
      have rest := induction_step others (tree.receive now arrival)
      obtain ⟨not_below, not_above⟩ := Arrival.reaches_eq_false_iff.1 not_reached
      have not_here : path ≠ arrival.path := by
        rintro rfl
        exact not_below List.prefix_rfl
      rw [view_receive_eq, if_neg not_here, if_neg not_below, if_neg not_above] at rest
      exact rest

/-- The time of a value without one, if another was received before it. -/
theorem time_view_receive (now : Instant) (view : View) (before : Arrival) {arrival : Arrival}
    (no_stamp : arrival.stamp = none) :
    arrival.time now (view.receive now before arrival.path) =
      if before.reaches arrival.path then
        if arrival.repeats before then before.time now (view before.path) else now
      else arrival.time now (view arrival.path) := by
  cases reaches : before.reaches arrival.path with
  | false => rw [View.receive_elsewhere reaches, if_neg Bool.false_ne_true]
  | true =>
      rw [if_pos rfl, Arrival.time, no_stamp, Option.none_or, View.receive]
      by_cases here : arrival.path = before.path
      · rw [if_pos here, Arrival.repeatedTime]
        by_cases repeated : arrival.repeats before
        · obtain ⟨-, value, source⟩ := Arrival.repeats_iff.1 repeated
          rw [if_pos repeated, if_pos ⟨value, congrArg some source⟩]
          rfl
        · rw [if_neg repeated, if_neg fun same => repeated
            (Arrival.repeats_iff.2 ⟨here.symm, same.1, Option.some.inj same.2⟩)]
          rfl
      · -- Above the value before there is an object, and below it there is nothing.
        rw [if_neg here, if_neg fun repeated => here (Arrival.repeats_iff.1 repeated).1.symm]
        by_cases below : before.path <+: arrival.path
        · rw [if_pos below]
          rfl
        · rw [if_neg below, if_pos ((Arrival.reaches_iff.1 reaches).resolve_left below)]
          rfl

/-- The time of a value is told from the values that came earlier and from what the tree showed
before them. -/
theorem time_receiveAll (now : Instant) (children : List (String × Tree))
    (earlier : List Arrival) (arrival : Arrival) :
    arrival.time now (((object children).receiveAll now earlier.reverse).view arrival.path) =
      arrival.timeAfter now ((object children).view arrival.path) earlier := by
  induction earlier generalizing arrival with
  | nil => rfl
  | cons before earlier induction_step =>
      obtain ⟨between, is_object⟩ := receiveAll_object now children earlier.reverse
      have seen : ((object children).receiveAll now (before :: earlier).reverse).view =
          ((object children).receiveAll now earlier.reverse).view.receive now before := by
        rw [List.reverse_cons, receiveAll_append, is_object]
        exact view_receive (through_object between before.branch)
      rw [seen, Arrival.timeAfter]
      cases given : arrival.stamp with
      | some stamp => rw [Arrival.time_of_stamp given, Option.getD_some]
      | none =>
          rw [time_view_receive now _ before given, induction_step before, induction_step arrival,
            Option.getD_none]
          by_cases repeated : arrival.repeats before
          · rw [(Arrival.repeats_iff.1 repeated).1]
          · rw [if_neg repeated, if_neg repeated]

/-- What is shown at a path is settled by the last value that reaches it. -/
theorem view_receiveAll_last (now : Instant) (children : List (String × Tree))
    (before : List Arrival) {later : List Arrival} {arrival : Arrival} {path : List String}
    (elsewhere : ∀ other ∈ later, other.reaches path = false) :
    ((object children).receiveAll now (before ++ arrival :: later)).view path =
      ((object children).receiveAll now before).view.receive now arrival path := by
  obtain ⟨between, is_object⟩ := receiveAll_object now children before
  have split : (object children).receiveAll now (before ++ arrival :: later) =
      (((object children).receiveAll now before).receive now arrival).receiveAll now later :=
    receiveAll_append ..
  rw [split, view_receiveAll_elsewhere elsewhere, is_object,
    view_receive (through_object between arrival.branch)]

/-- At the path of the last value that reaches it, its leaf is shown. -/
theorem view_receiveAll_lasting (now : Instant) (children : List (String × Tree))
    (before : List Arrival) {later : List Arrival} {arrival : Arrival}
    (lasting : ∀ other ∈ later, other.reaches arrival.path = false) :
    ((object children).receiveAll now (before ++ arrival :: later)).view arrival.path =
      some (.leaf {
        value := arrival.value
        source := some arrival.source
        timestamp := some
          (arrival.timeAfter now ((object children).view arrival.path) before.reverse) }) := by
  rw [view_receiveAll_last now children before lasting, View.receive, if_pos rfl,
    ← time_receiveAll, List.reverse_reverse]
  rfl

/-- Above or below the last value that reaches a path, nothing depends on times. -/
theorem view_receiveAll_beside (now : Instant) (children : List (String × Tree))
    (before : List Arrival) {later : List Arrival} {arrival : Arrival} {path : List String}
    (reaches : arrival.reaches path) (not_here : path ≠ arrival.path)
    (elsewhere : ∀ other ∈ later, other.reaches path = false) :
    ((object children).receiveAll now (before ++ arrival :: later)).view path =
      if arrival.path <+: path then none else some .empty := by
  rw [view_receiveAll_last now children before elsewhere, View.receive, if_neg not_here]
  split
  · rfl
  · rename_i not_below
    rw [if_pos ((Arrival.reaches_iff.1 reaches).resolve_left not_below)]

theorem within?_of_view {tree : Tree} {path : List String} {held : Leaf}
    (shows : tree.view path = some (.leaf held)) : tree.within? path = some (.leaf held) := by
  obtain ⟨branch, found, face_eq⟩ := Option.map_eq_some_iff.1 shows
  cases branch with
  | leaf other =>
      cases face_eq
      exact found
  | object children => cases face_eq
  | array items => cases face_eq

/-- Leaves that differ in their times have the same form if the times are written alike. -/
theorem encode_leaf_eq_iff (value : Json) (source : String) (one other : Instant) :
    Leaf.encode { value, source := some source, timestamp := some one } =
        Leaf.encode { value, source := some source, timestamp := some other } ↔
      one.text = other.text := by
  simp [Leaf.encode, Leaf.timestampText, Json.objectOf, Json.optionalMember]

/-- If the document stays as it is though a value is renewed, the times are written alike. -/
private theorem same_text_of_encode_eq {children after : List (String × Tree)}
    {first second : Instant} (once_eq : (object children).receiveAll first arrivals = .object after)
    (renews : Arrival.renewsAmong [] arrivals)
    (same : ((object after).receiveAll second arrivals).encode = (object after).encode) :
    first.text = second.text := by
  obtain ⟨before, arrival, later, rfl, is_renewed, lasting⟩ := Arrival.renewsAmong_iff.1 renews
  rw [List.append_nil] at is_renewed
  have once := view_receiveAll_lasting first children before lasting
  have twice := view_receiveAll_lasting second after before lasting
  rw [Arrival.timeAfter_of_renewed is_renewed] at once twice
  rw [once_eq] at once
  have same_leaf := encode_within? same (within?_of_view twice) (within?_of_view once)
  exact ((encode_leaf_eq_iff ..).1 same_leaf).symm

/-- If the times are written alike or no value is renewed, receiving all values once more shows the
same forms everywhere. -/
theorem encode_view_again {children after : List (String × Tree)} {first second : Instant}
    (once_eq : (object children).receiveAll first arrivals = .object after)
    (values : ∀ arrival ∈ arrivals, arrival.value.HasDistinctKeys)
    (unrenewed : first.text = second.text ∨ Arrival.renewsAmong [] arrivals = false)
    (path : List String) :
    (((object after).receiveAll second arrivals).view path).map encode =
      ((object after).view path).map encode := by
  -- What is shown at a path depends on the last value that reaches it.
  rcases Arrival.exists_last (fun other => other.reaches path) arrivals with
    elsewhere | ⟨before, arrival, later, rfl, reaches, elsewhere⟩
  · rw [view_receiveAll_elsewhere elsewhere]
  · by_cases here : path = arrival.path
    · subst here
      have once := view_receiveAll_lasting first children before elsewhere
      have twice := view_receiveAll_lasting second after before elsewhere
      rw [once_eq] at once
      rw [twice, once, Option.map_some, Option.map_some]
      congr 1
      apply (encode_leaf_eq_iff ..).2
      rw [List.forall_mem_append, List.forall_mem_cons] at values
      refine Arrival.text_timeAfter_again (unrenewed.imp_right fun not_among => ?_) values.2.1
        fun other member => values.1 other (List.mem_reverse.1 member)
      rw [Bool.eq_false_iff] at not_among ⊢
      exact fun is_renewed => not_among (Arrival.renewsAmong_iff.2
        ⟨before, arrival, later, rfl, by rw [List.append_nil]; exact is_renewed, elsewhere⟩)
    · rw [view_receiveAll_beside second after before reaches here elsewhere, ← once_eq,
        view_receiveAll_beside first children before reaches here elsewhere]

/-- Below an object, receiving all values once more leaves the document as it is if and only if both
times of receipt are written alike or no value is renewed. -/
theorem encode_receiveAll_twice_object {children : List (String × Tree)}
    (distinct : (object children).DistinctKeys)
    (values : ∀ arrival ∈ arrivals, arrival.value.HasDistinctKeys) (first second : Instant)
    (twice_distinct :
      (((object children).receiveAll first arrivals).receiveAll second arrivals).DistinctKeys) :
    (((object children).receiveAll first arrivals).receiveAll second arrivals).encode =
        ((object children).receiveAll first arrivals).encode ↔
      first.text = second.text ∨ Arrival.renewsAmong [] arrivals = false := by
  obtain ⟨after, once_eq⟩ := receiveAll_object first children arrivals
  have same_branches := unstamped_receiveAll_twice distinct arrivals first second
  rw [once_eq] at same_branches twice_distinct ⊢
  constructor
  · intro same
    cases renews : Arrival.renewsAmong [] arrivals with
    | false => exact Or.inr rfl
    | true => exact Or.inl (same_text_of_encode_eq once_eq renews same)
  · intro unrenewed
    exact encode_eq_of_view twice_distinct same_branches
      (encode_view_again once_eq values unrenewed)

/-- The first value makes an object of any tree, and of some object it makes the same. -/
theorem exists_object_receive {tree : Tree} (distinct : tree.DistinctKeys) (arrival : Arrival) :
    ∃ children, (object children).DistinctKeys ∧
      ∀ now, (object children).receive now arrival = tree.receive now arrival := by
  by_cases is_object : ∃ children, tree = .object children
  · obtain ⟨children, rfl⟩ := is_object
    exact ⟨children, distinct, fun _ => rfl⟩
  · have hollow : tree.childrenOf = [] := by
      cases tree with
      | object children => exact absurd ⟨children, rfl⟩ is_object
      | array items => rfl
      | leaf held => rfl
    cases branch_eq : arrival.branch with
    | cons first rest =>
        refine ⟨[], ⟨List.nodup_nil, trivial⟩, fun now => ?_⟩
        rw [receive, receive, foundBy, foundBy, Arrival.path, branch_eq, through, through,
          List.cons_append, changeAt, changeAt, objectAt, objectAt, setChild, setChild, hollow]
        rfl
    | nil =>
        -- An item of an array can be found at the root, which is an object only afterwards.
        refine ⟨(tree.child? arrival.key).toList.map fun item => (arrival.key, item), ?_,
          fun now => ?_⟩
        · cases found : tree.child? arrival.key with
          | none => exact ⟨List.nodup_nil, trivial⟩
          | some item =>
              exact ⟨by simp, EveryObject.child? distinct found, trivial⟩
        · rw [receive, receive, foundBy, foundBy, Arrival.path, branch_eq, through, through,
            List.nil_append, changeAt, changeAt, changeAt, changeAt, setChild, setChild, hollow]
          cases found : tree.child? arrival.key with
          | none => rfl
          | some item => simp [child?, Entries.get?, Entries.insert]

/-- In any tree, receiving all values once more leaves the document as it is if and only if both
times of receipt are written alike or no value is renewed. -/
theorem encode_receiveAll_twice_iff {tree : Tree} (distinct : tree.DistinctKeys)
    (values : ∀ arrival ∈ arrivals, arrival.value.HasDistinctKeys) (first second : Instant)
    (twice_distinct : ((tree.receiveAll first arrivals).receiveAll second arrivals).DistinctKeys) :
    ((tree.receiveAll first arrivals).receiveAll second arrivals).encode =
        (tree.receiveAll first arrivals).encode ↔
      first.text = second.text ∨ Arrival.renewsAmong [] arrivals = false := by
  cases arrivals with
  | nil => exact ⟨fun _ => Or.inr rfl, fun _ => rfl⟩
  | cons arrival later =>
      obtain ⟨children, object_distinct, same⟩ := exists_object_receive distinct arrival
      have same_once : tree.receiveAll first (arrival :: later) =
          (object children).receiveAll first (arrival :: later) := by
        rw [receiveAll, receiveAll, List.foldl_cons, List.foldl_cons, same]
      rw [same_once] at twice_distinct ⊢
      exact encode_receiveAll_twice_object object_distinct values first second twice_distinct

/-- Batches that are received once more make no branch, and they leave the document as it is if and
only if both times of receipt are written alike or no value is renewed. -/
theorem receiveBatches_twice {tree : Tree} (distinct : tree.DistinctKeys) {keys : List String}
    {batches : List (List Arrival)}
    (below : ∀ arrival ∈ batches.flatten, keys <+: arrival.branch)
    (values : ∀ arrival ∈ batches.flatten, arrival.value.HasDistinctKeys) (first second : Instant)
    (twice_distinct : ((tree.receiveBatches first keys batches).receiveBatches second keys
      batches).DistinctKeys) :
    ((tree.receiveBatches first keys batches).receiveBatches second keys batches).size =
        (tree.receiveBatches first keys batches).size ∧
      (((tree.receiveBatches first keys batches).receiveBatches second keys batches).encode =
          (tree.receiveBatches first keys batches).encode ↔
        first.text = second.text ∨ Arrival.renewsAmong [] batches.flatten = false) := by
  by_cases no_value : batches.flatten = []
  · rw [receiveBatches_twice_of_nil no_value, no_value]
    exact ⟨rfl, fun _ => Or.inr rfl, fun _ => rfl⟩
  · simp only [receiveBatches_of_ne_nil no_value below] at twice_distinct ⊢
    refine ⟨?_, encode_receiveAll_twice_iff distinct values first second twice_distinct⟩
    rw [← size_unstamped, unstamped_receiveAll_twice distinct, size_unstamped]

end Tree

end VesselHub
