/-
Module: VesselHub.Proofs.Subscription.Registry
Purpose: The registry holds at most one subscription for each session and filter. Subscribing puts
  the new one in the place of the old, and unsubscribing takes away exactly what was named.
Main exports: ActiveSubscription.key, Registry.WellFormed, Registry.active_subscribe_perm,
  Registry.active_unsubscribe, Registry.nodup_keys_active
-/
import Mathlib.Data.List.Nodup
import VesselHub.Subscription.Registry

namespace VesselHub

/-- What identifies a subscription. -/
def ActiveSubscription.key (subscription : ActiveSubscription) : String × String :=
  (subscription.session, subscription.filter)

namespace Registry

/-- Sessions are in increasing order, hold at least one subscription each, only their own, and no
two with one filter. -/
structure WellFormed (registry : Registry) : Prop where
  sorted : (Entries.keys registry.sessions).Pairwise (· < ·)
  nonempty : ∀ entry ∈ registry.sessions, entry.2 ≠ []
  owned : ∀ entry ∈ registry.sessions, ∀ subscription ∈ entry.2, subscription.session = entry.1
  distinct : ∀ entry ∈ registry.sessions, (entry.2.map ActiveSubscription.filter).Nodup

theorem wellFormed_empty : empty.WellFormed where
  sorted := .nil
  nonempty := by simp [empty]
  owned := by simp [empty]
  distinct := by simp [empty]

/-! ### The subscriptions of one session -/

/-- Placing a subscription takes the one with the same filter away, and keeps the others. -/
theorem place_perm (subscription : ActiveSubscription) {held : List ActiveSubscription}
    (distinct : (held.map ActiveSubscription.filter).Nodup) :
    (place subscription held).1.Perm
      (subscription :: held.filter fun other => other.filter != subscription.filter) := by
  induction held with
  | nil => exact .refl _
  | cons first held induction_step =>
      rw [List.map_cons, List.nodup_cons] at distinct
      rw [place]
      split
      · rename_i same
        have others_kept : held.filter (fun other => other.filter != subscription.filter) =
            held := by
          rw [List.filter_eq_self]
          intro other member
          have differs : other.filter ≠ subscription.filter := fun repeated =>
            distinct.1 (List.mem_map.2 ⟨other, member, repeated.trans same.symm⟩)
          simpa using differs
        simp [same, others_kept]
      · rename_i differs
        simp only [bne_iff_ne, ne_eq, differs, not_false_eq_true, List.filter_cons_of_pos]
        exact ((induction_step distinct.2).cons first).trans (.swap ..)

private theorem nodup_place (subscription : ActiveSubscription) {held : List ActiveSubscription}
    (distinct : (held.map ActiveSubscription.filter).Nodup) :
    ((place subscription held).1.map ActiveSubscription.filter).Nodup := by
  rw [((place_perm subscription distinct).map _).nodup_iff, List.map_cons, List.nodup_cons]
  refine ⟨fun repeated => ?_, distinct.sublist (List.filter_sublist.map _)⟩
  obtain ⟨other, member, same⟩ := List.mem_map.1 repeated
  simpa [same] using (List.mem_filter.1 member).2

/-! ### The sorted list of sessions -/

section Sessions

variable {sessions : List (String × List ActiveSubscription)} {session : String}
  {held : List ActiveSubscription}

/-- Writing the subscriptions of a session takes those that it had away. -/
theorem putSession_perm (session : String) (held : List ActiveSubscription)
    (sorted : (Entries.keys sessions).Pairwise (· < ·)) :
    (putSession session held sessions).Perm
      ((session, held) :: Entries.erase sessions session) := by
  induction sessions with
  | nil => exact .refl _
  | cons entry rest induction_step =>
      obtain ⟨present, before⟩ := entry
      obtain ⟨least, rest_sorted⟩ := List.pairwise_cons.1 sorted
      rw [putSession]
      split
      · rename_i same
        simp [Entries.erase, same]
      · rename_i differs
        split
        · rename_i smaller
          -- The list is sorted, so a session that comes before this entry is not behind it.
          have absent : session ∉ Entries.keys rest := fun member =>
            String.lt_irrefl _ (String.lt_trans smaller (least session member))
          rw [Entries.erase, if_neg differs, Entries.erase_of_not_mem absent]
        · rw [Entries.erase, if_neg differs]
          exact ((induction_step rest_sorted).cons _).trans (.swap ..)

theorem mem_putSession (sorted : (Entries.keys sessions).Pairwise (· < ·))
    {entry : String × List ActiveSubscription} (member : entry ∈ putSession session held sessions) :
    entry = (session, held) ∨ entry ∈ sessions := by
  rcases List.mem_cons.1 ((putSession_perm session held sorted).mem_iff.1 member) with same | kept
  · exact Or.inl same
  · exact Or.inr ((Entries.erase_sublist sessions session).subset kept)

theorem keys_putSession_sorted (sorted : (Entries.keys sessions).Pairwise (· < ·)) :
    (Entries.keys (putSession session held sessions)).Pairwise (· < ·) := by
  induction sessions with
  | nil => exact List.pairwise_singleton _ _
  | cons entry rest induction_step =>
      obtain ⟨present, before⟩ := entry
      obtain ⟨least, rest_sorted⟩ := List.pairwise_cons.1 sorted
      rw [putSession]
      split
      · exact sorted
      · rename_i differs
        split
        · rename_i smaller
          refine List.pairwise_cons.2 ⟨?_, sorted⟩
          intro other member
          rcases List.mem_cons.1 member with rfl | later
          · exact smaller
          · exact String.lt_trans smaller (least other later)
        · rename_i not_smaller
          have before_session : present < session :=
            Std.lt_of_le_of_ne (String.not_lt.1 not_smaller) differs
          refine List.pairwise_cons.2 ⟨?_, induction_step rest_sorted⟩
          intro other member
          obtain ⟨entry, entry_mem, rfl⟩ := List.mem_map.1 member
          rcases mem_putSession rest_sorted entry_mem with rfl | later
          · exact before_session
          · exact least _ (List.mem_map_of_mem later)

/-- Writing the subscriptions of a session that has some puts them in their place. -/
theorem putSession_of_split {before after : List (String × List ActiveSubscription)}
    {old : List ActiveSubscription}
    (sorted : (Entries.keys (before ++ (session, old) :: after)).Pairwise (· < ·)) :
    putSession session held (before ++ (session, old) :: after) =
      before ++ (session, held) :: after := by
  induction before with
  | nil => simp [putSession]
  | cons entry before induction_step =>
      obtain ⟨present, kept⟩ := entry
      obtain ⟨least, rest_sorted⟩ := List.pairwise_cons.1 sorted
      have smaller : present < session := least session (by simp)
      have differs : present ≠ session := fun same => String.lt_irrefl _ (same ▸ smaller)
      rw [List.cons_append, putSession, if_neg differs, if_neg (String.lt_asymm smaller),
        induction_step rest_sorted]
      rfl

end Sessions

/-! ### All subscriptions -/

variable {registry : Registry} {session : String}

/-- A session holds nothing, or it has an entry between those of the others. -/
theorem ofSession_cases (registry : Registry) (session : String) :
    (session ∉ Entries.keys registry.sessions ∧ registry.ofSession session = []) ∨
      ∃ before after,
        registry.sessions = before ++ (session, registry.ofSession session) :: after ∧
          session ∉ Entries.keys before := by
  rw [ofSession]
  cases found : Entries.get? registry.sessions session with
  | none => exact Or.inl ⟨(Entries.get?_eq_none_iff _ _).1 found, rfl⟩
  | some held =>
      obtain ⟨before, after, split, absent⟩ := Entries.exists_split_of_get? found
      exact Or.inr ⟨before, after, split, absent⟩

theorem WellFormed.nodup_keys (wellFormed : registry.WellFormed) :
    (Entries.keys registry.sessions).Nodup := by
  refine wellFormed.sorted.imp ?_
  rintro one _ smaller rfl
  exact String.lt_irrefl one smaller

/-- Behind the entry of a session there is no other one of it. -/
private theorem WellFormed.absent_after (wellFormed : registry.WellFormed)
    {before after : List (String × List ActiveSubscription)} {held : List ActiveSubscription}
    (split : registry.sessions = before ++ (session, held) :: after) :
    session ∉ Entries.keys after := by
  have distinct := wellFormed.nodup_keys
  rw [split, Entries.keys, List.map_append, List.nodup_append] at distinct
  exact (List.nodup_cons.1 distinct.2.1).1

theorem WellFormed.session_eq (wellFormed : registry.WellFormed)
    {subscription : ActiveSubscription} (member : subscription ∈ registry.ofSession session) :
    subscription.session = session := by
  rcases ofSession_cases registry session with ⟨_, nothing⟩ | ⟨before, after, split, _⟩
  · rw [nothing] at member
    cases member
  · exact wellFormed.owned (session, registry.ofSession session) (by simp [split]) _ member

theorem WellFormed.distinct_ofSession (wellFormed : registry.WellFormed) (session : String) :
    ((registry.ofSession session).map ActiveSubscription.filter).Nodup := by
  rcases ofSession_cases registry session with ⟨_, nothing⟩ | ⟨before, after, split, _⟩
  · rw [nothing]
    exact List.nodup_nil
  · exact wellFormed.distinct (session, registry.ofSession session) (by simp [split])

/-- All subscriptions are those of one session and those of the others. -/
theorem active_perm (registry : Registry) (session : String) :
    registry.active.Perm (registry.ofSession session ++
      (Entries.erase registry.sessions session).flatMap Prod.snd) := by
  rw [active]
  rcases ofSession_cases registry session with ⟨absent, nothing⟩ | ⟨before, after, split, absent⟩
  · rw [nothing, Entries.erase_of_not_mem absent, List.nil_append]
  · rw [split, Entries.erase_of_split absent, List.flatMap_append, List.flatMap_cons,
      List.flatMap_append, ← List.append_assoc, ← List.append_assoc]
    exact (List.perm_append_comm.append_right _)

/-- What other entries hold belongs to other sessions. -/
theorem WellFormed.session_ne (wellFormed : registry.WellFormed)
    {others : List (String × List ActiveSubscription)} (among : others ⊆ registry.sessions)
    (absent : session ∉ Entries.keys others) {subscription : ActiveSubscription}
    (member : subscription ∈ others.flatMap Prod.snd) : subscription.session ≠ session := by
  obtain ⟨entry, is_other, held⟩ := List.mem_flatMap.1 member
  rw [wellFormed.owned entry (among is_other) subscription held]
  rintro rfl
  exact absent (List.mem_map_of_mem is_other)

/-- Subscribing replaces the subscription with the same key, or adds one. -/
theorem active_subscribe_perm (wellFormed : registry.WellFormed)
    (subscription : ActiveSubscription) :
    (registry.subscribe subscription).1.active.Perm
      (subscription :: registry.active.filter fun other => other.key != subscription.key) := by
  have own : (registry.ofSession subscription.session).filter
        (fun other => other.key != subscription.key) =
      (registry.ofSession subscription.session).filter
        fun other => other.filter != subscription.filter := by
    apply List.filter_congr
    intro other member
    rw [Bool.eq_iff_iff]
    simp [ActiveSubscription.key, wellFormed.session_eq member]
  have others : ((Entries.erase registry.sessions subscription.session).flatMap Prod.snd).filter
        (fun other => other.key != subscription.key) =
      (Entries.erase registry.sessions subscription.session).flatMap Prod.snd := by
    rw [List.filter_eq_self]
    intro other member
    have differs := wellFormed.session_ne (Entries.erase_sublist _ _).subset
      (Entries.not_mem_keys_erase wellFormed.nodup_keys _) member
    simp [ActiveSubscription.key, differs]
  have rest := (active_perm registry subscription.session).filter
    fun other => other.key != subscription.key
  rw [List.filter_append, own, others] at rest
  have written := (putSession_perm subscription.session
    (place subscription (registry.ofSession subscription.session)).1
    wellFormed.sorted).flatMap_right Prod.snd
  have placed := place_perm subscription (wellFormed.distinct_ofSession subscription.session)
  exact written.trans ((placed.append_right _).trans (rest.symm.cons _))

theorem wellFormed_subscribe (wellFormed : registry.WellFormed)
    (subscription : ActiveSubscription) :
    (registry.subscribe subscription).1.WellFormed := by
  have distinct := wellFormed.distinct_ofSession subscription.session
  have placed := place_perm subscription distinct
  refine ⟨keys_putSession_sorted wellFormed.sorted, ?_, ?_, ?_⟩
  · intro entry member
    rcases mem_putSession wellFormed.sorted member with rfl | before
    · intro nothing
      exact List.cons_ne_nil _ _ (List.perm_nil.1 (placed.symm.trans (.of_eq nothing)))
    · exact wellFormed.nonempty entry before
  · intro entry member other other_mem
    rcases mem_putSession wellFormed.sorted member with rfl | before
    · rcases List.mem_cons.1 (placed.mem_iff.1 other_mem) with rfl | kept
      · rfl
      · exact wellFormed.session_eq (List.mem_filter.1 kept).1
    · exact wellFormed.owned entry before other other_mem
  · intro entry member
    rcases mem_putSession wellFormed.sorted member with rfl | before
    · exact nodup_place subscription distinct
    · exact wellFormed.distinct entry before

/-- Whether unsubscribing with a filter, or without one, takes a subscription away. -/
def takes (session : String) (filter : Option String) (subscription : ActiveSubscription) : Bool :=
  subscription.session == session && filter.all fun wanted => subscription.filter == wanted

/-- What unsubscribing takes away among the subscriptions of the session. -/
theorem WellFormed.takes_eq (wellFormed : registry.WellFormed) (filter : Option String)
    {subscription : ActiveSubscription} (member : subscription ∈ registry.ofSession session) :
    takes session filter subscription =
      match filter with
      | none => true
      | some wanted => subscription.filter == wanted := by
  cases filter <;> simp [takes, wellFormed.session_eq member]

/-- The sessions when one of them holds other subscriptions, or none any more. -/
def setSession (session : String) (kept : List ActiveSubscription)
    (sessions : List (String × List ActiveSubscription)) :
    List (String × List ActiveSubscription) :=
  if kept.isEmpty then Entries.erase sessions session else putSession session kept sessions

theorem unsubscribe_eq (wellFormed : registry.WellFormed) (session : String)
    (filter : Option String) :
    registry.unsubscribe session filter =
      (⟨setSession session ((registry.ofSession session).filter fun subscription =>
          !takes session filter subscription) registry.sessions⟩,
        (registry.ofSession session).filter (takes session filter)) := by
  have gone : (registry.ofSession session).filter (takes session filter) =
      (registry.ofSession session).filter fun subscription =>
        match filter with
        | none => true
        | some wanted => subscription.filter == wanted :=
    List.filter_congr fun _ member => wellFormed.takes_eq filter member
  have kept : ((registry.ofSession session).filter fun subscription =>
        !takes session filter subscription) =
      (registry.ofSession session).filter fun subscription =>
        !match filter with
        | none => true
        | some wanted => subscription.filter == wanted :=
    List.filter_congr fun _ member => congrArg not (wellFormed.takes_eq filter member)
  rw [gone, kept]
  rfl

/-- A session that has an entry keeps its place, unless it holds nothing any more. -/
theorem setSession_of_split {before after : List (String × List ActiveSubscription)}
    {held : List ActiveSubscription} (kept : List ActiveSubscription)
    (sorted : (Entries.keys (before ++ (session, held) :: after)).Pairwise (· < ·))
    (absent : session ∉ Entries.keys before) :
    setSession session kept (before ++ (session, held) :: after) =
      if kept.isEmpty then before ++ after else before ++ (session, kept) :: after := by
  rw [setSession, Entries.erase_of_split absent, putSession_of_split sorted]

/-- An entry afterwards is one from before, or that of the session if it still holds something. -/
theorem mem_setSession {sessions : List (String × List ActiveSubscription)}
    {kept : List ActiveSubscription} (sorted : (Entries.keys sessions).Pairwise (· < ·))
    {entry : String × List ActiveSubscription}
    (member : entry ∈ setSession session kept sessions) :
    entry ∈ sessions ∨ entry = (session, kept) ∧ kept ≠ [] := by
  rw [setSession] at member
  split at member
  · exact Or.inl ((Entries.erase_sublist ..).subset member)
  · rename_i some_kept
    rcases mem_putSession sorted member with rfl | before
    · exact Or.inr ⟨rfl, fun nothing => some_kept (nothing ▸ rfl)⟩
    · exact Or.inl before

theorem keys_setSession_sorted {sessions : List (String × List ActiveSubscription)}
    {kept : List ActiveSubscription} (sorted : (Entries.keys sessions).Pairwise (· < ·)) :
    (Entries.keys (setSession session kept sessions)).Pairwise (· < ·) := by
  rw [setSession]
  split
  · exact sorted.sublist (Entries.keys_erase_sublist ..)
  · exact keys_putSession_sorted sorted

/-- What other entries hold is not taken away. -/
theorem WellFormed.spares (wellFormed : registry.WellFormed)
    {others : List (String × List ActiveSubscription)} (among : others ⊆ registry.sessions)
    (absent : session ∉ Entries.keys others) (filter : Option String) :
    (others.flatMap Prod.snd).filter (takes session filter) = [] ∧
      (others.flatMap Prod.snd).filter (fun subscription => !takes session filter subscription) =
        others.flatMap Prod.snd := by
  have spared : ∀ subscription ∈ others.flatMap Prod.snd,
      takes session filter subscription = false := by
    intro subscription member
    simp [takes, wellFormed.session_ne among absent member]
  constructor
  · rw [List.filter_eq_nil_iff]
    intro subscription member
    simp [spared subscription member]
  · rw [List.filter_eq_self]
    intro subscription member
    simp [spared subscription member]

/-- Unsubscribing takes away what is named and returns it; the others keep their order. -/
theorem active_unsubscribe (wellFormed : registry.WellFormed) (session : String)
    (filter : Option String) :
    (registry.unsubscribe session filter).1.active =
        registry.active.filter (fun subscription => !takes session filter subscription) ∧
      (registry.unsubscribe session filter).2 =
        registry.active.filter (takes session filter) := by
  rw [unsubscribe_eq wellFormed]
  rcases ofSession_cases registry session with ⟨absent, nothing⟩ | ⟨before, after, split, absent⟩
  · obtain ⟨none_taken, all_kept⟩ :=
      wellFormed.spares (List.Subset.refl registry.sessions) absent filter
    rw [← active] at none_taken all_kept
    rw [none_taken, all_kept, nothing]
    exact ⟨congrArg (List.flatMap Prod.snd) (Entries.erase_of_not_mem absent), rfl⟩
  · -- Only the entry of the session itself is touched: those before and after it are of others.
    have before_among : before ⊆ registry.sessions := by simp [split]
    have after_among : after ⊆ registry.sessions := by
      rw [split]
      exact fun entry member => List.mem_append_right _ (List.mem_cons_of_mem _ member)
    obtain ⟨before_not_taken, before_kept⟩ := wellFormed.spares before_among absent filter
    obtain ⟨after_not_taken, after_kept⟩ :=
      wellFormed.spares after_among (wellFormed.absent_after split) filter
    have all : registry.active = before.flatMap Prod.snd ++ (registry.ofSession session ++
        after.flatMap Prod.snd) := by
      rw [active, split, List.flatMap_append, List.flatMap_cons]
    constructor
    · rw [all, List.filter_append, List.filter_append, before_kept, after_kept, active]
      dsimp only
      rw [split, setSession_of_split _ (split ▸ wellFormed.sorted) absent]
      split
      · rename_i nothing_kept
        rw [List.isEmpty_iff.1 nothing_kept, List.nil_append, List.flatMap_append]
      · rw [List.flatMap_append, List.flatMap_cons]
    · rw [all, List.filter_append, List.filter_append, before_not_taken, after_not_taken,
        List.nil_append, List.append_nil]

theorem wellFormed_unsubscribe (wellFormed : registry.WellFormed) (session : String)
    (filter : Option String) : (registry.unsubscribe session filter).1.WellFormed := by
  rw [unsubscribe_eq wellFormed]
  generalize kept_eq : ((registry.ofSession session).filter fun subscription =>
    !takes session filter subscription) = kept
  have below : kept.Sublist (registry.ofSession session) := kept_eq ▸ List.filter_sublist
  refine ⟨keys_setSession_sorted wellFormed.sorted, ?_, ?_, ?_⟩
  · intro entry member
    rcases mem_setSession wellFormed.sorted member with before | ⟨rfl, some_kept⟩
    · exact wellFormed.nonempty entry before
    · exact some_kept
  · intro entry member subscription held
    rcases mem_setSession wellFormed.sorted member with before | ⟨rfl, _⟩
    · exact wellFormed.owned entry before subscription held
    · exact wellFormed.session_eq (below.subset held)
  · intro entry member
    rcases mem_setSession wellFormed.sorted member with before | ⟨rfl, _⟩
    · exact wellFormed.distinct entry before
    · exact (wellFormed.distinct_ofSession session).sublist (below.map _)

/-- No two subscriptions have one session and one filter. -/
theorem nodup_keys_active (wellFormed : registry.WellFormed) :
    (registry.active.map ActiveSubscription.key).Nodup := by
  rw [active, List.map_flatMap, List.nodup_flatMap]
  constructor
  · intro entry member
    have distinct := wellFormed.distinct entry member
    exact List.Nodup.of_map Prod.snd (by rwa [List.map_map])
  · refine (List.pairwise_map.1 wellFormed.nodup_keys).imp_of_mem ?_
    intro one other one_mem other_mem differs key in_one in_other
    obtain ⟨subscription, held, rfl⟩ := List.mem_map.1 in_one
    obtain ⟨same, also_held, same_key⟩ := List.mem_map.1 in_other
    apply differs
    rw [← wellFormed.owned one one_mem subscription held,
      ← wellFormed.owned other other_mem same also_held]
    exact (congrArg Prod.fst same_key).symm

end Registry

end VesselHub
