/-
Module: VesselHub.Proofs.Subscription.Ledger
Purpose: The registry is one ordered list of subscriptions, seen session by session. A subscription
  with a new key comes last, one with a known key takes the place of the other, and what is taken
  away leaves the rest as it was.
Main exports: Ledger, Registry.Shows, Registry.ofSession_subscribe, Registry.ofSession_unsubscribe,
  Registry.RefinesLedger, Registry.run_refinesLedger
-/
import VesselHub.Proofs.Subscription.Registry

namespace VesselHub

/-- Subscriptions in the order in which their keys came in, one for each key. -/
structure Ledger where
  entries : List ActiveSubscription
  distinct : (entries.map ActiveSubscription.key).Nodup

/-- A call on the registry that changes it. -/
inductive RegistryCall where
  | subscribe (subscription : ActiveSubscription)
  | unsubscribe (session : String) (filter : Option String)

namespace Ledger

variable {ledger : Ledger} {subscription old : ActiveSubscription}
  {before after : List ActiveSubscription}

def empty : Ledger := ⟨[], .nil⟩

/-- The keys in the order in which they came in. -/
def keys (ledger : Ledger) : List (String × String) :=
  ledger.entries.map ActiveSubscription.key

/-- The subscriptions of a session, in the order in which their keys came in. -/
def ofSession (ledger : Ledger) (session : String) : List ActiveSubscription :=
  ledger.entries.filter fun held => held.session == session

/-- The subscription in the place of the one with its key. -/
def replace (subscription held : ActiveSubscription) : ActiveSubscription :=
  if held.key = subscription.key then subscription else held

private theorem key_replace (subscription held : ActiveSubscription) :
    (replace subscription held).key = held.key := by
  rw [replace]
  split
  · rename_i same
    exact same.symm
  · rfl

/-- Writes a subscription in the place of the one with its key, or at the end. -/
def write (ledger : Ledger) (subscription : ActiveSubscription) : Ledger where
  entries :=
    if subscription.key ∈ ledger.keys then ledger.entries.map (replace subscription)
    else ledger.entries ++ [subscription]
  distinct := by
    split
    · have same_keys : ActiveSubscription.key ∘ replace subscription = ActiveSubscription.key :=
        funext (key_replace subscription)
      rw [List.map_map, same_keys]
      exact ledger.distinct
    · rename_i absent
      rw [List.map_append, List.nodup_append]
      refine ⟨ledger.distinct, List.nodup_singleton _, fun key member other other_mem same => ?_⟩
      rw [List.mem_singleton.1 other_mem] at same
      exact absent (same ▸ member)

/-- Takes subscriptions away; the others keep their order. -/
def without (ledger : Ledger) (isGone : ActiveSubscription → Bool) : Ledger where
  entries := ledger.entries.filter fun held => !isGone held
  distinct := ledger.distinct.sublist (List.filter_sublist.map _)

def perform (ledger : Ledger) : RegistryCall → Ledger
  | .subscribe subscription => ledger.write subscription
  | .unsubscribe session filter => ledger.without (Registry.takes session filter)

/-- The ledger after some calls. -/
def run (calls : List RegistryCall) : Ledger :=
  calls.foldl perform empty

theorem entries_write_of_absent (absent : subscription.key ∉ ledger.keys) :
    (ledger.write subscription).entries = ledger.entries ++ [subscription] :=
  if_neg absent

/-- A known key is that of an entry between others. -/
theorem exists_split_of_mem_keys {key : String × String} (present : key ∈ ledger.keys) :
    ∃ before old after, ledger.entries = before ++ old :: after ∧ old.key = key := by
  obtain ⟨old, member, same⟩ := List.mem_map.1 present
  obtain ⟨before, after, split⟩ := List.append_of_mem member
  exact ⟨before, old, after, split, same⟩

/-- No other entry has the key of one of them. -/
theorem key_ne_of_split (split : ledger.entries = before ++ old :: after)
    {other : ActiveSubscription} (member : other ∈ before ∨ other ∈ after) :
    other.key ≠ old.key := by
  have distinct := ledger.distinct
  rw [split, List.map_append, List.map_cons, List.nodup_append, List.nodup_cons] at distinct
  obtain ⟨-, ⟨absent_after, -⟩, apart⟩ := distinct
  rcases member with earlier | later
  · exact apart _ (List.mem_map_of_mem earlier) _ List.mem_cons_self
  · exact fun same => absent_after (same ▸ List.mem_map_of_mem later)

theorem entries_write_of_split (split : ledger.entries = before ++ old :: after)
    (same : old.key = subscription.key) :
    (ledger.write subscription).entries = before ++ subscription :: after := by
  have present : subscription.key ∈ ledger.keys := by
    rw [keys, split, ← same]
    simp
  have kept : ∀ others : List ActiveSubscription,
      (∀ other ∈ others, other.key ≠ old.key) → others.map (replace subscription) = others := by
    intro others differ
    refine (List.map_congr_left fun other member => ?_).trans (List.map_id others)
    exact if_neg (same ▸ differ other member)
  rw [write]
  simp only [if_pos present]
  rw [split, List.map_append, List.map_cons, replace, if_pos same,
    kept before fun _ member => key_ne_of_split split (.inl member),
    kept after fun _ member => key_ne_of_split split (.inr member)]

end Ledger

namespace Registry

variable {registry : Registry} {ledger : Ledger} {session : String}

def perform (registry : Registry) : RegistryCall → Registry
  | .subscribe subscription => (registry.subscribe subscription).1
  | .unsubscribe session filter => (registry.unsubscribe session filter).1

/-- The registry after some calls. -/
def run (calls : List RegistryCall) : Registry :=
  calls.foldl perform empty

/-! ### What each session holds after a call -/

section Sessions

variable {sessions : List (String × List ActiveSubscription)} {other : String}

theorem get?_putSession_self (session : String) (held : List ActiveSubscription)
    (sessions : List (String × List ActiveSubscription)) :
    Entries.get? (putSession session held sessions) session = some held := by
  induction sessions with
  | nil => simp [putSession, Entries.get?]
  | cons entry rest induction_step =>
      obtain ⟨present, old⟩ := entry
      rw [putSession]
      split
      · rename_i same
        simp [Entries.get?, same]
      · rename_i differs
        split
        · simp [Entries.get?]
        · rw [Entries.get?, if_neg differs, induction_step]

theorem get?_putSession_of_ne (differs : session ≠ other) (held : List ActiveSubscription)
    (sessions : List (String × List ActiveSubscription)) :
    Entries.get? (putSession session held sessions) other = Entries.get? sessions other := by
  induction sessions with
  | nil => simp [putSession, Entries.get?, differs]
  | cons entry rest induction_step =>
      obtain ⟨present, old⟩ := entry
      rw [putSession]
      split
      · rename_i same
        simp [Entries.get?, same, differs]
      · split
        · simp [Entries.get?, differs]
        · rw [Entries.get?, Entries.get?, induction_step]

theorem get?_setSession_of_ne (differs : session ≠ other) (kept : List ActiveSubscription)
    (sessions : List (String × List ActiveSubscription)) :
    Entries.get? (setSession session kept sessions) other = Entries.get? sessions other := by
  rw [setSession]
  split
  · exact Entries.get?_erase_of_ne sessions differs
  · exact get?_putSession_of_ne differs kept sessions

private theorem getD_get?_setSession_self (distinct : (Entries.keys sessions).Nodup)
    (kept : List ActiveSubscription) :
    (Entries.get? (setSession session kept sessions) session).getD [] = kept := by
  rw [setSession]
  split
  · rename_i nothing
    have gone := (Entries.get?_eq_none_iff _ _).2 (Entries.not_mem_keys_erase distinct session)
    rw [gone, List.isEmpty_iff.1 nothing]
    rfl
  · rw [get?_putSession_self]
    rfl

end Sessions

/-- Subscribing changes what one session holds. -/
theorem ofSession_subscribe (registry : Registry) (subscription : ActiveSubscription)
    (session : String) :
    (registry.subscribe subscription).1.ofSession session =
      if session = subscription.session then (place subscription (registry.ofSession session)).1
      else registry.ofSession session := by
  split
  · rename_i same
    rw [same, ofSession, subscribe, get?_putSession_self]
    rfl
  · rename_i differs
    rw [ofSession, subscribe, get?_putSession_of_ne (Ne.symm differs)]
    rfl

/-- Unsubscribing takes what is named away from each session. -/
theorem ofSession_unsubscribe (wellFormed : registry.WellFormed) (named : String)
    (filter : Option String) (session : String) :
    (registry.unsubscribe named filter).1.ofSession session =
      (registry.ofSession session).filter fun held => !takes named filter held := by
  rw [unsubscribe_eq wellFormed]
  by_cases same : named = session
  · rw [same, ofSession, getD_get?_setSession_self wellFormed.nodup_keys]
  · -- What the other sessions hold is not named.
    have spared : ∀ held ∈ registry.ofSession session, (!takes named filter held) = true := by
      intro held member
      simp [takes, wellFormed.session_eq member, Ne.symm same]
    rw [List.filter_eq_self.2 spared, ofSession, get?_setSession_of_ne same]
    rfl

/-! ### Placing a subscription -/

private theorem place_of_absent {subscription : ActiveSubscription} {held : List ActiveSubscription}
    (absent : ∀ other ∈ held, other.filter ≠ subscription.filter) :
    place subscription held = (held ++ [subscription], .added) := by
  induction held with
  | nil => rfl
  | cons first held induction_step =>
      rw [List.forall_mem_cons] at absent
      rw [place, if_neg absent.1, induction_step absent.2]
      rfl

private theorem place_of_split {subscription old : ActiveSubscription}
    {before : List ActiveSubscription} (same : old.filter = subscription.filter)
    (absent : ∀ other ∈ before, other.filter ≠ subscription.filter)
    (after : List ActiveSubscription) :
    place subscription (before ++ old :: after) =
      (before ++ subscription :: after, .replaced old) := by
  induction before with
  | nil => rw [List.nil_append, place, if_pos same, List.nil_append]
  | cons first before induction_step =>
      rw [List.forall_mem_cons] at absent
      rw [List.cons_append, place, if_neg absent.1, induction_step absent.2]
      rfl

/-! ### The registry and the ledger -/

/-- The registry holds the subscriptions of the ledger, session by session. -/
structure Shows (registry : Registry) (ledger : Ledger) : Prop where
  wellFormed : registry.WellFormed
  ofSession_eq : ∀ session, registry.ofSession session = ledger.ofSession session

namespace Shows

variable {subscription old : ActiveSubscription} {before after : List ActiveSubscription}

theorem empty : Registry.empty.Shows Ledger.empty where
  wellFormed := wellFormed_empty
  ofSession_eq _ := rfl

theorem mem_active_iff (shown : registry.Shows ledger) (held : ActiveSubscription) :
    held ∈ registry.active ↔ held ∈ ledger.entries := by
  have in_session : held ∈ registry.ofSession held.session ↔ held ∈ ledger.entries := by
    simp [shown.ofSession_eq, Ledger.ofSession]
  rw [← in_session, (active_perm registry held.session).mem_iff, List.mem_append,
    or_iff_left fun elsewhere => ?_]
  exact shown.wellFormed.session_ne (Entries.erase_sublist _ _).subset
    (Entries.not_mem_keys_erase shown.wellFormed.nodup_keys _) elsewhere rfl

/-- The registry and the ledger hold the same subscriptions. -/
theorem active_perm (shown : registry.Shows ledger) : registry.active.Perm ledger.entries :=
  (List.perm_ext_iff_of_nodup (nodup_keys_active shown.wellFormed).of_map
    ledger.distinct.of_map).2 shown.mem_active_iff

theorem mem_sessionNames_iff (shown : registry.Shows ledger) (session : String) :
    session ∈ registry.sessionNames ↔ ledger.ofSession session ≠ [] := by
  rw [sessionNames, ← shown.ofSession_eq]
  rcases ofSession_cases registry session with ⟨absent, nothing⟩ | ⟨before, after, split, -⟩
  · simp [absent, nothing]
  · have member : (session, registry.ofSession session) ∈ registry.sessions := by simp [split]
    exact iff_of_true (List.mem_map_of_mem member) (shown.wellFormed.nonempty _ member)

/-- All subscriptions are those of the sessions, one session after the other. -/
theorem active_eq (shown : registry.Shows ledger) :
    registry.active = registry.sessionNames.flatMap ledger.ofSession := by
  rw [active, sessionNames, Entries.keys, List.flatMap_map]
  refine List.flatMap_congr fun entry member => ?_
  have found := Entries.get?_of_mem shown.wellFormed.nodup_keys member
  rw [← shown.ofSession_eq, ofSession, found]
  rfl

/-- Where the key is known, the new subscription takes the place of the old one. -/
theorem replace (shown : registry.Shows ledger)
    (split : ledger.entries = before ++ old :: after) (same : old.key = subscription.key) :
    (registry.subscribe subscription).1.Shows (ledger.write subscription) ∧
      (registry.subscribe subscription).2 = .replaced old := by
  obtain ⟨same_session, same_filter⟩ := Prod.mk.inj same
  have placed : place subscription (registry.ofSession subscription.session) =
      (before.filter (fun held => held.session == subscription.session) ++
        subscription :: after.filter fun held => held.session == subscription.session,
        .replaced old) := by
    rw [shown.ofSession_eq, Ledger.ofSession, split, List.filter_append, List.filter_cons,
      if_pos (beq_iff_eq.2 same_session)]
    refine place_of_split same_filter (fun other member same_filter => ?_) _
    obtain ⟨earlier, in_session⟩ := List.mem_filter.1 member
    exact Ledger.key_ne_of_split split (.inl earlier)
      ((Prod.ext (beq_iff_eq.1 in_session) same_filter).trans same.symm)
  refine ⟨⟨wellFormed_subscribe shown.wellFormed subscription, fun session => ?_⟩,
    congrArg Prod.snd placed⟩
  rw [ofSession_subscribe, Ledger.ofSession, Ledger.entries_write_of_split split same,
    List.filter_append, List.filter_cons]
  split
  · rename_i here
    rw [here, placed, if_pos (beq_self_eq_true _)]
  · rename_i elsewhere
    have not_here : ¬ (subscription.session == session) = true := by
      simpa using Ne.symm elsewhere
    rw [shown.ofSession_eq, Ledger.ofSession, split, List.filter_append, List.filter_cons,
      same_session, if_neg not_here, if_neg not_here]

/-- A subscription with a new key comes last. -/
theorem append (shown : registry.Shows ledger) (absent : subscription.key ∉ ledger.keys) :
    (registry.subscribe subscription).1.Shows (ledger.write subscription) ∧
      (registry.subscribe subscription).2 = .added := by
  have placed : place subscription (registry.ofSession subscription.session) =
      (ledger.ofSession subscription.session ++ [subscription], .added) := by
    rw [shown.ofSession_eq]
    refine place_of_absent fun other member same_filter => absent ?_
    obtain ⟨held, in_session⟩ := List.mem_filter.1 member
    exact List.mem_map.2 ⟨other, held, Prod.ext (beq_iff_eq.1 in_session) same_filter⟩
  refine ⟨⟨wellFormed_subscribe shown.wellFormed subscription, fun session => ?_⟩,
    congrArg Prod.snd placed⟩
  rw [ofSession_subscribe, Ledger.ofSession, Ledger.entries_write_of_absent absent,
    List.filter_append, List.filter_singleton]
  split
  · rename_i here
    rw [here, placed, beq_self_eq_true]
    rfl
  · rename_i elsewhere
    rw [shown.ofSession_eq, beq_eq_false_iff_ne.2 (Ne.symm elsewhere)]
    exact (List.append_nil _).symm

theorem subscribe (shown : registry.Shows ledger) (subscription : ActiveSubscription) :
    (registry.subscribe subscription).1.Shows (ledger.write subscription) := by
  by_cases present : subscription.key ∈ ledger.keys
  · obtain ⟨before, old, after, split, same⟩ := Ledger.exists_split_of_mem_keys present
    exact (shown.replace split same).1
  · exact (shown.append present).1

theorem unsubscribe (shown : registry.Shows ledger) (named : String) (filter : Option String) :
    (registry.unsubscribe named filter).1.Shows (ledger.without (takes named filter)) where
  wellFormed := wellFormed_unsubscribe shown.wellFormed named filter
  ofSession_eq session := by
    rw [ofSession_unsubscribe shown.wellFormed, shown.ofSession_eq, Ledger.ofSession,
      Ledger.ofSession, Ledger.without, List.filter_comm]

/-- What unsubscribing returns is taken from the ledger, in its order. -/
theorem unsubscribed (shown : registry.Shows ledger) (named : String) (filter : Option String) :
    (registry.unsubscribe named filter).2 = ledger.entries.filter (takes named filter) := by
  rw [unsubscribe_eq shown.wellFormed]
  dsimp only
  rw [shown.ofSession_eq, Ledger.ofSession, List.filter_filter]
  refine List.filter_congr fun held _ => ?_
  rw [takes]
  cases held.session == named <;> simp

/-- One call keeps the registry and the ledger in step. -/
theorem perform (shown : registry.Shows ledger) (call : RegistryCall) :
    (registry.perform call).Shows (ledger.perform call) := by
  cases call with
  | subscribe subscription => exact shown.subscribe subscription
  | unsubscribe named filter => exact shown.unsubscribe named filter

/-- Calls keep the registry and the ledger in step. -/
theorem foldl_perform (shown : registry.Shows ledger) (calls : List RegistryCall) :
    (calls.foldl Registry.perform registry).Shows (calls.foldl Ledger.perform ledger) := by
  induction calls generalizing registry ledger with
  | nil => exact shown
  | cons call calls induction_step => exact induction_step (shown.perform call)

end Shows

/-- The registry is an ordered map from session and filter, of which it shows each session apart. -/
structure RefinesLedger (registry : Registry) (ledger : Ledger) : Prop where
  sorted : registry.sessionNames.Pairwise (· < ·)
  nonempty : ∀ entry ∈ registry.sessions, entry.2 ≠ []
  nodup_keys : (registry.active.map ActiveSubscription.key).Nodup
  ofSession_eq : ∀ session, registry.ofSession session = ledger.ofSession session
  mem_sessionNames_iff : ∀ session,
    session ∈ registry.sessionNames ↔ ledger.ofSession session ≠ []
  active_eq : registry.active = registry.sessionNames.flatMap ledger.ofSession
  size_eq : registry.size = ledger.keys.length
  /-- Subscribing replaces exactly where the key is known. -/
  replaced_iff : ∀ subscription,
    (∃ old, (registry.subscribe subscription).2 = .replaced old) ↔ subscription.key ∈ ledger.keys
  /-- The new subscription takes the place of the one that is returned. -/
  replaced : ∀ subscription before old after, ledger.entries = before ++ old :: after →
    old.key = subscription.key →
      (registry.subscribe subscription).2 = .replaced old ∧
        (ledger.write subscription).entries = before ++ subscription :: after
  /-- A subscription with a new key comes last. -/
  added : ∀ subscription, subscription.key ∉ ledger.keys →
    (registry.subscribe subscription).2 = .added ∧
      (ledger.write subscription).entries = ledger.entries ++ [subscription]
  subscribe_shows : ∀ subscription,
    (registry.subscribe subscription).1.Shows (ledger.write subscription)
  /-- Unsubscribing returns what it takes away, in order. -/
  removed : ∀ session filter,
    (registry.unsubscribe session filter).2 = ledger.entries.filter (takes session filter)
  /-- All other subscriptions stay, in their order. -/
  remaining : ∀ session filter, (registry.unsubscribe session filter).1.active =
    registry.active.filter fun held => !takes session filter held
  unsubscribe_shows : ∀ session filter,
    (registry.unsubscribe session filter).1.Shows (ledger.without (takes session filter))

theorem Shows.refinesLedger (shown : registry.Shows ledger) : registry.RefinesLedger ledger where
  sorted := shown.wellFormed.sorted
  nonempty := shown.wellFormed.nonempty
  nodup_keys := nodup_keys_active shown.wellFormed
  ofSession_eq := shown.ofSession_eq
  mem_sessionNames_iff := shown.mem_sessionNames_iff
  active_eq := shown.active_eq
  size_eq := by rw [size, shown.active_perm.length_eq, Ledger.keys, List.length_map]
  replaced_iff subscription := by
    by_cases present : subscription.key ∈ ledger.keys
    · obtain ⟨before, old, after, split, same⟩ := Ledger.exists_split_of_mem_keys present
      exact iff_of_true ⟨old, (shown.replace split same).2⟩ present
    · refine iff_of_false (fun ⟨old, outcome⟩ => ?_) present
      rw [(shown.append present).2] at outcome
      cases outcome
  replaced subscription before old after split same :=
    ⟨(shown.replace split same).2, Ledger.entries_write_of_split split same⟩
  added subscription absent :=
    ⟨(shown.append absent).2, Ledger.entries_write_of_absent absent⟩
  subscribe_shows := shown.subscribe
  removed := shown.unsubscribed
  remaining session filter := (active_unsubscribe shown.wellFormed session filter).1
  unsubscribe_shows := shown.unsubscribe

/-- After any calls the registry holds at most one subscription for each session and filter, and no
session without any. What it holds, shows and answers is that of a ledger after the same calls. -/
theorem run_refinesLedger (calls : List RegistryCall) :
    (run calls).RefinesLedger (Ledger.run calls) :=
  (Shows.empty.foldl_perform calls).refinesLedger

end Registry

end VesselHub
