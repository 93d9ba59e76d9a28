/-
Module: VesselHub.Proofs.Session.History
Purpose: Queues neither lose, repeat nor reorder what they accepted, and what one registration
  accepted reaches no other. For every registration, what was received and what waits is what was
  accepted, in order, whatever happens to the others.
Main exports: SessionEvent, SessionHistory, Sessions.conserves, SessionHistory.Faithful,
  SessionHistory.ofEvents_faithful
-/
import VesselHub.Proofs.Session.Delivery

namespace VesselHub

/-- What happens to the sessions. Registrations are named by their numbers. -/
inductive SessionEvent where
  | register (session : String)
  | unregister (session : String)
  | send (session text : String)
  | deliver (session : String) (payload : Json)
  | broadcast (order : VisitingOrder) (payload : Json)
  | receive (number : Nat) (limit : Option Nat)
  /-- The receiver goes away, and what waits with it. -/
  | abandon (number : Nat)

namespace Sessions

variable {sessions : Sessions} {number : Nat}

def perform (sessions : Sessions) : SessionEvent → Sessions
  | .register session => (sessions.register session).state
  | .unregister session => (sessions.unregister session).state
  | .send session text => (sessions.send session text).1
  | .deliver session payload => (sessions.deliver payload (.session session)).state
  | .broadcast order payload => (sessions.broadcastIn order payload.compact).1
  | .receive number limit => (sessions.receive number limit).1
  | .abandon number => sessions.abandon number

/-- The texts that an event has accepted for a registration: one that was sent to its session and
taken, or that of a broadcast which it accepts. -/
def acceptedBy (sessions : Sessions) (number : Nat) : SessionEvent → List String
  | .send session text =>
      if Entries.get? sessions.current session = some number ∧
          (sessions.send session text).2.isOk then [text] else []
  | .deliver session payload =>
      if Entries.get? sessions.current session = some number ∧
          (sessions.deliver payload (.session session)).answer.isOk then [payload.compact] else []
  | .broadcast _ payload => if sessions.accepts number then [payload.compact] else []
  | _ => []

/-- The texts that the receiver of a registration gets by an event. -/
def receivedBy (sessions : Sessions) (number : Nat) : SessionEvent → List String
  | .receive other limit => if other = number then (sessions.receive other limit).2.texts else []
  | _ => []

/-- The texts that are lost with the receiver of a registration. -/
def lostBy (sessions : Sessions) (number : Nat) : SessionEvent → List String
  | .abandon other => if other = number then sessions.waitingAt number else []
  | _ => []

/-- The receiver of a registration went away, and nothing waits there. -/
def IsDeserted (sessions : Sessions) (number : Nat) : Prop :=
  sessions.mailboxes[number]? = some ⟨[], false⟩

end Sessions

/-- The sessions, and for each registration the texts that were accepted, received, and lost with
the receiver, in order. -/
structure SessionHistory where
  sessions : Sessions
  accepted : Nat → List String
  received : Nat → List String
  lost : Nat → List String

namespace SessionHistory

def start (capacity : Nat) : SessionHistory where
  sessions := .ofCapacity capacity
  accepted _ := []
  received _ := []
  lost _ := []

def record (history : SessionHistory) (event : SessionEvent) : SessionHistory where
  sessions := history.sessions.perform event
  accepted number := history.accepted number ++ history.sessions.acceptedBy number event
  received number := history.received number ++ history.sessions.receivedBy number event
  lost number := history.lost number ++ history.sessions.lostBy number event

/-- The history of some events. -/
def ofEvents (capacity : Nat) (events : List SessionEvent) : SessionHistory :=
  events.foldl record (start capacity)

end SessionHistory

namespace Sessions

variable {sessions : Sessions} {number : Nat}

/-! ### What waits -/

theorem waitingAt_appendTo (text : String) {among : Nat → Bool}
    (accepted : ∀ number, among number = true → sessions.accepts number = true) (number : Nat) :
    (sessions.appendTo text among).waitingAt number =
      sessions.waitingAt number ++ if among number then [text] else [] := by
  rw [waitingAt, waitingAt, mailbox?_appendTo]
  cases reached : among number with
  | false => simp
  | true =>
      obtain ⟨mailbox, held, -⟩ := exists_mailbox_of_accepts (accepted number reached)
      simp [held, Mailbox.append]

theorem waitingAt_register (sessions : Sessions) (session : String) (number : Nat) :
    (sessions.register session).state.waitingAt number = sessions.waitingAt number := by
  simp only [waitingAt, register, List.getElem?_append]
  split
  · rfl
  · rename_i beyond
    rw [List.getElem?_eq_none (Nat.le_of_not_lt beyond)]
    cases number - sessions.mailboxes.length <;> rfl

theorem waitingAt_unregister (sessions : Sessions) (session : String) (number : Nat) :
    (sessions.unregister session).state.waitingAt number = sessions.waitingAt number := by
  rw [unregister]
  split <;> rfl

theorem waitingAt_send (sessions : Sessions) (session text : String) (number : Nat) :
    (sessions.send session text).1.waitingAt number = sessions.waitingAt number ++
      if Entries.get? sessions.current session = some number ∧
        (sessions.send session text).2.isOk then [text] else [] := by
  rcases accepts_or_not sessions session with ⟨own, current, accepted⟩ | refused
  · rw [send_of_accepts current accepted, waitingAt_appendTo text, current]
    · by_cases same : number = own
      · simp [same, Except.isOk, Except.toBool]
      · simp [same, Ne.symm same]
    · intro other same
      rwa [eq_of_beq same]
  · obtain ⟨complaint, sent⟩ := send_of_not_accepts refused text
    simp [sent, Except.isOk, Except.toBool]

/-- What is received stood first. -/
theorem texts_receive (sessions : Sessions) (number : Nat) (limit : Option Nat) :
    (sessions.receive number limit).2.texts ++
      (sessions.receive number limit).1.waitingAt number = sessions.waitingAt number := by
  rw [receive]
  cases held : sessions.mailboxes[number]? with
  | none => simp [waitingAt, held]
  | some mailbox =>
      obtain ⟨bound, mailbox_eq⟩ := List.getElem?_eq_some_iff.1 held
      simp [waitingAt, bound, mailbox_eq]

theorem waitingAt_receive_of_ne {other : Nat} (differs : other ≠ number) (limit : Option Nat) :
    (sessions.receive other limit).1.waitingAt number = sessions.waitingAt number := by
  rw [receive]
  split
  · rfl
  · simp [waitingAt, differs]

theorem waitingAt_abandon (sessions : Sessions) (other number : Nat) :
    (sessions.abandon other).waitingAt number =
      if other = number then [] else sessions.waitingAt number := by
  rw [waitingAt, abandon, List.getElem?_modify]
  split
  · cases sessions.mailboxes[number]? <;> rfl
  · rw [waitingAt]
    cases sessions.mailboxes[number]? <;> rfl

/-- Of one registration, what an event takes out and what it leaves is what waited and what the
event has accepted. -/
theorem conserves (sound : sessions.Sound) (number : Nat) (event : SessionEvent) :
    sessions.receivedBy number event ++ sessions.lostBy number event ++
      (sessions.perform event).waitingAt number =
        sessions.waitingAt number ++ sessions.acceptedBy number event := by
  cases event with
  | register session =>
      exact (sessions.waitingAt_register session number).trans (List.append_nil _).symm
  | unregister session =>
      exact (sessions.waitingAt_unregister session number).trans (List.append_nil _).symm
  | send session text => exact sessions.waitingAt_send session text number
  | deliver session payload => exact sessions.waitingAt_send session payload.compact number
  | broadcast order payload =>
      rw [perform, sound.broadcastIn_eq]
      exact waitingAt_appendTo payload.compact (fun _ accepted => accepted) number
  | receive other limit =>
      simp only [receivedBy, lostBy, acceptedBy, perform, List.append_nil]
      split
      · rename_i same
        rw [same, texts_receive]
      · rename_i differs
        exact waitingAt_receive_of_ne differs limit
  | abandon other =>
      simp only [receivedBy, lostBy, acceptedBy, perform, waitingAt_abandon, List.append_nil,
        List.nil_append]
      split
      · rw [List.append_nil]
      · rfl

/-! ### Sessions stay sound -/

private theorem get?_register (sessions : Sessions) (session other : String) :
    Entries.get? (sessions.register session).state.current other =
      if session = other then some sessions.mailboxes.length
      else Entries.get? sessions.current other := by
  split
  · rename_i same
    rw [← same]
    exact Entries.get?_insert_self ..
  · rename_i differs
    exact Entries.get?_insert_of_ne _ _ differs

namespace Sound

theorem ofCapacity (capacity : Nat) : (Sessions.ofCapacity capacity).Sound where
  nodup_keys := .nil
  injective := nofun
  registered := nofun
  fits := nofun
  deserted := nofun

/-- The numbers of registrations are used once. -/
theorem ne_next (sound : sessions.Sound) {session : String}
    (current : Entries.get? sessions.current session = some number) :
    number ≠ sessions.mailboxes.length :=
  Nat.ne_of_lt (sound.registered current)

theorem register (sound : sessions.Sound) (session : String) :
    (sessions.register session).state.Sound where
  nodup_keys := nodup_keys_register sound.nodup_keys session
  injective {one other number} first second := by
    rw [get?_register] at first second
    split at first <;> split at second
    · rename_i is_one is_other
      exact is_one.symm.trans is_other
    · rw [← Option.some.inj first] at second
      exact absurd rfl (sound.ne_next second)
    · rw [← Option.some.inj second] at first
      exact absurd rfl (sound.ne_next first)
    · exact sound.injective first second
  registered {other number} current := by
    rw [get?_register] at current
    rw [Sessions.register, List.length_append, List.length_singleton]
    split at current
    · rw [← Option.some.inj current]
      exact Nat.lt_succ_self _
    · exact Nat.lt_succ_of_lt (sound.registered current)
  fits mailbox member := by
    rcases List.mem_append.1 member with before | new
    · exact sound.fits mailbox before
    · rw [List.mem_singleton.1 new]
      exact Nat.zero_le _
  deserted mailbox member closed := by
    rcases List.mem_append.1 member with before | new
    · exact sound.deserted mailbox before closed
    · rw [List.mem_singleton.1 new]
      rfl

theorem unregister (sound : sessions.Sound) (session : String) :
    (sessions.unregister session).state.Sound := by
  have kept : ∀ {other number},
      Entries.get? (Entries.erase sessions.current session) other = some number →
        Entries.get? sessions.current other = some number := by
    intro other number current
    by_cases same : session = other
    · have gone := (Entries.get?_eq_none_iff _ _).2
        (Entries.not_mem_keys_erase sound.nodup_keys session)
      rw [← same, gone] at current
      cases current
    · rwa [Entries.get?_erase_of_ne _ same] at current
  rw [Sessions.unregister]
  split
  · exact {
      nodup_keys := sound.nodup_keys.sublist (Entries.keys_erase_sublist ..)
      injective := fun first second => sound.injective (kept first) (kept second)
      registered := fun current => sound.registered (kept current)
      fits := sound.fits
      deserted := sound.deserted }
  · exact sound

/-- It makes no difference to the names which mailboxes there are. -/
theorem change (sound : sessions.Sound) {mailboxes : List Mailbox}
    (length_eq : mailboxes.length = sessions.mailboxes.length)
    (fits : ∀ mailbox ∈ mailboxes, mailbox.waiting.length ≤ sessions.capacity)
    (deserted : ∀ mailbox ∈ mailboxes, mailbox.isOpen = false → mailbox.waiting = []) :
    ({ sessions with mailboxes } : Sessions).Sound where
  nodup_keys := sound.nodup_keys
  injective := sound.injective
  registered current := length_eq ▸ sound.registered current
  fits := fits
  deserted := deserted

theorem send (sound : sessions.Sound) (session text : String) :
    (sessions.send session text).1.Sound := by
  rcases accepts_or_not sessions session with ⟨number, current, accepted⟩ | refused
  · rw [send_of_accepts current accepted]
    refine sound.appendTo fun other same => ?_
    rwa [eq_of_beq same]
  · obtain ⟨complaint, sent⟩ := send_of_not_accepts refused text
    rwa [sent]

theorem receive (sound : sessions.Sound) (number : Nat) (limit : Option Nat) :
    (sessions.receive number limit).1.Sound := by
  rw [Sessions.receive]
  split
  · exact sound
  · rename_i mailbox held
    have member := List.mem_of_getElem? held
    refine sound.change List.length_set (fun other other_mem => ?_) fun other other_mem closed => ?_
    · rcases List.mem_or_eq_of_mem_set other_mem with before | rfl
      · exact sound.fits other before
      · exact Nat.le_trans (List.drop_sublist ..).length_le (sound.fits mailbox member)
    · rcases List.mem_or_eq_of_mem_set other_mem with before | rfl
      · exact sound.deserted other before closed
      · dsimp only at closed ⊢
        rw [sound.deserted mailbox member closed, List.drop_nil]

theorem abandon (sound : sessions.Sound) (number : Nat) : (sessions.abandon number).Sound := by
  have cases_of_mem : ∀ mailbox ∈ sessions.mailboxes.modify number Mailbox.abandon,
      mailbox ∈ sessions.mailboxes ∨ mailbox = ⟨[], false⟩ := by
    intro mailbox member
    obtain ⟨index, found⟩ := List.mem_iff_getElem?.1 member
    rw [List.getElem?_modify] at found
    obtain ⟨before, before_eq, changed⟩ := Option.map_eq_some_iff.1 found
    split at changed
    · exact .inr changed.symm
    · exact .inl (changed ▸ List.mem_of_getElem? before_eq)
  refine sound.change (List.length_modify ..) (fun mailbox member => ?_)
    fun mailbox member closed => ?_
  · rcases cases_of_mem mailbox member with before | rfl
    · exact sound.fits mailbox before
    · exact Nat.zero_le _
  · rcases cases_of_mem mailbox member with before | rfl
    · exact sound.deserted mailbox before closed
    · rfl

theorem perform (sound : sessions.Sound) (event : SessionEvent) :
    (sessions.perform event).Sound := by
  cases event with
  | register session => exact sound.register session
  | unregister session => exact sound.unregister session
  | send session text => exact sound.send session text
  | deliver session payload => exact sound.send session payload.compact
  | broadcast order payload =>
      rw [Sessions.perform, sound.broadcastIn_eq]
      exact sound.appendTo fun _ accepted => accepted
  | receive number limit => exact sound.receive number limit
  | abandon number => exact sound.abandon number

end Sound

/-! ### Receivers that went away -/

namespace IsDeserted

theorem waitingAt_eq (deserted : sessions.IsDeserted number) : sessions.waitingAt number = [] := by
  rw [waitingAt, deserted]
  rfl

theorem accepts_eq (deserted : sessions.IsDeserted number) : sessions.accepts number = false := by
  rw [accepts, deserted]
  exact Bool.and_false _

theorem appendTo (deserted : sessions.IsDeserted number) (text : String) {among : Nat → Bool}
    (accepted : ∀ number, among number = true → sessions.accepts number = true) :
    (sessions.appendTo text among).IsDeserted number := by
  have spared : among number = false := Bool.eq_false_iff.2 fun reached => by
    have accepts := accepted number reached
    rw [deserted.accepts_eq] at accepts
    cases accepts
  rw [IsDeserted, mailbox?_appendTo, deserted, spared]
  rfl

theorem send (deserted : sessions.IsDeserted number) (session text : String) :
    (sessions.send session text).1.IsDeserted number := by
  rcases accepts_or_not sessions session with ⟨own, current, accepted⟩ | refused
  · rw [send_of_accepts current accepted]
    refine deserted.appendTo text fun other same => ?_
    rwa [eq_of_beq same]
  · obtain ⟨complaint, sent⟩ := send_of_not_accepts refused text
    rwa [sent]

/-- Nobody comes back to a queue that was left. -/
theorem perform (deserted : sessions.IsDeserted number) (sound : sessions.Sound)
    (event : SessionEvent) : (sessions.perform event).IsDeserted number := by
  have bound := (List.getElem?_eq_some_iff.1 deserted).1
  cases event with
  | register session =>
      exact (List.getElem?_append_left bound).trans deserted
  | unregister session =>
      rw [Sessions.perform, unregister]
      split <;> exact deserted
  | send session text => exact deserted.send session text
  | deliver session payload => exact deserted.send session payload.compact
  | broadcast order payload =>
      rw [Sessions.perform, sound.broadcastIn_eq]
      exact deserted.appendTo payload.compact fun _ accepted => accepted
  | receive other limit =>
      by_cases same : other = number
      · subst same
        rw [Sessions.perform, receive, deserted]
        simp [IsDeserted, bound]
      · rw [Sessions.perform, receive]
        split
        · exact deserted
        · exact (List.getElem?_set_ne same).trans deserted
  | abandon other =>
      rw [IsDeserted, Sessions.perform, abandon, List.getElem?_modify, deserted]
      split <;> rfl

end IsDeserted

/-- With a receiver texts are lost only if it was there. -/
private theorem isDeserted_of_lostBy {event : SessionEvent}
    (lost : sessions.lostBy number event ≠ []) : (sessions.perform event).IsDeserted number := by
  cases event with
  | abandon other =>
      rw [lostBy] at lost
      split at lost
      · rename_i same
        subst same
        rw [waitingAt] at lost
        cases held : sessions.mailboxes[other]? with
        | none => simp [held] at lost
        | some mailbox =>
            rw [IsDeserted, perform, abandon, List.getElem?_modify, held]
            simp [Mailbox.abandon]
      · exact absurd rfl lost
  | _ => exact absurd rfl lost

/-- Where no text is accepted, no event has one accepted. -/
private theorem acceptedBy_of_not_accepts (refused : sessions.accepts number = false)
    (event : SessionEvent) : sessions.acceptedBy number event = [] := by
  have not_taken : ∀ session text, ¬ (Entries.get? sessions.current session = some number ∧
      (sessions.send session text).2.isOk) := by
    rintro session text ⟨current, taken⟩
    obtain ⟨complaint, sent⟩ := send_of_not_accepts (fun other same => by
      rw [current] at same
      cases same
      exact refused) text
    rw [sent] at taken
    cases taken
  cases event with
  | send session text => exact if_neg (not_taken session text)
  | deliver session payload => exact if_neg (not_taken session payload.compact)
  | broadcast order payload =>
      rw [acceptedBy, refused]
      rfl
  | _ => rfl

private theorem accepts_of_unregistered (beyond : sessions.mailboxes.length ≤ number) :
    sessions.accepts number = false := by
  rw [accepts, List.getElem?_eq_none beyond]
  exact Bool.and_false _

/-- Registrations are never given up, and the room for each stays the same. -/
theorem grows_perform (sound : sessions.Sound) (event : SessionEvent) :
    sessions.mailboxes.length ≤ (sessions.perform event).mailboxes.length ∧
      (sessions.perform event).capacity = sessions.capacity := by
  have send : ∀ session text,
      sessions.mailboxes.length ≤ (sessions.send session text).1.mailboxes.length ∧
        (sessions.send session text).1.capacity = sessions.capacity := by
    intro session text
    rcases accepts_or_not sessions session with ⟨own, current, accepted⟩ | refused
    · rw [send_of_accepts current accepted]
      exact ⟨Nat.le_of_eq List.length_mapIdx.symm, rfl⟩
    · obtain ⟨complaint, sent⟩ := send_of_not_accepts refused text
      rw [sent]
      exact ⟨Nat.le_refl _, rfl⟩
  cases event with
  | register session => exact ⟨by simp [perform, register], rfl⟩
  | unregister session =>
      rw [perform, unregister]
      split <;> exact ⟨Nat.le_refl _, rfl⟩
  | send session text => exact send session text
  | deliver session payload => exact send session payload.compact
  | broadcast order payload =>
      rw [perform, sound.broadcastIn_eq]
      exact ⟨Nat.le_of_eq List.length_mapIdx.symm, rfl⟩
  | receive other limit =>
      rw [perform, receive]
      split
      · exact ⟨Nat.le_refl _, rfl⟩
      · exact ⟨Nat.le_of_eq List.length_set.symm, rfl⟩
  | abandon other => exact ⟨Nat.le_of_eq (List.length_modify ..).symm, rfl⟩

theorem length_waitingAt_le (sound : sessions.Sound) (number : Nat) :
    (sessions.waitingAt number).length ≤ sessions.capacity := by
  rw [waitingAt]
  cases held : sessions.mailboxes[number]? with
  | none => exact Nat.zero_le _
  | some mailbox => exact sound.fits mailbox (List.mem_of_getElem? held)

/-- A text is taken exactly if it is appended, once, to the queue of the session. -/
theorem send_isOk_iff_appended (sessions : Sessions) (session text : String) :
    (sessions.send session text).2 = .ok () ↔
      ∃ number, Entries.get? sessions.current session = some number ∧
        number < sessions.mailboxes.length ∧
        (sessions.send session text).1 = sessions.appendTo text (· == number) := by
  rcases accepts_or_not sessions session with ⟨number, current, accepted⟩ | refused
  · obtain ⟨mailbox, held, -⟩ := exists_mailbox_of_accepts accepted
    rw [send_of_accepts current accepted]
    exact iff_of_true rfl ⟨number, current, (List.getElem?_eq_some_iff.1 held).1, rfl⟩
  · obtain ⟨complaint, sent⟩ := send_of_not_accepts refused text
    rw [sent]
    refine iff_of_false nofun fun ⟨number, _, bound, same⟩ => ?_
    -- The queue would be longer than it is.
    have mailbox_eq := congrArg (fun sessions => sessions.mailboxes[number]?) same
    rw [mailbox?_appendTo, List.getElem?_eq_getElem bound] at mailbox_eq
    have longer := congrArg (fun mailbox => mailbox.waiting.length) (Option.some.inj mailbox_eq)
    simp [Mailbox.append] at longer

end Sessions

namespace SessionHistory

variable {history : SessionHistory} {capacity : Nat}

/-- What every event keeps. -/
structure Kept (history : SessionHistory) (capacity : Nat) : Prop where
  sound : history.sessions.Sound
  capacity_eq : history.sessions.capacity = max capacity 1
  conserved : ∀ number, history.received number ++ history.lost number ++
    history.sessions.waitingAt number = history.accepted number
  deserted : ∀ number, history.lost number ≠ [] → history.sessions.IsDeserted number
  unregistered : ∀ number, history.sessions.mailboxes.length ≤ number →
    history.accepted number = []

theorem kept_start (capacity : Nat) : (start capacity).Kept capacity where
  sound := .ofCapacity capacity
  capacity_eq := rfl
  conserved _ := rfl
  deserted _ lost := absurd rfl lost
  unregistered _ _ := rfl

theorem Kept.record (kept : history.Kept capacity) (event : SessionEvent) :
    (history.record event).Kept capacity where
  sound := kept.sound.perform event
  capacity_eq := ((Sessions.grows_perform kept.sound event).2).trans kept.capacity_eq
  conserved number := by
    have before := kept.conserved number
    have step := Sessions.conserves kept.sound number event
    simp only [SessionHistory.record]
    by_cases nothing_lost : history.lost number = []
    · rw [nothing_lost, List.append_nil] at before
      calc (history.received number ++ history.sessions.receivedBy number event) ++
            (history.lost number ++ history.sessions.lostBy number event) ++
            (history.sessions.perform event).waitingAt number
        _ = history.received number ++ (history.sessions.receivedBy number event ++
              history.sessions.lostBy number event ++
              (history.sessions.perform event).waitingAt number) := by
          simp only [nothing_lost, List.nil_append, List.append_assoc]
        _ = history.received number ++ history.sessions.waitingAt number ++
              history.sessions.acceptedBy number event := by rw [step, List.append_assoc]
        _ = history.accepted number ++ history.sessions.acceptedBy number event := by rw [before]
    · -- Nobody is there: nothing waits, and nothing comes in or out any more.
      have deserted := kept.deserted number nothing_lost
      have not_accepted := Sessions.acceptedBy_of_not_accepts deserted.accepts_eq event
      rw [deserted.waitingAt_eq, not_accepted, List.append_nil] at step
      obtain ⟨taken_out, nothing_left⟩ := List.append_eq_nil_iff.1 step
      obtain ⟨not_received, not_lost⟩ := List.append_eq_nil_iff.1 taken_out
      rw [deserted.waitingAt_eq] at before
      simpa only [not_received, not_lost, nothing_left, not_accepted, List.append_nil] using before
  deserted number lost := by
    by_cases earlier : history.lost number = []
    · simp only [SessionHistory.record, earlier, List.nil_append] at lost
      exact Sessions.isDeserted_of_lostBy lost
    · exact (kept.deserted number earlier).perform kept.sound event
  unregistered number beyond := by
    have before := Nat.le_trans (Sessions.grows_perform kept.sound event).1 beyond
    simp only [SessionHistory.record]
    rw [kept.unregistered number before,
      Sessions.acceptedBy_of_not_accepts (Sessions.accepts_of_unregistered before) event]
    rfl

theorem Kept.foldl_record (kept : history.Kept capacity) (events : List SessionEvent) :
    (events.foldl SessionHistory.record history).Kept capacity := by
  induction events generalizing history with
  | nil => exact kept
  | cons event events induction_step => exact induction_step (kept.record event)

/-- A receiver that never goes away loses nothing. -/
theorem lost_foldl_record {number : Nat} (events : List SessionEvent)
    (stays : SessionEvent.abandon number ∉ events) :
    (events.foldl record history).lost number = history.lost number := by
  induction events generalizing history with
  | nil => rfl
  | cons event events induction_step =>
      rw [List.mem_cons, not_or] at stays
      have unchanged : history.sessions.lostBy number event = [] := by
        cases event with
        | abandon other =>
            refine if_neg fun same => stays.1 ?_
            rw [same]
        | _ => rfl
      rw [List.foldl_cons, induction_step stays.2]
      simp only [record, unchanged, List.append_nil]

/-- The queues are faithful to what was accepted, and what is sent next will be accepted or refused
as a whole. -/
structure Faithful (history : SessionHistory) (queue : Nat) : Prop where
  /-- What was received, what was lost with the receiver and what waits is what was accepted. -/
  conserved : ∀ number, history.received number ++ history.lost number ++
    history.sessions.waitingAt number = history.accepted number
  bounded : ∀ number, (history.sessions.waitingAt number).length ≤ max queue 1
  /-- A new registration starts with nothing. -/
  fresh : ∀ session, let number := (history.sessions.register session).answer
    history.accepted number = [] ∧ history.received number = [] ∧ history.lost number = []
  /-- A text is taken if the session has a registration that accepts it, and only then. -/
  send_isOk_iff : ∀ session text, (history.sessions.send session text).2 = .ok () ↔
    ∃ number, Entries.get? history.sessions.current session = some number ∧
      history.sessions.accepts number = true
  /-- A text is taken if it is appended once to the queue of the session, and only then. -/
  send_isOk_iff_appended : ∀ session text, (history.sessions.send session text).2 = .ok () ↔
    ∃ number, Entries.get? history.sessions.current session = some number ∧
      number < history.sessions.mailboxes.length ∧
      (history.sessions.send session text).1 = history.sessions.appendTo text (· == number)
  send_refused : ∀ session text cause, (history.sessions.send session text).2 = .error cause →
    (history.sessions.send session text).1 = history.sessions
  /-- A payload for a session is sent as its text. -/
  deliver_eq : ∀ session payload,
    ((history.sessions.deliver payload (.session session)).state,
      (history.sessions.deliver payload (.session session)).answer) =
        history.sessions.send session payload.compact
  /-- A broadcast appends its text to every queue that accepts it, whatever order it comes there
  in, and to no other. -/
  broadcastIn_eq : ∀ order text,
    (history.sessions.broadcastIn order text).1 =
      history.sessions.appendTo text history.sessions.accepts
  deliver_everyone : ∀ payload,
    (history.sessions.deliver payload .everyone).state =
        history.sessions.appendTo payload.compact history.sessions.accepts ∧
      (history.sessions.deliver payload .everyone).answer = .ok ()

theorem Kept.faithful (kept : history.Kept capacity) : history.Faithful capacity where
  conserved := kept.conserved
  bounded number := kept.capacity_eq ▸ Sessions.length_waitingAt_le kept.sound number
  fresh session := by
    have nothing := kept.unregistered history.sessions.mailboxes.length (Nat.le_refl _)
    have parts := kept.conserved history.sessions.mailboxes.length
    rw [nothing, List.append_eq_nil_iff, List.append_eq_nil_iff] at parts
    exact ⟨nothing, parts.1⟩
  send_isOk_iff := history.sessions.send_isOk_iff
  send_isOk_iff_appended := history.sessions.send_isOk_iff_appended
  send_refused _ _ _ refused := Sessions.send_refused refused
  deliver_eq _ _ := rfl
  broadcastIn_eq := kept.sound.broadcastIn_eq
  deliver_everyone payload :=
    ⟨kept.sound.broadcastIn_eq ⟨id, fun _ => .refl _⟩ payload.compact, rfl⟩

/-- Whatever happens to the sessions, in whatever order: for every registration, what its receiver
got and what waits for it is what was accepted for it, in order. -/
theorem ofEvents_faithful (queue : Nat) (events : List SessionEvent) :
    let history := ofEvents queue events
    history.Faithful queue ∧
      ∀ number, SessionEvent.abandon number ∉ events →
        history.received number ++ history.sessions.waitingAt number =
          history.accepted number := by
  intro history
  have faithful : history.Faithful queue := ((kept_start queue).foldl_record events).faithful
  refine ⟨faithful, fun number stays => ?_⟩
  have nothing_lost : history.lost number = [] := lost_foldl_record events stays
  have conserved := faithful.conserved number
  rwa [nothing_lost, List.append_nil] at conserved

end SessionHistory

end VesselHub
