/-
Module: VesselHub.Proofs.Session.Delivery
Purpose: What handing a text over does to the queues. It is appended once to the queue of the
  addressed session, or nothing changes; a broadcast does so for every session that accepts it, in
  whatever order it comes to them.
Main exports: Sessions.accepts, Sessions.Sound, Sessions.send_of_accepts,
  Sessions.send_of_not_accepts, Sessions.send_isOk_iff, Sessions.Sound.broadcastIn_eq
-/
import VesselHub.Proofs.Session.Current

namespace VesselHub

/-- The order in which a broadcast comes to the sessions. -/
structure VisitingOrder where
  arrange : List String → List String
  perm : ∀ names, (arrange names).Perm names

namespace Sessions

variable {sessions : Sessions} {session text : String} {number : Nat} {mailbox : Mailbox}

/-- What waits for a registration. -/
def waitingAt (sessions : Sessions) (number : Nat) : List String :=
  (sessions.mailboxes[number]?.map Mailbox.waiting).getD []

/-- Whether a registration is that of a session, and someone is there to receive, and there is room
for another text. -/
def accepts (sessions : Sessions) (number : Nat) : Bool :=
  sessions.isCurrent number &&
    sessions.mailboxes[number]?.any fun mailbox =>
      mailbox.isOpen && mailbox.hasRoom sessions.capacity

/-- A text appended to the mailboxes of some registrations. -/
def appendTo (sessions : Sessions) (text : String) (among : Nat → Bool) : Sessions :=
  { sessions with
    mailboxes := sessions.mailboxes.mapIdx fun number mailbox =>
      if among number then mailbox.append text else mailbox }

/-- A broadcast that comes to the sessions in an order of its own. -/
def broadcastIn (sessions : Sessions) (order : VisitingOrder) (text : String) :
    Sessions × List DeliveryError :=
  sendEach text (order.arrange (Entries.keys sessions.current)) sessions

/-- Sessions are named once, and each has a registration of its own. Mailboxes hold no more than
there may wait, and nothing where nobody receives. -/
structure Sound (sessions : Sessions) : Prop where
  nodup_keys : (Entries.keys sessions.current).Nodup
  injective : ∀ {one other number}, Entries.get? sessions.current one = some number →
    Entries.get? sessions.current other = some number → one = other
  registered : ∀ {session number}, Entries.get? sessions.current session = some number →
    number < sessions.mailboxes.length
  fits : ∀ mailbox ∈ sessions.mailboxes, mailbox.waiting.length ≤ sessions.capacity
  deserted : ∀ mailbox ∈ sessions.mailboxes, mailbox.isOpen = false → mailbox.waiting = []

private theorem isCurrent_of_get? (current : Entries.get? sessions.current session = some number) :
    sessions.isCurrent number = true :=
  List.contains_iff_mem.2 (Entries.mem_values_of_get? current)

private theorem exists_get?_of_isCurrent (distinct : (Entries.keys sessions.current).Nodup)
    (current : sessions.isCurrent number = true) :
    ∃ session, Entries.get? sessions.current session = some number := by
  obtain ⟨⟨session, _⟩, member, rfl⟩ := List.mem_map.1 (List.contains_iff_mem.1 current)
  exact ⟨session, Entries.get?_of_mem distinct member⟩

theorem accepts_eq (current : sessions.isCurrent number = true)
    (held : sessions.mailboxes[number]? = some mailbox) :
    sessions.accepts number = (mailbox.isOpen && mailbox.hasRoom sessions.capacity) := by
  rw [accepts, current, held, Option.any_some, Bool.true_and]

theorem exists_mailbox_of_accepts (accepted : sessions.accepts number = true) :
    ∃ mailbox, sessions.mailboxes[number]? = some mailbox ∧ mailbox.isOpen = true ∧
      mailbox.hasRoom sessions.capacity = true := by
  rw [accepts, Bool.and_eq_true, Option.any_eq_true] at accepted
  obtain ⟨-, mailbox, held, able⟩ := accepted
  exact ⟨mailbox, held, Bool.and_eq_true_iff.1 able⟩

private theorem able_of_accepts (accepted : sessions.accepts number = true)
    (bound : number < sessions.mailboxes.length) :
    sessions.mailboxes[number].isOpen = true ∧
      sessions.mailboxes[number].hasRoom sessions.capacity = true := by
  obtain ⟨mailbox, held, able⟩ := exists_mailbox_of_accepts accepted
  rw [List.getElem?_eq_getElem bound, Option.some.injEq] at held
  rwa [held]

theorem mailbox?_appendTo (sessions : Sessions) (text : String) (among : Nat → Bool)
    (number : Nat) : (sessions.appendTo text among).mailboxes[number]? =
      sessions.mailboxes[number]?.map fun mailbox =>
        if among number then mailbox.append text else mailbox :=
  List.getElem?_mapIdx

/-! ### Sending to one session -/

/-- A registration that accepts a text gets it behind what waits there. -/
theorem send_of_accepts (current : Entries.get? sessions.current session = some number)
    (accepted : sessions.accepts number = true) (text : String) :
    sessions.send session text = (sessions.appendTo text (· == number), .ok ()) := by
  obtain ⟨mailbox, held, is_open, has_room⟩ := exists_mailbox_of_accepts accepted
  have appended : sessions.mailboxes.set number (mailbox.append text) =
      (sessions.appendTo text (· == number)).mailboxes := by
    apply List.ext_getElem?
    intro other
    rw [mailbox?_appendTo, List.getElem?_set]
    by_cases same : number = other
    · subst same
      obtain ⟨bound, mailbox_eq⟩ := List.getElem?_eq_some_iff.1 held
      simp [bound, mailbox_eq]
    · simp [same, Ne.symm same]
  simp only [send, current, held, is_open, has_room, appended]
  rfl

/-- Otherwise nothing changes, and the sender is told why. -/
theorem send_of_not_accepts (refused : ∀ number,
      Entries.get? sessions.current session = some number → sessions.accepts number = false)
    (text : String) :
    ∃ complaint, sessions.send session text = (sessions, .error complaint) := by
  rw [send]
  cases current : Entries.get? sessions.current session with
  | none => exact ⟨.unknownSession session, rfl⟩
  | some number =>
      cases held : sessions.mailboxes[number]? with
      | none => exact ⟨.closed session, by simp only [held]⟩
      | some mailbox =>
          have unable := refused number current
          rw [accepts_eq (isCurrent_of_get? current) held] at unable
          simp only [held]
          cases is_open : mailbox.isOpen with
          | false => exact ⟨.closed session, rfl⟩
          | true =>
              rw [is_open, Bool.true_and] at unable
              exact ⟨.notKeepingUp session, by rw [unable]; rfl⟩

/-- Either a session has a registration that accepts texts, or it has none. -/
theorem accepts_or_not (sessions : Sessions) (session : String) :
    (∃ number, Entries.get? sessions.current session = some number ∧
        sessions.accepts number = true) ∨
      ∀ number, Entries.get? sessions.current session = some number →
        sessions.accepts number = false := by
  cases current : Entries.get? sessions.current session with
  | none => exact .inr nofun
  | some number =>
      cases accepted : sessions.accepts number with
      | true => exact .inl ⟨number, rfl, accepted⟩
      | false =>
          refine .inr fun other same => ?_
          cases same
          exact accepted

/-- A text is taken exactly if the session has a registration that accepts it. -/
theorem send_isOk_iff (sessions : Sessions) (session text : String) :
    (sessions.send session text).2 = .ok () ↔
      ∃ number, Entries.get? sessions.current session = some number ∧
        sessions.accepts number = true := by
  rcases accepts_or_not sessions session with ⟨number, current, accepted⟩ | refused
  · rw [send_of_accepts current accepted]
    exact iff_of_true rfl ⟨number, current, accepted⟩
  · obtain ⟨complaint, sent⟩ := send_of_not_accepts refused text
    rw [sent]
    refine iff_of_false nofun fun ⟨number, current, accepted⟩ => ?_
    rw [refused number current] at accepted
    cases accepted

theorem send_refused {cause : DeliveryError}
    (refused : (sessions.send session text).2 = .error cause) :
    (sessions.send session text).1 = sessions := by
  rcases accepts_or_not sessions session with ⟨number, current, accepted⟩ | none_accepts
  · rw [send_of_accepts current accepted] at refused
    cases refused
  · obtain ⟨complaint, sent⟩ := send_of_not_accepts none_accepts text
    rw [sent]

/-! ### Sending to some sessions -/

private theorem appendTo_none (sessions : Sessions) (text : String) :
    sessions.appendTo text (fun _ => false) = sessions := by
  have same : (sessions.appendTo text fun _ => false).mailboxes = sessions.mailboxes := by
    apply List.ext_getElem?
    intro number
    simp [mailbox?_appendTo]
  exact congrArg (fun mailboxes => { sessions with mailboxes }) same

private theorem appendTo_appendTo {first second : Nat → Bool}
    (disjoint : ∀ number, first number = true → second number = false) :
    (sessions.appendTo text first).appendTo text second =
      sessions.appendTo text fun number => first number || second number := by
  have same : ((sessions.appendTo text first).appendTo text second).mailboxes =
      (sessions.appendTo text fun number => first number || second number).mailboxes := by
    apply List.ext_getElem?
    intro number
    simp only [mailbox?_appendTo, Option.map_map, Function.comp_def]
    cases reached : first number with
    | true => simp [disjoint number reached]
    | false => simp
  exact congrArg (fun mailboxes => { sessions with mailboxes }) same

private theorem accepts_appendTo_of_not {among : Nat → Bool} (spared : among number = false) :
    (sessions.appendTo text among).accepts number = sessions.accepts number := by
  have same : (sessions.appendTo text among).mailboxes[number]? = sessions.mailboxes[number]? := by
    rw [mailbox?_appendTo, spared]
    simp
  rw [accepts, accepts, same]
  rfl

namespace Sound

/-- Where texts are accepted they may be appended. -/
theorem appendTo (sound : sessions.Sound) {among : Nat → Bool}
    (accepted : ∀ number, among number = true → sessions.accepts number = true) :
    (sessions.appendTo text among).Sound where
  nodup_keys := sound.nodup_keys
  injective := sound.injective
  registered current := by
    rw [Sessions.appendTo, List.length_mapIdx]
    exact sound.registered current
  fits mailbox member := by
    obtain ⟨number, bound, rfl⟩ := List.mem_mapIdx.1 member
    split
    · rename_i reached
      have room := (able_of_accepts (accepted number reached) bound).2
      rw [Mailbox.hasRoom, decide_eq_true_eq] at room
      rw [Mailbox.append, List.length_append]
      exact room
    · exact sound.fits _ (List.getElem_mem bound)
  deserted mailbox member closed := by
    obtain ⟨number, bound, rfl⟩ := List.mem_mapIdx.1 member
    split at closed
    · rename_i reached
      rw [Mailbox.append, (able_of_accepts (accepted number reached) bound).1] at closed
      cases closed
    · rename_i spared
      rw [if_neg spared]
      exact sound.deserted _ (List.getElem_mem bound) closed

/-- Sending to sessions, each once, appends the text where it is accepted. -/
theorem sendEach_eq (sound : sessions.Sound) {names : List String} (distinct : names.Nodup)
    (text : String) :
    (sendEach text names sessions).1 = sessions.appendTo text fun number =>
      names.any (fun name => Entries.get? sessions.current name == some number) &&
        sessions.accepts number := by
  induction names generalizing sessions with
  | nil => exact (appendTo_none sessions text).symm
  | cons name names induction_step =>
      obtain ⟨absent, rest_distinct⟩ := List.nodup_cons.1 distinct
      have unfolded : (sendEach text (name :: names) sessions).1 =
          (sendEach text names (sessions.send name text).1).1 := by
        rw [sendEach]
        dsimp only
        split <;> rfl
      rw [unfolded]
      rcases accepts_or_not sessions name with ⟨number, current, accepted⟩ | refused
      · -- No other name leads to this registration, so nothing more is appended to it.
        have not_again : ∀ other, (other == number) = true →
            (names.any (fun name => Entries.get? sessions.current name == some other) &&
              (sessions.appendTo text (· == number)).accepts other) = false := by
          intro other same
          rw [Bool.and_eq_false_iff, List.any_eq_false]
          refine .inl fun later member reaches => absent ?_
          rw [eq_of_beq same, beq_iff_eq] at reaches
          exact sound.injective current reaches ▸ member
        rw [send_of_accepts current accepted,
          induction_step (sound.appendTo fun other same => ?_) rest_distinct]
        · refine (appendTo_appendTo not_again).trans ?_
          congr 1
          funext other
          rw [List.any_cons, current]
          cases same : other == number with
          | true => simp [eq_of_beq same, accepted]
          | false =>
              have differs : (number == other) = false := BEq.comm.trans same
              have unaffected : (sessions.appendTo text (· == number)).accepts other =
                  sessions.accepts other := accepts_appendTo_of_not same
              simp [unaffected, differs]
        · rwa [eq_of_beq same]
      · obtain ⟨complaint, sent⟩ := send_of_not_accepts refused text
        rw [sent, induction_step sound rest_distinct]
        congr 1
        funext number
        rw [List.any_cons]
        cases reaches : Entries.get? sessions.current name == some number with
        | true => simp [refused number (eq_of_beq reaches)]
        | false => rfl

/-- A broadcast appends its text wherever it is accepted, in whatever order it comes there. -/
theorem broadcastIn_eq (sound : sessions.Sound) (order : VisitingOrder) (text : String) :
    (sessions.broadcastIn order text).1 = sessions.appendTo text sessions.accepts := by
  have visited := order.perm (Entries.keys sessions.current)
  rw [broadcastIn, sound.sendEach_eq (visited.nodup_iff.2 sound.nodup_keys)]
  congr 1
  funext number
  rw [visited.any_eq]
  cases accepted : sessions.accepts number with
  | false => rw [Bool.and_false]
  | true =>
      have current : sessions.isCurrent number = true := (Bool.and_eq_true_iff.1 accepted).1
      obtain ⟨session, current_eq⟩ := exists_get?_of_isCurrent sound.nodup_keys current
      rw [Bool.and_true, List.any_eq_true]
      exact ⟨session, List.mem_map_of_mem (Entries.mem_of_get? current_eq), by simp [current_eq]⟩

end Sound

end Sessions

end VesselHub
