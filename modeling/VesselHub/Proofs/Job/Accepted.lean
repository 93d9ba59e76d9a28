/-
Module: VesselHub.Proofs.Job.Accepted
Purpose: What the receiver of a job's changes knows when some deliveries are refused. A tracker
  moves on when it renders, so a change whose payload is refused reaches the receiver only if the
  leaf changes again.
Main exports: Payload.carried, Job.history, Job.tracked_history, Job.run_eq_tick,
  Job.knows_iff_not_lost
-/
import Mathlib.Data.List.Induction
import VesselHub.Job.Basic
import VesselHub.Proofs.Delta
import VesselHub.Proofs.Json.Same
import VesselHub.Proofs.Payload.Tracker

namespace VesselHub

/-- The full paths and values that a delta carries, in order. -/
def Delta.carried (delta : Delta) : List (String × Json) :=
  (delta.values ++ delta.updates.flatMap Update.values).map fun item =>
    (((Path.ofText delta.context).join item.path).text, item.value)

/-- What a receiver reads in a payload. -/
def Payload.carried (payload : Json) : List (String × Json) :=
  match Delta.decode payload with
  | .ok delta => delta.carried
  | .error _ => []

/-- The last of the values under a path. -/
def lastOf? {Value : Type} (read : List (String × Value)) (full : String) : Option Value :=
  Entries.get? read.reverse full

/-- The texts that wait for a session. -/
def Sessions.waitingFor (sessions : Sessions) (session : String) : List String :=
  (((Entries.get? sessions.current session).bind fun number => sessions.mailboxes[number]?).map
    Mailbox.waiting).getD []

/-- A tick of a job: what the model holds then, and the sessions as each delivery finds them. -/
structure Tick where
  tree : Tree
  found : Nat → Sessions

namespace Job

/-- The payloads of a tick, each with whether its delivery is accepted. -/
def attempts (job : Job) (found : Nat → Sessions) (payloads : List Json) : List (Json × Bool) :=
  payloads.mapIdx fun index payload => (payload, (job.deliver (found index) payload).answer.isOk)

/-- A tick, and the payloads of it behind those of the ticks before. -/
def tick (resolver : Resolver) (state : Job × List (Json × Bool)) (tick : Tick) :
    Job × List (Json × Bool) :=
  let (payloads, rendered) := state.1.render tick.tree resolver
  (rendered, state.2 ++ rendered.attempts tick.found payloads)

/-- A job after ticks, and all payloads with whether they were accepted. -/
def history (resolver : Resolver) (job : Job) (ticks : List Tick) : Job × List (Json × Bool) :=
  ticks.foldl (tick resolver) (job, [])

/-- What a receiver has read: the contents of the accepted payloads. -/
def received (log : List (Json × Bool)) : List (String × Json) :=
  ((log.filter Prod.snd).map Prod.fst).flatMap Payload.carried

/-- What was rendered, each value with whether its payload was accepted. -/
def rendered (log : List (Json × Bool)) : List (String × Json × Bool) :=
  log.flatMap fun entry => (Payload.carried entry.1).map fun read => (read.1, read.2, entry.2)

/-- The leaves that a job covers in a tree. -/
def covers (job : Job) (resolver : Resolver) (tree : Tree) : List Payload.CoveredLeaf :=
  Payload.covered tree resolver job.subscription.context job.subscription.pattern

/-- The receiver knows the value of a leaf: the last one that it has read is the same. -/
def Knows (log : List (Json × Bool)) (covered : Payload.CoveredLeaf) : Prop :=
  ∃ value, lastOf? (received log) covered.full.text = some value ∧
    value.same covered.leaf.value

end Job

/-! ### Reading lists from the end -/

private theorem lastOf?_append {Value : Type} (before after : List (String × Value))
    (full : String) :
    lastOf? (before ++ after) full = (lastOf? after full).or (lastOf? before full) := by
  rw [lastOf?, List.reverse_append, Entries.get?_append]
  rfl

theorem mem_of_lastOf? {Value : Type} {read : List (String × Value)} {full : String}
    {value : Value} (found : lastOf? read full = some value) : (full, value) ∈ read :=
  List.mem_reverse.1 (Entries.mem_of_get? found)

private theorem exists_lastOf? {Value : Type} {read : List (String × Value)} {full : String}
    {value : Value} (member : (full, value) ∈ read) : ∃ last, lastOf? read full = some last := by
  cases found : lastOf? read full with
  | some last => exact ⟨last, rfl⟩
  | none =>
      refine absurd ?_ ((Entries.get?_eq_none_iff _ _).1 found)
      exact List.mem_map.2 ⟨_, List.mem_reverse.2 member, rfl⟩

/-! ### Queues -/

/-- A text that is sent waits behind the others, or it is refused and nothing changes. -/
theorem Sessions.waitingFor_send (sessions : Sessions) (session text : String) :
    (sessions.send session text).1.waitingFor session = sessions.waitingFor session ++
      if (sessions.send session text).2.isOk then [text] else [] := by
  rw [send]
  cases current : Entries.get? sessions.current session with
  | none => simp [Except.isOk, Except.toBool]
  | some number =>
      cases held : sessions.mailboxes[number]? with
      | none => simp [held, Except.isOk, Except.toBool]
      | some mailbox =>
          have bound : number < sessions.mailboxes.length := (List.getElem?_eq_some_iff.1 held).1
          simp only [held]
          split
          · simp [Except.isOk, Except.toBool]
          · split
            · simp [Except.isOk, Except.toBool]
            · simp only [waitingFor, current, held, Option.bind_some, List.getElem?_set_self bound]
              rfl

namespace Job

/-- A receiver reads what was rendered and accepted. -/
theorem received_eq (log : List (Json × Bool)) :
    received log = ((rendered log).filter fun entry => entry.2.2).map fun entry =>
      (entry.1, entry.2.1) := by
  induction log with
  | nil => rfl
  | cons entry log induction_step =>
      obtain ⟨payload, taken⟩ := entry
      cases taken with
      | true =>
          have split : rendered ((payload, true) :: log) =
              ((Payload.carried payload).map fun read => (read.1, read.2, true)) ++ rendered log :=
            rfl
          rw [split, List.filter_append, List.map_append, ← induction_step]
          simp [received, List.filter_map, Function.comp_def]
      | false =>
          have split : rendered ((payload, false) :: log) =
              ((Payload.carried payload).map fun read => (read.1, read.2, false)) ++
                rendered log := rfl
          rw [split, List.filter_append, List.map_append, ← induction_step]
          simp [received]

/-- If what was rendered last at a path was accepted, it is what was read last. -/
theorem last_received {log : List (Json × Bool)} {full : String} {value : Json}
    (last : lastOf? (rendered log) full = some (value, true)) :
    lastOf? (received log) full = some value := by
  rw [received_eq, lastOf?, ← List.map_reverse, ← List.filter_reverse]
  rw [lastOf?] at last
  generalize (rendered log).reverse = entries at last
  induction entries with
  | nil => cases last
  | cons entry entries induction_step =>
      obtain ⟨present, held, taken⟩ := entry
      rw [Entries.get?] at last
      split at last
      · rename_i same
        cases last
        simp [same, Entries.get?]
      · rename_i differs
        cases taken with
        | true => simp [Entries.get?, differs, induction_step last]
        | false => simpa using induction_step last

theorem rendered_append (before after : List (Json × Bool)) :
    rendered (before ++ after) = rendered before ++ rendered after :=
  List.flatMap_append

/-! ### One tick -/

variable {job : Job} {resolver : Resolver} {log : List (Json × Bool)} {tree : Tree}
  {found : Nat → Sessions}

theorem mem_rendered_attempts {payloads : List Json} {full : String} {value : Json}
    {taken : Bool} (member : (full, value, taken) ∈ rendered (job.attempts found payloads)) :
    ∃ payload ∈ payloads, (full, value) ∈ Payload.carried payload := by
  obtain ⟨entry, entry_mem, in_entry⟩ := List.mem_flatMap.1 member
  obtain ⟨index, bound, rfl⟩ := List.mem_mapIdx.1 entry_mem
  obtain ⟨read, read_mem, same⟩ := List.mem_map.1 in_entry
  cases same
  exact ⟨payloads[index], List.getElem_mem bound, read_mem⟩

private theorem exists_rendered_attempts (job : Job) (found : Nat → Sessions) {payloads : List Json}
    {payload : Json} (member : payload ∈ payloads) {full : String} {value : Json}
    (read : (full, value) ∈ Payload.carried payload) :
    ∃ taken, (full, value, taken) ∈ rendered (job.attempts found payloads) := by
  obtain ⟨index, bound, rfl⟩ := List.getElem_of_mem member
  refine ⟨(job.deliver (found index) payloads[index]).answer.isOk, List.mem_flatMap.2 ?_⟩
  exact ⟨_, List.mem_mapIdx.2 ⟨index, bound, rfl⟩, List.mem_map.2 ⟨_, read, rfl⟩⟩

theorem carried_encode (delta : Delta) : Payload.carried delta.encode = delta.carried := by
  rw [Payload.carried, Delta.decode_encode]

/-- What the deltas of leaves carry is the value of one of the leaves at its path. -/
theorem exists_of_carried {leaves : List Payload.CoveredLeaf} {delta : Delta}
    (member : delta ∈ Payload.Tracker.deltasOf leaves) {full : String} {value : Json}
    (read : (full, value) ∈ delta.carried) :
    ∃ covered ∈ leaves, covered.full.text = full ∧ covered.leaf.value = value := by
  obtain ⟨_, no_values, _⟩ := Payload.Tracker.shape_of_mem_deltasOf member
  obtain ⟨item, item_mem, same⟩ := List.mem_map.1 read
  rw [no_values, List.nil_append] at item_mem
  obtain ⟨update, is_update, is_value⟩ := List.mem_flatMap.1 item_mem
  obtain ⟨covered, covered_mem, same_context, _, _, rfl⟩ :=
    Payload.Tracker.sent_of_mem_deltasOf member is_update is_value
  cases same
  refine ⟨covered, covered_mem, ?_, rfl⟩
  rw [← same_context]
  exact (Payload.full_text_join covered).symm

/-- The value of each of the leaves is carried at its path. -/
theorem exists_carried {leaves : List Payload.CoveredLeaf} {covered : Payload.CoveredLeaf}
    (member : covered ∈ leaves) :
    ∃ delta ∈ Payload.Tracker.deltasOf leaves,
      (covered.full.text, covered.leaf.value) ∈ delta.carried := by
  obtain ⟨delta, delta_mem, same_context, update, is_update, _, _, is_value⟩ :=
    Payload.Tracker.mem_deltasOf_of_mem member
  refine ⟨delta, delta_mem, List.mem_map.2 ⟨Payload.Tracker.valueOf covered, ?_, ?_⟩⟩
  · exact List.mem_append_right _ (List.mem_flatMap.2 ⟨update, is_update, is_value⟩)
  · rw [same_context]
    exact Prod.ext (Payload.full_text_join covered) rfl

/-- What holds between ticks: of every leaf that the tracker remembers, the value rendered last is
the same. -/
structure Tracked (state : Job × List (Json × Bool)) : Prop where
  format : state.1.subscription.format = .delta
  distinct : ∀ entry ∈ rendered state.2, entry.2.1.HasDistinctKeys
  remembered : ∀ full leaf, Entries.get? state.1.tracker.seen full = some leaf →
    ∃ value taken, lastOf? (rendered state.2) full = some (value, taken) ∧
      value.same leaf.value

/-- What a tick renders last at a path is the value of a changed leaf there. -/
theorem of_last_attempt {payloads : List Json} {leaves : List Payload.CoveredLeaf}
    (payloads_eq : payloads = (Payload.Tracker.deltasOf leaves).map Delta.encode)
    {full : String} {value : Json} {taken : Bool}
    (last : lastOf? (rendered (job.attempts found payloads)) full = some (value, taken)) :
    ∃ covered ∈ leaves, covered.full.text = full ∧ covered.leaf.value = value := by
  obtain ⟨payload, payload_mem, read⟩ := mem_rendered_attempts (mem_of_lastOf? last)
  rw [payloads_eq] at payload_mem
  obtain ⟨delta, delta_mem, rfl⟩ := List.mem_map.1 payload_mem
  rw [carried_encode] at read
  exact exists_of_carried delta_mem read

/-- Every changed leaf is rendered in its tick. -/
theorem exists_last_attempt (job : Job) (found : Nat → Sessions) {payloads : List Json}
    {leaves : List Payload.CoveredLeaf}
    (payloads_eq : payloads = (Payload.Tracker.deltasOf leaves).map Delta.encode)
    {covered : Payload.CoveredLeaf} (member : covered ∈ leaves) :
    ∃ last, lastOf? (rendered (job.attempts found payloads)) covered.full.text = some last := by
  obtain ⟨delta, delta_mem, read⟩ := exists_carried member
  rw [← carried_encode] at read
  have payload_mem : delta.encode ∈ payloads := by
    rw [payloads_eq]
    exact List.mem_map_of_mem delta_mem
  obtain ⟨taken, rendered_mem⟩ := exists_rendered_attempts job found payload_mem read
  exact exists_lastOf? rendered_mem

/-- A tick of a job that serves changes. -/
theorem tick_eq (resolver : Resolver) (log : List (Json × Bool)) (tree : Tree)
    (found : Nat → Sessions) (is_delta : job.subscription.format = .delta) :
    ∃ after, Job.tick resolver (job, log) ⟨tree, found⟩ = (after, log ++ after.attempts found
        ((Payload.Tracker.deltasOf (job.tracker.changes (job.covers resolver tree))).map
          Delta.encode)) ∧
      after.subscription = job.subscription ∧
      after.tracker = .remembering (job.covers resolver tree) := by
  refine ⟨{ job with tracker := .remembering (job.covers resolver tree) }, ?_, rfl, rfl⟩
  simp only [Job.tick, Job.render, is_delta]
  rfl

/-- After a tick, the value rendered last at the path of a covered leaf is that of the leaf. -/
theorem last_rendered (found : Nat → Sessions) (tracked : Tracked (job, log)) (proper : tree.Proper)
    {covered : Payload.CoveredLeaf} (member : covered ∈ job.covers resolver tree) :
    ∃ value taken, lastOf? (rendered (Job.tick resolver (job, log) ⟨tree, found⟩).2)
        covered.full.text = some (value, taken) ∧ value.same covered.leaf.value := by
  have is_delta : job.subscription.format = .delta := tracked.format
  obtain ⟨after, tick_eq, _, _⟩ := tick_eq resolver log tree found is_delta
  have same_leaf : ∀ other ∈ job.tracker.changes (job.covers resolver tree),
      other.full.text = covered.full.text → other.leaf = covered.leaf := fun other other_mem same =>
    Payload.covered_unique proper (List.mem_filter.1 other_mem).1 member same
  rw [tick_eq, rendered_append, lastOf?_append]
  cases is_changed : job.tracker.isChanged covered with
  | true =>
      have changed : covered ∈ job.tracker.changes (job.covers resolver tree) :=
        List.mem_filter.2 ⟨member, is_changed⟩
      obtain ⟨⟨value, taken⟩, last⟩ := exists_last_attempt after found rfl changed
      obtain ⟨other, other_mem, same_full, rfl⟩ := of_last_attempt rfl last
      refine ⟨other.leaf.value, taken, by rw [last]; rfl, ?_⟩
      rw [same_leaf other other_mem same_full]
      exact Json.same_refl (Payload.distinct_value proper member)
  | false =>
      have skipped : lastOf? (rendered (after.attempts found ((Payload.Tracker.deltasOf
          (job.tracker.changes (job.covers resolver tree))).map Delta.encode)))
          covered.full.text = none := by
        cases last : lastOf? (rendered (after.attempts found _)) covered.full.text with
        | none => rfl
        | some entry =>
            obtain ⟨other, other_mem, same_full, _⟩ := of_last_attempt rfl last
            have other_changed := (List.mem_filter.1 other_mem).2
            rw [Payload.Tracker.isChanged, same_full, same_leaf other other_mem same_full]
              at other_changed
            exact absurd other_changed (Bool.eq_false_iff.1 is_changed)
      rw [skipped, Option.none_or]
      simp only [Payload.Tracker.isChanged] at is_changed
      split at is_changed
      · rename_i before seen
        obtain ⟨value, taken, last, same⟩ := tracked.remembered _ _ seen
        simp only [Bool.not_eq_false', Leaf.same, Bool.and_eq_true] at is_changed
        exact ⟨value, taken, last, Json.same_trans same is_changed.1.1⟩
      · cases is_changed

theorem tracked_tick (tracked : Tracked (job, log)) (proper : tree.Proper) :
    Tracked (Job.tick resolver (job, log) ⟨tree, found⟩) := by
  have is_delta : job.subscription.format = .delta := tracked.format
  have last := fun covered (member : covered ∈ job.covers resolver tree) =>
    last_rendered found tracked proper member
  obtain ⟨after, tick_eq, same_subscription, tracker_eq⟩ :=
    tick_eq resolver log tree found is_delta
  rw [tick_eq] at last ⊢
  refine ⟨?_, ?_, ?_⟩
  · rw [same_subscription]
    exact is_delta
  · intro entry member
    rw [rendered_append, List.mem_append] at member
    rcases member with before | now
    · exact tracked.distinct entry before
    · obtain ⟨payload, payload_mem, read⟩ := mem_rendered_attempts now
      obtain ⟨delta, delta_mem, rfl⟩ := List.mem_map.1 payload_mem
      rw [carried_encode] at read
      obtain ⟨covered, covered_mem, _, value_eq⟩ := exists_of_carried delta_mem read
      rw [← value_eq]
      exact Payload.distinct_value proper (List.mem_filter.1 covered_mem).1
  · intro full leaf seen
    rw [tracker_eq] at seen
    obtain ⟨covered, covered_mem, rfl, rfl⟩ := Payload.Tracker.exists_of_remembering seen
    exact last covered covered_mem

/-! ### Runs that nothing interrupts -/

/-- The texts of the accepted payloads. -/
def acceptedTexts (log : List (Json × Bool)) : List String :=
  (log.filter Prod.snd).map fun entry => entry.1.compact

/-- The sessions as a delivery finds them when only the job has handed something over since. -/
def foundInRun (job : Job) (sessions : Sessions) (payloads : List Json) (index : Nat) : Sessions :=
  (job.deliverAll (payloads.take index) sessions).state

private theorem deliver_session {session : String} (target_eq : job.target = .session session)
    (sessions : Sessions) (payload : Json) :
    (job.deliver sessions payload).state = (sessions.send session payload.compact).1 ∧
      (job.deliver sessions payload).answer = (sessions.send session payload.compact).2 := by
  rw [deliver, target_eq, Sessions.deliver]
  cases result : (sessions.send session payload.compact).2 with
  | ok _ => simp [result]
  | error complaint => simp [result]

/-- What a run hands over waits for the session if it was accepted, in the order of the
payloads. -/
theorem waitingFor_deliverAll {session : String} (target_eq : job.target = .session session)
    (payloads : List Json) (sessions : Sessions) :
    (job.deliverAll payloads sessions).state.waitingFor session = sessions.waitingFor session ++
      acceptedTexts (job.attempts (job.foundInRun sessions payloads) payloads) := by
  induction payloads generalizing sessions with
  | nil => simp [deliverAll, attempts, acceptedTexts]
  | cons payload payloads induction_step =>
      have split : job.attempts (job.foundInRun sessions (payload :: payloads))
          (payload :: payloads) = (payload, (job.deliver sessions payload).answer.isOk) ::
            job.attempts (job.foundInRun (job.deliver sessions payload).state payloads) payloads :=
        List.mapIdx_cons
      obtain ⟨state_eq, answer_eq⟩ := deliver_session target_eq sessions payload
      rw [split, deliverAll]
      simp only [induction_step]
      rw [state_eq, Sessions.waitingFor_send, List.append_assoc, answer_eq]
      cases (sessions.send session payload.compact).2.isOk <;> simp [acceptedTexts]

/-- A run that nothing interrupts is a tick, and the texts of the payloads accepted in it wait for
the session behind those that waited before. -/
theorem run_eq_tick {session : String} (target_eq : job.target = .session session)
    (active : job.isCancelled = false) (resolver : Resolver) (log : List (Json × Bool))
    (tree : Tree) (sessions : Sessions) :
    ∃ found added,
      Job.tick resolver (job, log) ⟨tree, found⟩ =
        ((job.run tree resolver sessions).state.1, log ++ added) ∧
      (job.run tree resolver sessions).state.2.waitingFor session =
        sessions.waitingFor session ++ acceptedTexts added := by
  obtain ⟨payloads, rendered, rendered_eq⟩ :
      ∃ payloads rendered, job.render tree resolver = (payloads, rendered) := ⟨_, _, rfl⟩
  have same_subscription : rendered.subscription = job.subscription := by
    have rendered_eq' := congrArg (fun result => result.2.subscription) rendered_eq
    rw [render] at rendered_eq'
    split at rendered_eq' <;> exact rendered_eq'.symm
  have same_deliver : rendered.deliver = job.deliver := by
    funext found payload
    simp only [deliver, target, same_subscription]
  refine ⟨job.foundInRun sessions payloads,
    job.attempts (job.foundInRun sessions payloads) payloads, ?_, ?_⟩
  · simp [Job.tick, run, active, rendered_eq, attempts, same_deliver]
  · simpa [run, active, rendered_eq] using waitingFor_deliverAll target_eq payloads sessions

/-! ### Runs -/

theorem history_concat (resolver : Resolver) (job : Job) (ticks : List Tick) (last : Tick) :
    history resolver job (ticks ++ [last]) = Job.tick resolver (history resolver job ticks) last :=
  List.foldl_concat _ _ _ _

theorem tracked_history {number due : Nat} {subscription : ActiveSubscription}
    (is_delta : subscription.format = .delta) (resolver : Resolver) {ticks : List Tick}
    (proper : ∀ tick ∈ ticks, tick.tree.Proper) :
    Tracked (history resolver (start number subscription due) ticks) := by
  induction ticks using List.reverseRecOn with
  | nil =>
      refine ⟨is_delta, ?_, ?_⟩
      · intro entry member
        cases member
      · intro full leaf seen
        cases seen
  | append_singleton ticks last induction_step =>
      rw [history_concat]
      refine tracked_tick (induction_step fun tick member => ?_) (proper last (by simp))
      exact proper tick (List.mem_append_left _ member)

/-- A job keeps its subscription. -/
theorem subscription_history (resolver : Resolver) (job : Job) (ticks : List Tick) :
    (history resolver job ticks).1.subscription = job.subscription := by
  induction ticks using List.reverseRecOn with
  | nil => rfl
  | append_singleton ticks last induction_step =>
      rw [history_concat, ← induction_step]
      simp only [Job.tick, Job.render]
      split <;> rfl

/-- The last rendering of a path was refused, and what was accepted before was another value. -/
def Lost (log : List (Json × Bool)) (full : String) : Prop :=
  ∃ value, lastOf? (rendered log) full = some (value, false) ∧
    ∀ older, lastOf? (received log) full = some older → ¬ older.same value

/-- What a receiver knows of the covered leaves: all but those of which the last rendering was
refused and had something new. -/
theorem knows_iff_not_lost (number due : Nat) (subscription : ActiveSubscription)
    (is_delta : subscription.format = .delta) (resolver : Resolver) (ticks : List Tick)
    (last : Tick) (proper : ∀ tick ∈ ticks ++ [last], tick.tree.Proper)
    (covered : Payload.CoveredLeaf)
    (member : covered ∈ (start number subscription due).covers resolver last.tree) :
    Knows (history resolver (start number subscription due) (ticks ++ [last])).2 covered ↔
      ¬ Lost (history resolver (start number subscription due) (ticks ++ [last])).2
        covered.full.text := by
  have last_proper : last.tree.Proper := proper last (by simp)
  have before : Tracked (history resolver (start number subscription due) ticks) :=
    tracked_history is_delta resolver fun tick is_tick =>
      proper tick (List.mem_append_left _ is_tick)
  have after : Tracked (history resolver (start number subscription due) (ticks ++ [last])) :=
    tracked_history is_delta resolver proper
  have still : covered ∈
      (history resolver (start number subscription due) ticks).1.covers resolver last.tree := by
    rw [covers, subscription_history]
    exact member
  obtain ⟨value, taken, rendered_last, same⟩ : ∃ value taken,
      lastOf? (rendered (history resolver (start number subscription due) (ticks ++ [last])).2)
        covered.full.text = some (value, taken) ∧ value.same covered.leaf.value := by
    rw [history_concat]
    exact last_rendered last.found before last_proper still
  generalize history resolver (start number subscription due) (ticks ++ [last]) = state
    at after rendered_last
  have value_distinct : value.HasDistinctKeys :=
    after.distinct _ (mem_of_lastOf? rendered_last)
  have leaf_distinct : covered.leaf.value.HasDistinctKeys :=
    Payload.distinct_value last_proper member
  constructor
  · rintro ⟨older, read, knows⟩ ⟨other, refused, unlike⟩
    rw [rendered_last] at refused
    cases refused
    apply unlike older read
    exact Json.same_trans knows (Json.same_symm value_distinct leaf_distinct same)
  · intro kept
    cases taken with
    | true => exact ⟨value, last_received rendered_last, same⟩
    | false =>
        by_contra unknown
        refine kept ⟨value, rendered_last, fun older read alike => unknown ?_⟩
        exact ⟨older, read, Json.same_trans alike same⟩

/-- All payloads of a tick are accepted. -/
def AcceptsAll (resolver : Resolver) (job : Job) (ticks : List Tick) (last : Tick) : Prop :=
  ∀ entry ∈ (history resolver job (ticks ++ [last])).2.drop (history resolver job ticks).2.length,
    entry.2 = true

/-- A model with one vessel and its speed. -/
def sailing (speed : Int) : Tree :=
  .object [(vesselsKey, .object [("gull", .object [
    ("speed", .leaf (.bare (.number (.int speed))))])])]

/-- A subscription of the session `deck` to the changes of that vessel. -/
def watching : ActiveSubscription where
  session := "deck"
  context := "vessels.gull"
  filter := "*"
  period := 1000
  format := .delta
  pattern := { raw := "*", parts := [.wildcard] }

/-- The session `deck` with these texts waiting, and room for one. -/
def deckWith (texts : List String) : Sessions where
  capacity := 1
  mailboxes := [⟨texts, true⟩]
  current := [("deck", 0)]

/-- A speed, rendered while these texts wait. -/
def sailingTick (speed : Int) (texts : List String) : Tick :=
  ⟨sailing speed, fun _ => deckWith texts⟩

/-- The covered leaf of the speed. -/
def speedLeaf (speed : Int) : Payload.CoveredLeaf where
  context := Path.ofText "vessels.gull"
  relative := "speed"
  leaf := .bare (.number (.int speed))

private theorem sailing_proper (speed : Int) : (sailing speed).Proper where
  distinct := by simp [sailing, Tree.EveryObject, Tree.EveryChild, Entries.keys]
  plain := by
    simp only [sailing, Tree.EveryObject, Tree.EveryChild, Entries.keys, and_true, List.map_cons,
      List.map_nil, List.forall_mem_singleton]
    decide
  values := by
    intro found member
    simp only [sailing, Tree.leafTrails, Tree.childTrails, List.append_nil, List.map_cons,
      List.map_nil, List.mem_singleton] at member
    rw [member]
    trivial

theorem sailingTicks_proper {speed next last : Int} {texts more rest : List String} :
    ∀ tick ∈ [sailingTick speed texts, sailingTick next more] ++ [sailingTick last rest],
      tick.tree.Proper := by
  simp [sailingTick, sailing_proper]

theorem speedLeaf_covered (speed : Int) :
    speedLeaf speed ∈ (start 0 watching 0).covers ⟨"gull"⟩ (sailing speed) :=
  List.mem_singleton_self _

/-- When every payload is accepted, the last speed is known. -/
theorem accepted_speed_known :
    Knows (history ⟨"gull"⟩ (start 0 watching 0)
        ([sailingTick 1 [], sailingTick 2 []] ++ [sailingTick 2 ["speed 2"]])).2 (speedLeaf 2) := by
  refine (knows_iff_not_lost 0 0 watching rfl ⟨"gull"⟩ _ _ sailingTicks_proper _
    (speedLeaf_covered 2)).2 ?_
  rintro ⟨value, refused, _⟩
  cases refused

/-- A speed that was refused is unknown although the next tick has nothing to send. -/
theorem refused_speed_unknown :
    (∀ tick ∈ [sailingTick 1 [], sailingTick 2 ["speed 1"]] ++ [sailingTick 2 []],
      tick.tree.Proper) ∧
    AcceptsAll ⟨"gull"⟩ (start 0 watching 0) [sailingTick 1 [], sailingTick 2 ["speed 1"]]
      (sailingTick 2 []) ∧
    speedLeaf 2 ∈ (start 0 watching 0).covers ⟨"gull"⟩ (sailing 2) ∧
    ¬ Knows (history ⟨"gull"⟩ (start 0 watching 0)
        ([sailingTick 1 [], sailingTick 2 ["speed 1"]] ++ [sailingTick 2 []])).2
      (speedLeaf 2) := by
  refine ⟨sailingTicks_proper, ?_, speedLeaf_covered 2, ?_⟩
  · intro entry member
    cases member
  · rintro ⟨value, read, same⟩
    cases read
    cases same

end Job

end VesselHub
