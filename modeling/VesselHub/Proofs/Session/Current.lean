/-
Module: VesselHub.Proofs.Session.Current
Purpose: Which sessions are registered: registering adds one, unregistering takes it away, and
  deliveries change nothing.
Main exports: Sessions.contains_register, Sessions.contains_unregister, Sessions.current_deliver
-/
import VesselHub.Session.Queues

namespace VesselHub.Sessions

variable {sessions : Sessions} {session : String}

theorem contains_register (session : String) :
    (sessions.register session).state.contains session = true := by
  simp [contains, register, Entries.contains, Entries.get?_insert_self]

theorem contains_register_of_contains {other : String} (present : sessions.contains other = true)
    (session : String) : (sessions.register session).state.contains other = true := by
  by_cases same : session = other
  · rw [same]
    exact contains_register other
  · simpa [contains, register, Entries.contains, Entries.get?_insert_of_ne _ _ same] using present

theorem contains_unregister_of_ne {other : String} (differs : session ≠ other) :
    (sessions.unregister session).state.contains other = sessions.contains other := by
  rw [unregister]
  split
  · simp [contains, Entries.contains, Entries.get?_erase_of_ne _ differs]
  · rfl

theorem contains_unregister (distinct : (Entries.keys sessions.current).Nodup)
    (session : String) : (sessions.unregister session).state.contains session = false := by
  rw [unregister]
  split
  · have absent := (Entries.get?_eq_none_iff _ _).2 (Entries.not_mem_keys_erase distinct session)
    simp [contains, Entries.contains, absent]
  · rename_i absent
    simpa using absent

theorem nodup_keys_register (distinct : (Entries.keys sessions.current).Nodup)
    (session : String) : (Entries.keys (sessions.register session).state.current).Nodup :=
  Entries.nodup_keys_insert distinct session _

theorem nodup_keys_unregister (distinct : (Entries.keys sessions.current).Nodup)
    (session : String) : (Entries.keys (sessions.unregister session).state.current).Nodup := by
  rw [unregister]
  split
  · exact distinct.sublist (Entries.keys_erase_sublist ..)
  · exact distinct

/-! ### Deliveries -/

theorem current_send (sessions : Sessions) (session text : String) :
    (sessions.send session text).1.current = sessions.current := by
  rw [send]
  repeat' split
  all_goals rfl

theorem current_sendEach (text : String) (names : List String) (sessions : Sessions) :
    (sendEach text names sessions).1.current = sessions.current := by
  induction names generalizing sessions with
  | nil => rfl
  | cons session names induction_step =>
      have rest := (induction_step _).trans (sessions.current_send session text)
      rw [sendEach]
      dsimp only
      split <;> exact rest

theorem current_deliver (sessions : Sessions) (payload : Json) (target : Target) :
    (sessions.deliver payload target).state.current = sessions.current := by
  cases target with
  | session name => exact sessions.current_send name payload.compact
  | everyone => exact current_sendEach _ _ sessions

end VesselHub.Sessions
