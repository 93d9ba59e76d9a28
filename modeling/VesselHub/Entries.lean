/-
Module: VesselHub.Entries
Purpose: Values under text keys in the order in which the keys were first written.
Main exports: Entries.get?, Entries.insert, Entries.erase, Entries.keys
-/

namespace VesselHub

/-- Values under text keys, in insertion order. -/
abbrev Entries (Value : Type) := List (String × Value)

namespace Entries

variable {Value Other : Type}

/-- The value under a key. -/
def get? : Entries Value → String → Option Value
  | [], _ => none
  | (key, value) :: rest, wanted => if key = wanted then some value else get? rest wanted

def contains (entries : Entries Value) (key : String) : Bool :=
  (get? entries key).isSome

/-- Writes a value under a key. A key that is present keeps its position, a new one comes last. -/
def insert : Entries Value → String → Value → Entries Value
  | [], key, value => [(key, value)]
  | (present, old) :: rest, key, value =>
      if present = key then (present, value) :: rest
      else (present, old) :: insert rest key value

/-- Removes a key; the others keep their order. -/
def erase : Entries Value → String → Entries Value
  | [], _ => []
  | (key, value) :: rest, gone => if key = gone then rest else (key, value) :: erase rest gone

def keys (entries : Entries Value) : List String :=
  entries.map Prod.fst

def values (entries : Entries Value) : List Value :=
  entries.map Prod.snd

@[simp] theorem get?_nil (key : String) : get? ([] : Entries Value) key = none := rfl

@[simp] theorem keys_nil : keys ([] : Entries Value) = [] := rfl

@[simp] theorem keys_cons (entry : String × Value) (entries : Entries Value) :
    keys (entry :: entries) = entry.1 :: keys entries := rfl

theorem get?_insert_self (entries : Entries Value) (key : String) (value : Value) :
    get? (insert entries key value) key = some value := by
  induction entries with
  | nil => simp [insert, get?]
  | cons entry rest induction_step =>
      obtain ⟨present, old⟩ := entry
      by_cases same : present = key
      · simp [insert, get?, same]
      · simp [insert, get?, same, induction_step]

theorem get?_insert_of_ne {key other : String} (entries : Entries Value) (value : Value)
    (differs : key ≠ other) : get? (insert entries key value) other = get? entries other := by
  induction entries with
  | nil => simp [insert, get?, differs]
  | cons entry rest induction_step =>
      obtain ⟨present, old⟩ := entry
      by_cases same : present = key
      · subst same
        simp [insert, get?, differs]
      · simp [insert, get?, same, induction_step]

theorem get?_erase_of_ne {key other : String} (entries : Entries Value)
    (differs : key ≠ other) : get? (erase entries key) other = get? entries other := by
  induction entries with
  | nil => rfl
  | cons entry rest induction_step =>
      obtain ⟨present, old⟩ := entry
      by_cases same : present = key
      · subst same
        simp [erase, get?, differs]
      · simp [erase, get?, same, induction_step]

theorem get?_eq_none_iff (entries : Entries Value) (key : String) :
    get? entries key = none ↔ key ∉ keys entries := by
  induction entries with
  | nil => simp
  | cons entry rest induction_step =>
      obtain ⟨present, old⟩ := entry
      by_cases same : present = key
      · simp [get?, same]
      · simp [get?, same, induction_step, Ne.symm same]

/-- Writing a present key changes no keys; a new key is appended. -/
theorem keys_insert (entries : Entries Value) (key : String) (value : Value) :
    keys (insert entries key value) =
      if key ∈ keys entries then keys entries else keys entries ++ [key] := by
  induction entries with
  | nil => simp [insert]
  | cons entry rest induction_step =>
      obtain ⟨present, old⟩ := entry
      by_cases same : present = key
      · simp [insert, same]
      · simp only [insert, same, if_false, keys_cons, induction_step]
        by_cases member : key ∈ keys rest
        · simp [member]
        · simp [member, Ne.symm same]

theorem nodup_keys_insert {entries : Entries Value} (distinct : (keys entries).Nodup)
    (key : String) (value : Value) : (keys (insert entries key value)).Nodup := by
  rw [keys_insert]
  split
  · exact distinct
  · rename_i absent
    exact List.nodup_append.2 ⟨distinct, by simp, by
      intro left left_mem right right_mem same
      simp only [List.mem_singleton] at right_mem
      exact absent (right_mem ▸ same ▸ left_mem)⟩

theorem get?_map_values (change : Value → Other) (entries : Entries Value) (key : String) :
    get? (entries.map fun entry => (entry.1, change entry.2)) key =
      (get? entries key).map change := by
  induction entries with
  | nil => rfl
  | cons entry rest induction_step =>
      obtain ⟨present, old⟩ := entry
      by_cases same : present = key <;> simp [get?, same, induction_step]

theorem insert_map_values (change : Value → Other) (entries : Entries Value) (key : String)
    (value : Value) :
    (insert entries key value).map (fun entry => (entry.1, change entry.2)) =
      insert (entries.map fun entry => (entry.1, change entry.2)) key (change value) := by
  induction entries with
  | nil => rfl
  | cons entry rest induction_step =>
      obtain ⟨present, old⟩ := entry
      by_cases same : present = key <;> simp [insert, same, induction_step]

theorem erase_map_values (change : Value → Other) (entries : Entries Value) (key : String) :
    (erase entries key).map (fun entry => (entry.1, change entry.2)) =
      erase (entries.map fun entry => (entry.1, change entry.2)) key := by
  induction entries with
  | nil => rfl
  | cons entry rest induction_step =>
      obtain ⟨present, old⟩ := entry
      by_cases same : present = key <;> simp [erase, same, induction_step]

/-- A value that is found stands behind entries with other keys. -/
theorem exists_split_of_get? {entries : Entries Value} {key : String} {value : Value}
    (found : get? entries key = some value) :
    ∃ before after, entries = before ++ (key, value) :: after ∧ key ∉ keys before := by
  induction entries with
  | nil => simp at found
  | cons entry rest induction_step =>
      obtain ⟨present, old⟩ := entry
      by_cases same : present = key
      · simp only [get?, same, if_true, Option.some.injEq] at found
        exact ⟨[], rest, by simp [same, found], by simp⟩
      · simp only [get?, same, if_false] at found
        obtain ⟨before, after, split, absent⟩ := induction_step found
        exact ⟨(present, old) :: before, after, by simp [split], by simp [absent, Ne.symm same]⟩

theorem insert_of_not_mem {entries : Entries Value} {key : String} (absent : key ∉ keys entries)
    (value : Value) : insert entries key value = entries ++ [(key, value)] := by
  induction entries with
  | nil => rfl
  | cons entry rest induction_step =>
      obtain ⟨present, old⟩ := entry
      simp only [keys_cons, List.mem_cons, not_or] at absent
      simp [insert, Ne.symm absent.1, induction_step absent.2]

theorem insert_of_split {before : Entries Value} {key : String} (absent : key ∉ keys before)
    (after : Entries Value) (old value : Value) :
    insert (before ++ (key, old) :: after) key value = before ++ (key, value) :: after := by
  induction before with
  | nil => simp [insert]
  | cons entry rest induction_step =>
      obtain ⟨present, kept⟩ := entry
      simp only [keys_cons, List.mem_cons, not_or] at absent
      simp [insert, Ne.symm absent.1, induction_step absent.2]

theorem insert_insert (entries : Entries Value) (key : String) (first second : Value) :
    insert (insert entries key first) key second = insert entries key second := by
  induction entries with
  | nil => simp [insert]
  | cons entry rest induction_step =>
      obtain ⟨present, old⟩ := entry
      by_cases same : present = key <;> simp [insert, same, induction_step]

theorem erase_of_split {before : Entries Value} {key : String} (absent : key ∉ keys before)
    (after : Entries Value) (old : Value) :
    erase (before ++ (key, old) :: after) key = before ++ after := by
  induction before with
  | nil => simp [erase]
  | cons entry rest induction_step =>
      obtain ⟨present, kept⟩ := entry
      simp only [keys_cons, List.mem_cons, not_or] at absent
      simp [erase, Ne.symm absent.1, induction_step absent.2]

theorem get?_of_split {before : Entries Value} {key : String} (absent : key ∉ keys before)
    (after : Entries Value) (value : Value) :
    get? (before ++ (key, value) :: after) key = some value := by
  induction before with
  | nil => simp [get?]
  | cons entry rest induction_step =>
      obtain ⟨present, kept⟩ := entry
      simp only [keys_cons, List.mem_cons, not_or] at absent
      simp [get?, Ne.symm absent.1, induction_step absent.2]

theorem erase_of_not_mem {entries : Entries Value} {key : String}
    (absent : key ∉ keys entries) : erase entries key = entries := by
  induction entries with
  | nil => rfl
  | cons entry rest induction_step =>
      obtain ⟨present, old⟩ := entry
      simp only [keys_cons, List.mem_cons, not_or] at absent
      simp [erase, Ne.symm absent.1, induction_step absent.2]

theorem mem_values_insert {entries : Entries Value} {key : String} {value found : Value}
    (member : found ∈ values (insert entries key value)) :
    found = value ∨ found ∈ values entries := by
  induction entries with
  | nil => simpa [insert, values] using member
  | cons entry rest induction_step =>
      obtain ⟨present, old⟩ := entry
      by_cases same : present = key
      · simp only [insert, same, if_true, values, List.map_cons, List.mem_cons] at member
        exact member.imp id fun later => List.mem_cons_of_mem _ later
      · simp only [insert, same, if_false, values, List.map_cons, List.mem_cons] at member
        rcases member with rfl | later
        · exact Or.inr List.mem_cons_self
        · exact (induction_step later).imp id fun below => List.mem_cons_of_mem _ below

theorem mem_insert {entries : Entries Value} {key : String} {value : Value}
    {entry : String × Value} (member : entry ∈ insert entries key value) :
    entry = (key, value) ∨ entry ∈ entries := by
  induction entries with
  | nil => exact Or.inl (List.mem_singleton.1 member)
  | cons first rest induction_step =>
      obtain ⟨present, old⟩ := first
      by_cases same : present = key
      · rw [insert, if_pos same, same] at member
        exact (List.mem_cons.1 member).imp id (List.mem_cons_of_mem _)
      · rw [insert, if_neg same] at member
        rcases List.mem_cons.1 member with rfl | later
        · exact Or.inr List.mem_cons_self
        · exact (induction_step later).imp id (List.mem_cons_of_mem _)

theorem value_mem_insert (entries : Entries Value) (key : String) (value : Value) :
    value ∈ values (insert entries key value) := by
  induction entries with
  | nil => simp [insert, values]
  | cons entry rest induction_step =>
      obtain ⟨present, old⟩ := entry
      by_cases same : present = key
      · simp [insert, same, values]
      · simp only [insert, same, if_false]
        exact List.mem_cons_of_mem _ induction_step

theorem mem_values_of_get? {entries : Entries Value} {key : String} {value : Value}
    (found : get? entries key = some value) : value ∈ values entries := by
  obtain ⟨before, after, rfl, _⟩ := exists_split_of_get? found
  simp [values]

theorem erase_sublist (entries : Entries Value) (key : String) :
    (erase entries key).Sublist entries := by
  induction entries with
  | nil => exact List.Sublist.refl []
  | cons entry rest induction_step =>
      obtain ⟨present, old⟩ := entry
      by_cases same : present = key
      · simp [erase, same]
      · simpa [erase, same] using induction_step

theorem keys_erase_sublist (entries : Entries Value) (key : String) :
    (keys (erase entries key)).Sublist (keys entries) :=
  (erase_sublist entries key).map Prod.fst

/-- Writing under a key keeps every entry but the one that it replaces. -/
theorem mem_insert_or {entries : Entries Value} {entry : String × Value} (member : entry ∈ entries)
    (key : String) (value : Value) :
    entry ∈ insert entries key value ∨ get? entries key = some entry.2 := by
  cases found : get? entries key with
  | none =>
      rw [insert_of_not_mem ((get?_eq_none_iff entries key).1 found)]
      exact .inl (List.mem_append_left _ member)
  | some old =>
      obtain ⟨before, after, rfl, absent⟩ := exists_split_of_get? found
      rw [insert_of_split absent]
      grind

/-- Removing a key keeps every entry but the one that it removes. -/
theorem mem_erase_or {entries : Entries Value} {entry : String × Value} (member : entry ∈ entries)
    (key : String) : entry ∈ erase entries key ∨ get? entries key = some entry.2 := by
  cases found : get? entries key with
  | none =>
      rw [erase_of_not_mem ((get?_eq_none_iff entries key).1 found)]
      exact .inl member
  | some old =>
      obtain ⟨before, after, rfl, absent⟩ := exists_split_of_get? found
      rw [erase_of_split absent]
      grind

/-- A key that stands once is gone when it is removed. -/
theorem not_mem_keys_erase {entries : Entries Value} (distinct : (keys entries).Nodup)
    (key : String) : key ∉ keys (erase entries key) := by
  induction entries with
  | nil => simp [erase]
  | cons entry rest induction_step =>
      obtain ⟨present, old⟩ := entry
      obtain ⟨absent, rest_distinct⟩ := List.nodup_cons.1 distinct
      by_cases same : present = key
      · simpa [erase, same] using same ▸ absent
      · simp [erase, same, Ne.symm same, induction_step rest_distinct]

/-- Changing the values under a key changes nothing where the key is absent. -/
theorem map_if_of_not_mem {entries : Entries Value} {key : String} (absent : key ∉ keys entries)
    (change : Value → Value) :
    entries.map (fun entry => if entry.1 = key then (entry.1, change entry.2) else entry) =
      entries := by
  induction entries with
  | nil => rfl
  | cons entry rest induction_step =>
      simp only [keys_cons, List.mem_cons, not_or] at absent
      rw [List.map_cons, if_neg (Ne.symm absent.1), induction_step absent.2]

theorem map_if_of_split {before after : Entries Value} {key : String} {value : Value}
    (distinct : (keys (before ++ (key, value) :: after)).Nodup) (change : Value → Value) :
    (before ++ (key, value) :: after).map
        (fun entry => if entry.1 = key then (entry.1, change entry.2) else entry) =
      before ++ (key, change value) :: after := by
  simp only [keys, List.map_append, List.map_cons, List.nodup_append, List.nodup_cons] at distinct
  obtain ⟨_, ⟨absent_after, _⟩, apart⟩ := distinct
  have absent_before : key ∉ keys before := fun member =>
    apart key member key List.mem_cons_self rfl
  rw [List.map_append, List.map_cons, map_if_of_not_mem absent_before,
    map_if_of_not_mem absent_after, if_pos rfl]

theorem get?_append (before after : Entries Value) (key : String) :
    get? (before ++ after) key = (get? before key).or (get? after key) := by
  induction before with
  | nil => rfl
  | cons entry before induction_step =>
      obtain ⟨present, value⟩ := entry
      by_cases same : present = key <;> simp [get?, same, induction_step]

theorem get?_of_mem {entries : Entries Value} (distinct : (keys entries).Nodup) {key : String}
    {value : Value} (member : (key, value) ∈ entries) : get? entries key = some value := by
  obtain ⟨before, after, rfl⟩ := List.append_of_mem member
  refine get?_of_split (fun repeated => ?_) after value
  rw [keys, List.map_append, List.nodup_append] at distinct
  exact distinct.2.2 key repeated key List.mem_cons_self rfl

theorem mem_of_get? {entries : Entries Value} {key : String} {value : Value}
    (found : get? entries key = some value) : (key, value) ∈ entries := by
  obtain ⟨before, after, rfl, _⟩ := exists_split_of_get? found
  simp

theorem keys_map_values (change : Value → Other) (entries : Entries Value) :
    keys (entries.map fun entry => (entry.1, change entry.2)) = keys entries := by
  simp [keys, Function.comp_def]

end Entries

end VesselHub
