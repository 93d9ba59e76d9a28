/-
Module: VesselHub.Proofs.Payload.Grouped
Purpose: The deltas of changed leaves in closed form: one for each context in the order in which the
  contexts come up, and in it one update for each source and time, in that order too.
Main exports: grouped, mem_grouped, flatMap_grouped_perm, Payload.Tracker.deltaOf,
  Payload.Tracker.deltasOf_eq_grouped
-/
import Mathlib.Data.List.Nodup
import Mathlib.Data.List.Perm.Basic
import VesselHub.Payload.Tracker

namespace VesselHub

/-! ### Groups in the order in which their keys come up -/

section Grouped

variable {Item Key Group Out : Type} [DecidableEq Key] {key : Item → Key}
  {make : Key → List Item → Group}

/-- Items put together by their keys, in the order in which the keys come up. -/
def grouped (key : Item → Key) (make : Key → List Item → Group) (items : List Item) : List Group :=
  (items.map key).eraseDups.map fun wanted =>
    make wanted (items.filter fun item => key item = wanted)

/-- Puts something into the first group that takes it, or into a new one behind the others. -/
def addTo (takes : Group → Prop) [DecidablePred takes] (grow : Group → Group) (new : Group) :
    List Group → List Group
  | [] => [new]
  | group :: groups =>
      if takes group then grow group :: groups else group :: addTo takes grow new groups

theorem nodup_eraseDups (keys : List Key) : keys.eraseDups.Nodup := by
  cases keys with
  | nil => exact List.nodup_nil
  | cons first keys =>
      rw [List.eraseDups_cons, List.nodup_cons, List.mem_eraseDups]
      exact ⟨by simp, nodup_eraseDups _⟩
termination_by keys.length
decreasing_by exact Nat.lt_succ_of_le (List.length_filter_le _ _)

private theorem eraseDups_concat (keys : List Key) (last : Key) : (keys ++ [last]).eraseDups =
    if last ∈ keys.eraseDups then keys.eraseDups else keys.eraseDups ++ [last] := by
  by_cases present : last ∈ keys
  · rw [if_pos (List.mem_eraseDups.2 present), List.eraseDups_append]
    simp [List.removeAll, present]
  · rw [if_neg (mt List.mem_eraseDups.1 present), List.eraseDups_append]
    simp [List.removeAll, List.eraseDups_cons, present]

private theorem addTo_map {keys : List Key} (distinct : keys.Nodup) {before after : Key → Group}
    {wanted : Key} {takes : Group → Prop} [DecidablePred takes] {grow : Group → Group} {new : Group}
    (takes_iff : ∀ other, takes (before other) ↔ other = wanted)
    (grow_eq : grow (before wanted) = after wanted) (new_eq : wanted ∉ keys → new = after wanted)
    (unmoved : ∀ other, other ≠ wanted → before other = after other) :
    addTo takes grow new (keys.map before) =
      (if wanted ∈ keys then keys else keys ++ [wanted]).map after := by
  induction keys with
  | nil => simp [addTo, new_eq]
  | cons first keys induction_step =>
      rw [List.nodup_cons] at distinct
      rw [List.map_cons, addTo]
      by_cases same : first = wanted
      · subst same
        have others : keys.map before = keys.map after :=
          List.map_congr_left fun other member => unmoved other fun same =>
            distinct.1 (same ▸ member)
        rw [if_pos ((takes_iff first).2 rfl), if_pos List.mem_cons_self, grow_eq, others,
          List.map_cons]
      · rw [if_neg (mt (takes_iff first).1 same), unmoved first same,
          induction_step distinct.2 fun absent => new_eq (by simp [Ne.symm same, absent])]
        by_cases present : wanted ∈ keys <;> simp [present, Ne.symm same]

/-- One item more joins the group of its key. -/
theorem addTo_grouped (items : List Item) (item : Item) {takes : Group → Prop}
    [DecidablePred takes] {grow : Group → Group} {new : Group}
    (takes_iff : ∀ wanted part, takes (make wanted part) ↔ wanted = key item)
    (grow_eq : ∀ part, grow (make (key item) part) = make (key item) (part ++ [item]))
    (new_eq : new = make (key item) [item]) :
    addTo takes grow new (grouped key make items) = grouped key make (items ++ [item]) := by
  rw [grouped, grouped, List.map_append, List.map_singleton, eraseDups_concat]
  refine addTo_map (nodup_eraseDups _) (fun other => takes_iff other _) ?_ ?_ ?_
  · rw [grow_eq, List.filter_append, List.filter_singleton, decide_eq_true rfl]
    rfl
  · intro absent
    rw [List.mem_eraseDups, List.mem_map] at absent
    have none_before : items.filter (fun other => key other = key item) = [] :=
      List.filter_eq_nil_iff.2 fun other member same =>
        absent ⟨other, member, of_decide_eq_true same⟩
    rw [new_eq, List.filter_append, none_before]
    simp
  · intro other differs
    rw [List.filter_append, List.filter_singleton, decide_eq_false (Ne.symm differs)]
    simp

theorem mem_grouped {items : List Item} {group : Group} : group ∈ grouped key make items ↔
    ∃ item ∈ items, group = make (key item) (items.filter fun other => key other = key item) := by
  simp only [grouped, List.mem_map, List.mem_eraseDups]
  constructor
  · rintro ⟨_, ⟨item, member, rfl⟩, rfl⟩
    exact ⟨item, member, rfl⟩
  · rintro ⟨item, member, rfl⟩
    exact ⟨_, ⟨item, member, rfl⟩, rfl⟩

theorem map_grouped (name : Group → Out) (label : Key → Out)
    (named : ∀ wanted part, name (make wanted part) = label wanted) (items : List Item) :
    (grouped key make items).map name = (items.map key).eraseDups.map label := by
  rw [grouped, List.map_map]
  exact List.map_congr_left fun wanted _ => named wanted _

/-- Groups that are named by their keys have different names. -/
theorem nodup_names {name : Group → Key}
    (named : ∀ wanted part, name (make wanted part) = wanted) (items : List Item) :
    ((grouped key make items).map name).Nodup := by
  rw [map_grouped name (fun wanted => wanted) named, List.map_id']
  exact nodup_eraseDups _

/-- The groups together have every item once. -/
private theorem flatMap_filter_perm (key : Item → Key) (items : List Item) :
    ((items.map key).eraseDups.flatMap fun wanted =>
      items.filter fun item => key item = wanted).Perm items := by
  cases items with
  | nil => exact List.Perm.nil
  | cons first items =>
      -- The first key takes its items; the others are grouped among themselves.
      let others := items.filter fun item => !decide (key item = key first)
      have other_keys : ((items.map key).filter fun other => !other == key first) =
          others.map key := List.filter_map
      have other_groups : ∀ wanted ∈ (others.map key).eraseDups,
          ((first :: items).filter fun item => key item = wanted) =
            others.filter fun item => key item = wanted := by
        intro wanted member
        obtain ⟨item, item_mem, rfl⟩ := List.mem_map.1 (List.mem_eraseDups.1 member)
        have differs : key item ≠ key first := by simpa using (List.mem_filter.1 item_mem).2
        rw [List.filter_cons_of_neg (by simpa using differs.symm), List.filter_filter]
        refine List.filter_congr fun other _ => ?_
        by_cases same : key other = key item <;> simp [same, differs]
      rw [List.map_cons, List.eraseDups_cons, List.flatMap_cons, other_keys,
        List.flatMap_congr other_groups, List.filter_cons_of_pos (by simp), List.cons_append]
      have rest := flatMap_filter_perm key others
      exact ((rest.append_left _).trans (List.filter_append_perm _ items)).cons first
termination_by items.length
decreasing_by exact Nat.lt_succ_of_le (List.length_filter_le _ _)

/-- What the groups yield is what their items yield, if each group does. -/
theorem flatMap_grouped_perm {items : List Item} {yield : Group → List Out} {each : Item → Out}
    (yields : ∀ wanted part, (∀ item ∈ part, item ∈ items ∧ key item = wanted) →
      (yield (make wanted part)).Perm (part.map each)) :
    ((grouped key make items).flatMap yield).Perm (items.map each) := by
  rw [grouped, List.flatMap_map]
  have parts : ((items.map key).eraseDups.flatMap fun wanted =>
      yield (make wanted (items.filter fun item => key item = wanted))).Perm
        ((items.map key).eraseDups.flatMap fun wanted =>
          (items.filter fun item => key item = wanted).map each) :=
    List.Perm.flatMap_left _ fun wanted _ => yields wanted _ fun item member => by
      simpa using member
  rw [← List.map_flatMap] at parts
  exact parts.trans ((flatMap_filter_perm key items).map each)

/-- Items that come in runs are grouped in the order of the runs. -/
theorem eraseDups_flatMap {Run : Type} [DecidableEq Run] {runs : List Run} (distinct : runs.Nodup)
    {itemsOf : Run → List Item} {runOf : Item → Run}
    (runOf_eq : ∀ run ∈ runs, ∀ item ∈ itemsOf run, runOf item = run) :
    ((runs.flatMap itemsOf).map runOf).eraseDups =
      runs.filter fun run => !(itemsOf run).isEmpty := by
  induction runs with
  | nil => rfl
  | cons run runs induction_step =>
      rw [List.nodup_cons] at distinct
      rw [List.forall_mem_cons] at runOf_eq
      have later : ∀ other ∈ (runs.flatMap itemsOf).map runOf, other ≠ run := by
        intro other member same
        obtain ⟨item, item_mem, rfl⟩ := List.mem_map.1 member
        obtain ⟨home, home_mem, in_home⟩ := List.mem_flatMap.1 item_mem
        rw [runOf_eq.2 home home_mem item in_home] at same
        exact distinct.1 (same ▸ home_mem)
      rw [List.flatMap_cons, List.map_append, List.filter_cons,
        ← induction_step distinct.2 runOf_eq.2]
      cases items_eq : itemsOf run with
      | nil => rfl
      | cons item items =>
          rw [items_eq, List.forall_mem_cons] at runOf_eq
          have same_run : (items.map runOf).filter (fun other => !other == run) = [] := by
            rw [List.filter_eq_nil_iff, List.forall_mem_map]
            intro other member
            simp [runOf_eq.1.2 other member]
          have other_runs : ((runs.flatMap itemsOf).map runOf).filter (fun other => !other == run) =
              (runs.flatMap itemsOf).map runOf :=
            List.filter_eq_self.2 fun other member => by simp [later other member]
          rw [List.map_cons, runOf_eq.1.1, List.cons_append, List.eraseDups_cons,
            List.filter_append, same_run, other_runs]
          rfl

end Grouped

/-! ### Deltas -/

namespace Payload.Tracker

/-- The source and the time that a leaf is sent with. -/
def stampOf (found : CoveredLeaf) : Option String × Option String :=
  (found.leaf.source, found.leaf.timestampText)

/-- The update with the values of leaves of one source and time. -/
def updateOf (stamp : Option String × Option String) (leaves : List CoveredLeaf) : Update where
  sourceRef := stamp.1
  source := none
  timestamp := stamp.2
  values := leaves.map valueOf

/-- The updates with the values of leaves below one context. -/
def updatesOf (leaves : List CoveredLeaf) : List Update :=
  grouped stampOf updateOf leaves

/-- The delta with the values of leaves below one context. -/
def deltaOf (context : Path) (leaves : List CoveredLeaf) : Delta where
  context := context.text
  source := none
  values := []
  updates := updatesOf leaves

theorem addToUpdates_eq_addTo (found : CoveredLeaf) (updates : List Update) :
    addToUpdates found updates = addTo
      (fun update => update.sourceRef = found.leaf.source ∧
        update.timestamp = found.leaf.timestampText)
      (fun update => { update with values := update.values ++ [valueOf found] })
      (updateOf (stampOf found) [found]) updates := by
  induction updates with
  | nil => rfl
  | cons update updates induction_step => rw [addToUpdates, addTo, induction_step]

theorem addToUpdates_updatesOf (found : CoveredLeaf) (leaves : List CoveredLeaf) :
    addToUpdates found (updatesOf leaves) = updatesOf (leaves ++ [found]) := by
  rw [addToUpdates_eq_addTo]
  refine addTo_grouped leaves found (fun stamp part => ?_) (fun part => ?_) rfl
  · rw [Prod.ext_iff]
    rfl
  · rw [updateOf, updateOf, List.map_append]
    rfl

/-- No two updates have the same source and time. -/
theorem nodup_stamps (leaves : List CoveredLeaf) :
    ((updatesOf leaves).map fun update => (update.sourceRef, update.timestamp)).Nodup :=
  nodup_names (fun _ _ => rfl) leaves

theorem addToContexts_eq_addTo (found : CoveredLeaf) (contexts : List (Path × List Update)) :
    addToContexts found contexts = addTo (fun entry => entry.1 = found.context)
      (fun entry => (entry.1, addToUpdates found entry.2)) (found.context, updatesOf [found])
      contexts := by
  induction contexts with
  | nil => rw [addToContexts, addTo, ← List.nil_append [found], ← addToUpdates_updatesOf]; rfl
  | cons entry contexts induction_step => rw [addToContexts, addTo, induction_step]

theorem addToContexts_grouped (found : CoveredLeaf) (leaves : List CoveredLeaf) :
    addToContexts found
        (grouped CoveredLeaf.context (fun context part => (context, updatesOf part)) leaves) =
      grouped CoveredLeaf.context (fun context part => (context, updatesOf part))
        (leaves ++ [found]) := by
  rw [addToContexts_eq_addTo]
  refine addTo_grouped leaves found (fun _ _ => Iff.rfl) (fun part => ?_) rfl
  rw [addToUpdates_updatesOf]

/-- There is one delta for each context and, in it, one update for each source and time. -/
theorem deltasOf_eq_grouped (leaves : List CoveredLeaf) :
    deltasOf leaves = grouped CoveredLeaf.context deltaOf leaves := by
  have contexts : ∀ earlier : List CoveredLeaf,
      leaves.foldl (fun contexts found => addToContexts found contexts)
          (grouped CoveredLeaf.context (fun context part => (context, updatesOf part)) earlier) =
        grouped CoveredLeaf.context (fun context part => (context, updatesOf part))
          (earlier ++ leaves) := by
    induction leaves with
    | nil => simp
    | cons found leaves induction_step =>
        intro earlier
        rw [List.foldl_cons, addToContexts_grouped, induction_step, List.append_assoc]
        rfl
  have from_none := contexts []
  rw [deltasOf, show ([] : List (Path × List Update)) = grouped CoveredLeaf.context
    (fun context part => (context, updatesOf part)) [] from rfl, from_none, List.nil_append,
    grouped, grouped, List.map_map]
  rfl

end Payload.Tracker

end VesselHub
