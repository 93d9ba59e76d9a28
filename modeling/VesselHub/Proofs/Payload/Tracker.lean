/-
Module: VesselHub.Proofs.Payload.Tracker
Purpose: What a tracker remembers, and what its deltas carry: every changed leaf under its context,
  source and time, and nothing else.
Main exports: Payload.Tracker.get?_remembering, Payload.Tracker.exists_of_remembering,
  Payload.Tracker.sent_of_mem_deltasOf, Payload.Tracker.mem_deltasOf_of_mem
-/
import Mathlib.Tactic.Tauto
import VesselHub.Payload.Tracker
import VesselHub.Proofs.Payload.Covered

namespace VesselHub.Payload.Tracker

/-! ### Memory -/

/-- One leaf for each full path. -/
def OneLeafEach (leaves : List CoveredLeaf) : Prop :=
  ∀ one ∈ leaves, ∀ other ∈ leaves, one.full.text = other.full.text → one.leaf = other.leaf

/-- Memory with one leaf more. -/
def remember (seen : List (String × Leaf)) (covered : CoveredLeaf) : List (String × Leaf) :=
  Entries.insert seen covered.full.text covered.leaf

private theorem exists_of_remembered (leaves : List CoveredLeaf) (seen : List (String × Leaf))
    {full : String} {leaf : Leaf}
    (found : Entries.get? (leaves.foldl remember seen) full = some leaf) :
    (∃ covered ∈ leaves, covered.full.text = full ∧ covered.leaf = leaf) ∨
      Entries.get? seen full = some leaf := by
  induction leaves generalizing seen with
  | nil => exact Or.inr found
  | cons first leaves induction_step =>
      rcases induction_step _ found with ⟨covered, member, same_full, same_leaf⟩ | before
      · exact Or.inl ⟨covered, List.mem_cons_of_mem _ member, same_full, same_leaf⟩
      · rw [remember] at before
        by_cases same : first.full.text = full
        · rw [same, Entries.get?_insert_self, Option.some.injEq] at before
          exact Or.inl ⟨first, List.mem_cons_self, same, before⟩
        · rw [Entries.get?_insert_of_ne seen first.leaf same] at before
          exact Or.inr before

/-- What is remembered at a path is one of the leaves. -/
theorem exists_of_remembering {leaves : List CoveredLeaf} {full : String} {leaf : Leaf}
    (found : Entries.get? (remembering leaves).seen full = some leaf) :
    ∃ covered ∈ leaves, covered.full.text = full ∧ covered.leaf = leaf :=
  (exists_of_remembered leaves [] found).resolve_right (by simp)

/-- Every leaf is remembered at its path. -/
theorem get?_remembering {leaves : List CoveredLeaf} (one_each : OneLeafEach leaves)
    {covered : CoveredLeaf} (member : covered ∈ leaves) :
    Entries.get? (remembering leaves).seen covered.full.text = some covered.leaf := by
  have some_leaf : ∀ (leaves : List CoveredLeaf) (seen : List (String × Leaf)),
      (∃ leaf, Entries.get? seen covered.full.text = some leaf) ∨ covered ∈ leaves →
        ∃ leaf, Entries.get? (leaves.foldl remember seen) covered.full.text = some leaf := by
    intro leaves
    induction leaves with
    | nil => exact fun seen either => either.resolve_right List.not_mem_nil
    | cons first leaves induction_step =>
        intro seen either
        apply induction_step
        rw [remember]
        by_cases same : first.full.text = covered.full.text
        · exact Or.inl ⟨first.leaf, by rw [same, Entries.get?_insert_self]⟩
        · rw [Entries.get?_insert_of_ne seen first.leaf same]
          apply either.imp id
          intro is_member
          rcases List.mem_cons.1 is_member with rfl | later
          · exact absurd rfl same
          · exact later
  obtain ⟨leaf, found⟩ := some_leaf leaves [] (Or.inr member)
  obtain ⟨other, other_mem, same_full, rfl⟩ := exists_of_remembering found
  rw [one_each covered member other other_mem same_full.symm]
  exact found

/-! ### Grouping -/

/-- Some update carries a value from a source and a time. -/
def InUpdates (updates : List Update) (source timestamp : Option String) (item : PathValue) :
    Prop :=
  ∃ update ∈ updates, update.sourceRef = source ∧ update.timestamp = timestamp ∧
    item ∈ update.values

/-- Some context has an update that carries a value from a source and a time. -/
def InContexts (contexts : List (Path × List Update)) (context : Path)
    (source timestamp : Option String) (item : PathValue) : Prop :=
  ∃ entry ∈ contexts, entry.1 = context ∧ InUpdates entry.2 source timestamp item

variable {covered : CoveredLeaf} {context : Path} {source timestamp : Option String}
  {item : PathValue}

theorem inUpdates_cons (update : Update) (updates : List Update) :
    InUpdates (update :: updates) source timestamp item ↔
      (update.sourceRef = source ∧ update.timestamp = timestamp ∧ item ∈ update.values) ∨
        InUpdates updates source timestamp item := by
  simp [InUpdates]

theorem inContexts_cons (entry : Path × List Update) (contexts : List (Path × List Update)) :
    InContexts (entry :: contexts) context source timestamp item ↔
      (entry.1 = context ∧ InUpdates entry.2 source timestamp item) ∨
        InContexts contexts context source timestamp item := by
  simp [InContexts]

theorem inUpdates_add (updates : List Update) :
    InUpdates (addToUpdates covered updates) source timestamp item ↔
      (covered.leaf.source = source ∧ covered.leaf.timestampText = timestamp ∧
        item = valueOf covered) ∨ InUpdates updates source timestamp item := by
  induction updates with
  | nil => simp [addToUpdates, InUpdates]
  | cons update updates induction_step =>
      rw [addToUpdates]
      split
      · rename_i same
        obtain ⟨same_source, same_time⟩ := same
        simp only [inUpdates_cons, List.mem_append, List.mem_singleton, same_source, same_time]
        tauto
      · rw [inUpdates_cons, inUpdates_cons, induction_step]
        tauto

theorem inContexts_add (contexts : List (Path × List Update)) :
    InContexts (addToContexts covered contexts) context source timestamp item ↔
      (covered.context = context ∧ covered.leaf.source = source ∧
        covered.leaf.timestampText = timestamp ∧ item = valueOf covered) ∨
      InContexts contexts context source timestamp item := by
  induction contexts with
  | nil =>
      simp only [addToContexts, inContexts_cons, inUpdates_add]
      simp [InUpdates, InContexts]
  | cons entry contexts induction_step =>
      obtain ⟨present, updates⟩ := entry
      rw [addToContexts]
      split
      · rename_i same
        simp only [inContexts_cons, inUpdates_add, same]
        tauto
      · rw [inContexts_cons, inContexts_cons, induction_step]
        tauto

/-- Grouping leaves neither loses nor invents a value. -/
theorem inContexts_foldl (leaves : List CoveredLeaf) (contexts : List (Path × List Update)) :
    InContexts (leaves.foldl (fun contexts covered => addToContexts covered contexts) contexts)
        context source timestamp item ↔
      (∃ covered ∈ leaves, covered.context = context ∧ covered.leaf.source = source ∧
        covered.leaf.timestampText = timestamp ∧ item = valueOf covered) ∨
      InContexts contexts context source timestamp item := by
  induction leaves generalizing contexts with
  | nil => simp
  | cons covered leaves induction_step =>
      rw [List.foldl_cons, induction_step, inContexts_add]
      simp only [List.mem_cons, exists_eq_or_imp]
      rw [or_left_comm, ← or_assoc]

/-- The updates name their sources and do not describe them. -/
def Named (updates : List Update) : Prop :=
  ∀ update ∈ updates, update.source = none

private theorem named_add {updates : List Update} (named : Named updates) (covered : CoveredLeaf) :
    Named (addToUpdates covered updates) := by
  induction updates with
  | nil => simp [Named, addToUpdates]
  | cons update updates induction_step =>
      simp only [Named, List.forall_mem_cons] at named induction_step ⊢
      rw [addToUpdates]
      split
      · exact List.forall_mem_cons.2 named
      · exact List.forall_mem_cons.2 ⟨named.1, induction_step named.2⟩

private theorem context_of_mem_add {contexts : List (Path × List Update)}
    {entry : Path × List Update} (member : entry ∈ addToContexts covered contexts) :
    entry.1 = covered.context ∨ ∃ before ∈ contexts, before.1 = entry.1 := by
  induction contexts with
  | nil =>
      rw [addToContexts, List.mem_singleton] at member
      exact Or.inl (by rw [member])
  | cons first contexts induction_step =>
      obtain ⟨present, updates⟩ := first
      rw [addToContexts] at member
      split at member
      · rcases List.mem_cons.1 member with rfl | later
        · exact Or.inr ⟨_, List.mem_cons_self, rfl⟩
        · exact Or.inr ⟨entry, List.mem_cons_of_mem _ later, rfl⟩
      · rcases List.mem_cons.1 member with rfl | later
        · exact Or.inr ⟨_, List.mem_cons_self, rfl⟩
        · refine (induction_step later).imp id fun ⟨before, before_mem, same⟩ => ?_
          exact ⟨before, List.mem_cons_of_mem _ before_mem, same⟩

private theorem named_addToContexts {contexts : List (Path × List Update)}
    (named : ∀ entry ∈ contexts, Named entry.2) (covered : CoveredLeaf) :
    ∀ entry ∈ addToContexts covered contexts, Named entry.2 := by
  induction contexts with
  | nil =>
      intro entry member
      rw [addToContexts, List.mem_singleton] at member
      rw [member]
      exact named_add (by simp [Named]) covered
  | cons entry contexts induction_step =>
      obtain ⟨present, updates⟩ := entry
      rw [List.forall_mem_cons] at named
      rw [addToContexts]
      split
      · exact List.forall_mem_cons.2 ⟨named_add named.1 covered, named.2⟩
      · exact List.forall_mem_cons.2 ⟨named.1, induction_step named.2⟩

private theorem named_foldl (leaves : List CoveredLeaf) (contexts : List (Path × List Update))
    (named : ∀ entry ∈ contexts, Named entry.2) :
    ∀ entry ∈ leaves.foldl (fun contexts covered => addToContexts covered contexts) contexts,
      Named entry.2 := by
  induction leaves generalizing contexts with
  | nil => exact named
  | cons covered leaves induction_step =>
      exact induction_step _ (named_addToContexts named covered)

private theorem context_of_mem_foldl (leaves : List CoveredLeaf)
    (contexts : List (Path × List Update)) {entry : Path × List Update}
    (member : entry ∈
      leaves.foldl (fun contexts covered => addToContexts covered contexts) contexts) :
    (∃ covered ∈ leaves, covered.context = entry.1) ∨
      ∃ before ∈ contexts, before.1 = entry.1 := by
  induction leaves generalizing contexts with
  | nil => exact Or.inr ⟨entry, member, rfl⟩
  | cons covered leaves induction_step =>
      rcases induction_step _ member with ⟨later, later_mem, same⟩ | ⟨before, before_mem, same⟩
      · exact Or.inl ⟨later, List.mem_cons_of_mem _ later_mem, same⟩
      · rcases context_of_mem_add before_mem with here | ⟨earlier, earlier_mem, same_context⟩
        · exact Or.inl ⟨covered, List.mem_cons_self, here.symm.trans same⟩
        · exact Or.inr ⟨earlier, earlier_mem, same_context.trans same⟩

/-- Every delta is about the context of a changed leaf. -/
theorem context_of_mem_deltasOf {leaves : List CoveredLeaf} {delta : Delta}
    (member : delta ∈ deltasOf leaves) :
    ∃ covered ∈ leaves, covered.context.text = delta.context := by
  obtain ⟨entry, entry_mem, rfl⟩ := List.mem_map.1 member
  obtain ⟨covered, covered_mem, same⟩ :=
    (context_of_mem_foldl leaves [] entry_mem).resolve_right (by simp)
  exact ⟨covered, covered_mem, by rw [same]⟩

/-- What a delta of changed leaves looks like. -/
theorem shape_of_mem_deltasOf {leaves : List CoveredLeaf} {delta : Delta}
    (member : delta ∈ deltasOf leaves) :
    delta.source = none ∧ delta.values = [] ∧ Named delta.updates := by
  obtain ⟨entry, entry_mem, rfl⟩ := List.mem_map.1 member
  exact ⟨rfl, rfl, named_foldl leaves [] (by simp) entry entry_mem⟩

/-- Every value of the deltas is that of a changed leaf, under its context, source and time. -/
theorem sent_of_mem_deltasOf {leaves : List CoveredLeaf} {delta : Delta} {update : Update}
    (member : delta ∈ deltasOf leaves) (is_update : update ∈ delta.updates)
    (is_value : item ∈ update.values) :
    ∃ covered ∈ leaves, covered.context.text = delta.context ∧
      covered.leaf.source = update.sourceRef ∧
      covered.leaf.timestampText = update.timestamp ∧ item = valueOf covered := by
  obtain ⟨entry, entry_mem, rfl⟩ := List.mem_map.1 member
  have carried : InContexts (leaves.foldl (fun contexts covered => addToContexts covered contexts)
      []) entry.1 update.sourceRef update.timestamp item :=
    ⟨entry, entry_mem, rfl, update, is_update, rfl, rfl, is_value⟩
  obtain ⟨covered, covered_mem, same_context, rest⟩ :=
    ((inContexts_foldl leaves []).1 carried).resolve_right (by simp [InContexts])
  exact ⟨covered, covered_mem, by rw [same_context], rest⟩

/-- Every changed leaf is carried by one of the deltas. -/
theorem mem_deltasOf_of_mem {leaves : List CoveredLeaf} (member : covered ∈ leaves) :
    ∃ delta ∈ deltasOf leaves, delta.context = covered.context.text ∧
      InUpdates delta.updates covered.leaf.source covered.leaf.timestampText (valueOf covered) := by
  obtain ⟨entry, entry_mem, same_context, in_updates⟩ :=
    (inContexts_foldl leaves []).2 (Or.inl ⟨covered, member, rfl, rfl, rfl, rfl⟩)
  exact ⟨_, List.mem_map_of_mem entry_mem, by rw [same_context], in_updates⟩

end VesselHub.Payload.Tracker
