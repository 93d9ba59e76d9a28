/-
Module: VesselHub.Proofs.Payload.Changes
Purpose: What a tracker sends over any history of calls: each covered leaf that the call before did
  not cover, or not with the same content, and nothing else.
Main exports: Payload.Call, Payload.Call.news, Payload.sent, Payload.Conveys, Payload.sent_conveys
-/
import VesselHub.Proofs.Json.Same
import VesselHub.Proofs.Model.Written
import VesselHub.Proofs.Payload.Full
import VesselHub.Proofs.Payload.Grouped
import VesselHub.Proofs.Payload.Tracker

namespace VesselHub

/-- The values of a delta, each with the context that its path is relative to. -/
def Delta.sent (delta : Delta) : List (String × Delta.Entry) :=
  delta.entries.map fun entry => (delta.context, entry)

namespace Payload

/-- The value of a leaf with its source and time, below its context. -/
def CoveredLeaf.sent (found : CoveredLeaf) : String × Delta.Entry :=
  (found.context.text, {
    item := Tracker.valueOf found
    sourceRef := found.leaf.source
    source := none
    timestamp := found.leaf.timestampText })

/-! ### Histories -/

/-- A call of a tracker: the model as it is then, with a context and a filter. -/
structure Call where
  model : Model
  context : String
  filter : Pattern

namespace Call

variable (call : Call)

def contexts : List Path :=
  Payload.contexts call.model.tree call.model.resolver call.context

def leaves : List CoveredLeaf :=
  covered call.model.tree call.model.resolver call.context call.filter

def render (tracker : Tracker) : List Delta × Tracker :=
  tracker.render call.model.tree call.model.resolver call.context call.filter

end Call

/-- The tracker after calls. -/
def trackerAfter (calls : List Call) : Tracker :=
  calls.foldl (fun tracker call => (call.render tracker).2) .fresh

/-- What a call sends that is made after others. -/
def sent (before : List Call) (call : Call) : List Delta :=
  (call.render (trackerAfter before)).1

/-- The last call did not cover the leaf, or another one at its path. -/
def IsNews (before : List Call) (found : CoveredLeaf) : Prop :=
  ∀ last ∈ before.getLast?, ∀ known ∈ last.leaves, known.full.text = found.full.text →
    known.leaf.same found.leaf = false

instance (before : List Call) (found : CoveredLeaf) : Decidable (IsNews before found) :=
  inferInstanceAs (Decidable (∀ last ∈ before.getLast?, ∀ _ ∈ last.leaves, _ → _))

/-- The covered leaves that are news after other calls. -/
def Call.news (call : Call) (before : List Call) : List CoveredLeaf :=
  call.leaves.filter fun found => IsNews before found

/-- Deltas convey leaves and nothing else. -/
structure Conveys (deltas : List Delta) (among : List Path) (leaves : List CoveredLeaf) : Prop where
  /-- Each leaf is sent below its context with its value, source and time. -/
  values : (deltas.flatMap Delta.sent).Perm (leaves.map CoveredLeaf.sent)
  /-- No two leaves have the same context and path. -/
  once : (leaves.map fun found => (found.context.text, found.relative)).Nodup
  /-- The contexts that have leaves have one delta each, in order. -/
  contexts : deltas.map Delta.context =
    (among.filter fun path => path ∈ leaves.map CoveredLeaf.context).map Path.text
  one_each : (deltas.map Delta.context).Nodup
  updates : ∀ delta ∈ deltas, delta.updates ≠ [] ∧
    (delta.updates.map fun update => (update.sourceRef, update.timestamp)).Nodup
  /-- The values of an update are those of its source and time, in the order of the leaves. -/
  in_order : ∀ delta ∈ deltas, ∀ update ∈ delta.updates, update.values ≠ [] ∧
    update.values = (leaves.filter fun found => found.context.text = delta.context ∧
      found.leaf.source = update.sourceRef ∧
      found.leaf.timestampText = update.timestamp).map Tracker.valueOf

/-! ### What the tracker remembers -/

private theorem trackerAfter_concat (before : List Call) (last : Call) :
    trackerAfter (before ++ [last]) = Tracker.remembering last.leaves := by
  rw [trackerAfter, List.foldl_append]
  rfl

variable {tree : Tree} {resolver : Resolver} {context : String} {filter : Pattern}

/-- The full paths of covered leaves are different. -/
theorem nodup_full_text (canonical : tree.Canonical) :
    ((covered tree resolver context filter).map fun found => found.full.text).Nodup := by
  refine List.pairwise_map.2 ((apart_covered canonical).imp fun apart same => apart.1 ?_)
  exact ⟨[], (List.append_nil _).trans (full_segments_of_text same)⟩

private theorem oneLeafEach (canonical : tree.Canonical) :
    Tracker.OneLeafEach (covered tree resolver context filter) :=
  fun _ has_one _ has_other same =>
    congrArg _ (List.inj_on_of_nodup_map (nodup_full_text canonical) has_one has_other same)

/-- A leaf counts as changed if it is news. -/
theorem isChanged_iff {before : List Call}
    (canonical : ∀ last ∈ before.getLast?, last.model.IsCanonical) (found : CoveredLeaf) :
    (trackerAfter before).isChanged found = true ↔ IsNews before found := by
  rcases List.eq_nil_or_concat' before with rfl | ⟨front, last, rfl⟩
  · exact ⟨fun _ => nofun, fun _ => rfl⟩
  · have one_each : Tracker.OneLeafEach last.leaves :=
      oneLeafEach (canonical last (by simp)).tree
    rw [trackerAfter_concat, Tracker.isChanged]
    simp only [IsNews, List.getLast?_concat, Option.mem_some_iff, forall_eq']
    cases get_eq : Entries.get? (Tracker.remembering last.leaves).seen found.full.text with
    | none =>
        refine ⟨fun _ known member same => ?_, fun _ => rfl⟩
        rw [← same, Tracker.get?_remembering one_each member] at get_eq
        cases get_eq
    | some remembered =>
        obtain ⟨known, member, same_path, rfl⟩ := Tracker.exists_of_remembering get_eq
        rw [Bool.not_eq_true']
        constructor
        · intro differs other other_mem same
          rw [one_each other other_mem known member (same.trans same_path.symm)]
          exact differs
        · exact fun news => news known member same_path

theorem sent_eq_deltasOf {before : List Call}
    (canonical : ∀ last ∈ before.getLast?, last.model.IsCanonical) (call : Call) :
    sent before call = Tracker.deltasOf (call.news before) := by
  have changes : (trackerAfter before).changes call.leaves = call.news before :=
    List.filter_congr fun found _ => by
      rw [Bool.eq_iff_iff, isChanged_iff canonical, decide_eq_true_iff]
  rw [← changes]
  rfl

/-! ### What the deltas carry -/

theorem text_injective_on_contexts (canonical : tree.Canonical) {one other : Path}
    (has_one : one ∈ contexts tree resolver context)
    (has_other : other ∈ contexts tree resolver context) (same : one.text = other.text) :
    one = other := by
  have segments := congrArg Path.segmentsOf same
  rw [Path.text, Path.text, Path.segmentsOf_dotted, Path.segmentsOf_dotted] at segments
  exact (contexts_unique canonical.plain has_one has_other (congrArg (· ++ []) segments)).1

/-- The values of one context are those of its leaves. -/
theorem sent_deltaOf_perm {path : Path} {leaves : List CoveredLeaf}
    (below : ∀ found ∈ leaves, found.context = path) :
    (Tracker.deltaOf path leaves).sent.Perm (leaves.map CoveredLeaf.sent) := by
  have flat : (Tracker.deltaOf path leaves).sent =
      (Tracker.updatesOf leaves).flatMap fun update =>
        update.entries.map fun entry => (path.text, entry) := by
    rw [Delta.sent, Delta.entries, Tracker.deltaOf, List.map_nil, List.nil_append,
      List.map_flatMap]
  rw [flat, Tracker.updatesOf]
  refine flatMap_grouped_perm fun stamp part of_stamp => .of_eq ?_
  rw [Update.entries, Tracker.updateOf, List.map_map, List.map_map]
  refine List.map_congr_left fun found member => ?_
  obtain ⟨is_leaf, rfl⟩ := of_stamp found member
  rw [CoveredLeaf.sent, below found is_leaf]
  rfl

theorem sent_deltasOf_perm (leaves : List CoveredLeaf) :
    ((Tracker.deltasOf leaves).flatMap Delta.sent).Perm (leaves.map CoveredLeaf.sent) := by
  rw [Tracker.deltasOf_eq_grouped]
  exact flatMap_grouped_perm fun path part below =>
    sent_deltaOf_perm fun found member => (below found member).2

/-- Leaves are put together below the contexts that they come from, in the order of the contexts. -/
theorem contexts_deltasOf (canonical : tree.Canonical) (wanted : CoveredLeaf → Bool) :
    let leaves := (covered tree resolver context filter).filter wanted
    (Tracker.deltasOf leaves).map Delta.context = ((contexts tree resolver context).filter
      fun path => path ∈ leaves.map CoveredLeaf.context).map Path.text := by
  intro leaves
  have in_runs : leaves = (contexts tree resolver context).flatMap fun path =>
      (coveredBelow tree resolver filter path).filter wanted := by
    rw [show leaves = (covered tree resolver context filter).filter wanted from rfl,
      covered_eq_flatMap, List.filter_flatMap]
  have context_eq : ∀ path ∈ contexts tree resolver context,
      ∀ found ∈ (coveredBelow tree resolver filter path).filter wanted,
        found.context = path :=
    fun path _ found member => context_of_mem_coveredBelow (List.mem_filter.1 member).1
  rw [Tracker.deltasOf_eq_grouped, map_grouped Delta.context Path.text fun _ _ => rfl]
  congr 1
  rw [in_runs, eraseDups_flatMap (nodup_contexts canonical) context_eq]
  refine List.filter_congr fun path is_context => ?_
  rw [Bool.eq_iff_iff, decide_eq_true_iff, Bool.not_eq_true', List.isEmpty_eq_false_iff_exists_mem,
    List.mem_map]
  constructor
  · rintro ⟨found, member⟩
    exact ⟨found, List.mem_flatMap.2 ⟨path, is_context, member⟩,
      context_eq path is_context found member⟩
  · rintro ⟨found, member, rfl⟩
    obtain ⟨path, path_mem, below⟩ := List.mem_flatMap.1 member
    rw [← context_eq path path_mem found below] at below
    exact ⟨found, below⟩

/-- No two covered leaves have the same context and the same path below it. -/
private theorem nodup_context_relative (canonical : tree.Canonical) (wanted : CoveredLeaf → Bool) :
    (((covered tree resolver context filter).filter wanted).map fun found =>
      (found.context.text, found.relative)).Nodup := by
  have paths : (((covered tree resolver context filter).filter wanted).map fun found =>
      found.full.text).Nodup :=
    (nodup_full_text canonical).sublist (List.filter_sublist.map _)
  refine List.pairwise_map.2 ((List.pairwise_map.1 paths).imp fun differ same => differ ?_)
  rw [Prod.mk.injEq] at same
  rw [← full_text_join, ← full_text_join, same.1, same.2]

/-- The updates of a delta have different sources or times. -/
theorem updates_of_mem_deltasOf {leaves : List CoveredLeaf} {delta : Delta}
    (member : delta ∈ Tracker.deltasOf leaves) : delta.updates ≠ [] ∧
      (delta.updates.map fun update => (update.sourceRef, update.timestamp)).Nodup := by
  rw [Tracker.deltasOf_eq_grouped] at member
  obtain ⟨found, found_mem, rfl⟩ := mem_grouped.1 member
  have of_context : found ∈ leaves.filter fun other => other.context = found.context :=
    List.mem_filter.2 ⟨found_mem, decide_eq_true rfl⟩
  exact ⟨List.ne_nil_of_mem (mem_grouped.2 ⟨found, of_context, rfl⟩), Tracker.nodup_stamps _⟩

/-- An update has the values of the leaves with its context, source and time. -/
theorem values_of_mem_updates (canonical : tree.Canonical) {leaves : List CoveredLeaf}
    (is_context : ∀ found ∈ leaves, found.context ∈ contexts tree resolver context)
    {delta : Delta} (member : delta ∈ Tracker.deltasOf leaves) {update : Update}
    (is_update : update ∈ delta.updates) : update.values ≠ [] ∧
      update.values = (leaves.filter fun found => found.context.text = delta.context ∧
        found.leaf.source = update.sourceRef ∧
        found.leaf.timestampText = update.timestamp).map Tracker.valueOf := by
  rw [Tracker.deltasOf_eq_grouped] at member
  obtain ⟨found, found_mem, rfl⟩ := mem_grouped.1 member
  obtain ⟨other, other_mem, rfl⟩ := mem_grouped.1 is_update
  have of_stamp : other ∈ (leaves.filter fun another => another.context = found.context).filter
      fun another => Tracker.stampOf another = Tracker.stampOf other :=
    List.mem_filter.2 ⟨other_mem, decide_eq_true rfl⟩
  refine ⟨List.ne_nil_of_mem (List.mem_map_of_mem of_stamp), ?_⟩
  rw [Tracker.updateOf, Tracker.deltaOf, List.filter_filter]
  refine congrArg _ (List.filter_congr fun another another_mem => ?_)
  have same_text : another.context.text = found.context.text ↔
      another.context = found.context :=
    ⟨text_injective_on_contexts canonical (is_context another another_mem)
      (is_context found found_mem), congrArg Path.text⟩
  rw [Bool.eq_iff_iff]
  simp only [Bool.and_eq_true, decide_eq_true_eq, same_text, Tracker.stampOf, Prod.mk.injEq]
  exact and_comm

/-- The deltas of some of the covered leaves convey these leaves. -/
theorem conveys_deltasOf (canonical : tree.Canonical) (wanted : CoveredLeaf → Bool) :
    let leaves := (covered tree resolver context filter).filter wanted
    Conveys (Tracker.deltasOf leaves) (contexts tree resolver context) leaves := by
  intro leaves
  have is_context : ∀ found ∈ leaves, found.context ∈ contexts tree resolver context :=
    fun found member => (mem_covered.1 (List.mem_filter.1 member).1).1
  have contexts_eq : (Tracker.deltasOf leaves).map Delta.context =
      ((contexts tree resolver context).filter
        fun path => path ∈ leaves.map CoveredLeaf.context).map Path.text :=
    contexts_deltasOf canonical wanted
  have one_each : ((Tracker.deltasOf leaves).map Delta.context).Nodup := by
    rw [contexts_eq]
    refine ((nodup_contexts canonical).filter _).map_on fun one one_mem other other_mem => ?_
    exact text_injective_on_contexts canonical (List.mem_filter.1 one_mem).1
      (List.mem_filter.1 other_mem).1
  exact {
    values := sent_deltasOf_perm leaves
    once := nodup_context_relative canonical wanted
    contexts := contexts_eq
    one_each := one_each
    updates := fun _ => updates_of_mem_deltasOf
    in_order := fun _ member _ => values_of_mem_updates canonical is_context member }

/-! ### Histories of calls -/

private theorem same_self {found : CoveredLeaf} (distinct : found.leaf.value.HasDistinctKeys) :
    found.leaf.same found.leaf = true := by
  simp [Leaf.same, Json.same_refl distinct]

/-- A call sends the covered leaves that are news after the calls before it, and nothing else.
Called again at once it sends nothing, unless a value repeats a key of an object, which no document
does. A leaf that was gone in between is sent again. -/
theorem sent_conveys {before : List Call} {call : Call}
    (canonical : ∀ other ∈ before ++ [call], other.model.IsCanonical) :
    Conveys (sent before call) call.contexts (call.news before) ∧
      ((∀ found ∈ call.leaves, found.leaf.value.HasDistinctKeys) →
        sent (before ++ [call]) call = []) ∧
      ∀ without : Call, without.model.IsCanonical → ∀ found ∈ call.leaves,
        (∀ known ∈ without.leaves, known.full.text ≠ found.full.text) →
          found.sent ∈ (sent (before ++ [call, without]) call).flatMap Delta.sent := by
  have call_canonical := canonical call (List.mem_append_right _ List.mem_cons_self)
  refine ⟨?_, fun distinct => ?_, fun without without_canonical found member gone => ?_⟩
  · rw [sent_eq_deltasOf fun last is_last =>
      canonical last (List.mem_append_left _ (List.mem_of_getLast? is_last))]
    exact conveys_deltasOf call_canonical.tree _
  · have no_news : call.news (before ++ [call]) = [] := by
      refine List.filter_eq_nil_iff.2 fun found member news => ?_
      have differs := of_decide_eq_true news call (by simp) found member rfl
      rw [same_self (distinct found member)] at differs
      cases differs
    rw [sent_eq_deltasOf (by simpa using call_canonical), no_news]
    rfl
  · rw [sent_eq_deltasOf (by simpa using without_canonical)]
    have is_news : found ∈ call.news (before ++ [call, without]) := by
      refine List.mem_filter.2 ⟨member, decide_eq_true ?_⟩
      intro last is_last known known_mem same
      rw [List.getLast?_append, Option.mem_def] at is_last
      cases is_last
      exact absurd same (gone known known_mem)
    exact (sent_deltasOf_perm _).mem_iff.2 (List.mem_map_of_mem is_news)

/-- The vessels of the anchorage when the local one has left it. -/
def departure : List Operation :=
  anchorage ++ [.merge (.object [
    ("vessels", .object [("self", .object [("speed", .object [("value", .ofNat 6)])])])])]

private theorem isCanonical_departure : (Model.run "gull" departure).IsCanonical :=
  have valid : Model.gullSettings.validate = .ok () := rfl
  Model.isCanonical_run valid (by decide +kernel) (by decide +kernel)

/-- A call for everything that is known of all vessels. -/
def callAfter (operations : List Operation) : Call where
  model := (Model.run "gull" operations).safe
  context := "vessels.*"
  filter := ⟨"*", [.wildcard]⟩

private theorem isCanonical_callAfter {operations : List Operation}
    (canonical : (Model.run "gull" operations).IsCanonical) :
    (callAfter operations).model.IsCanonical :=
  canonical.safe

/-- The new speed is sent, and the other leaves are not. -/
theorem departure_conveys :
    (∀ other ∈ [callAfter anchorage] ++ [callAfter departure], other.model.IsCanonical) ∧
      Conveys (sent [callAfter anchorage] (callAfter departure)) (callAfter departure).contexts
        ((callAfter departure).news [callAfter anchorage]) ∧
      ((callAfter departure).news [callAfter anchorage]).map (fun found => found.full.text) =
        ["vessels.gull.speed"] := by
  have canonical : ∀ other ∈ [callAfter anchorage] ++ [callAfter departure],
      other.model.IsCanonical := by
    intro other member
    rw [List.singleton_append, List.mem_cons, List.mem_singleton] at member
    rcases member with rfl | rfl
    · exact isCanonical_callAfter isCanonical_anchorage
    · exact isCanonical_callAfter isCanonical_departure
  exact ⟨canonical, (sent_conveys canonical).1, by decide +kernel⟩

end Payload

end VesselHub
