/-
Module: VesselHub.Proofs.Model.Noninterference
Purpose: Private branches do not show. Models that look alike without their private branches give
  the same answers to every request, however their nodes lie in the slots, and what is written or
  deleted inside private branches leaves a model that looks alike.
Main exports: Model.Alike, Hub.answers, Model.answersByNodes, Payload.Tracker.emits,
  Operation.StaysPrivate, Model.KeepsPrivate, Model.alike_perform, Hub.noninterference
-/
import VesselHub.Proofs.Model.Reading
import VesselHub.Proofs.Tree.Private

namespace VesselHub

/-- Everything that can be asked about a model. -/
structure Answers where
  get : GetRequest → Json
  list : ListRequest → PathList
  full : String → Pattern → Option Json
  document : Json
  branch : String → Option Json

/-- What a hub answers. -/
def Hub.answers (hub : Hub) : Answers where
  get := hub.get
  list := hub.list
  full := Payload.full? hub.model.tree.safe hub.model.resolver
  document := hub.apiDocument
  branch := hub.apiBranch?

/-- What is read in the slots of a copy without private branches. -/
def Model.answersByNodes (model : Model) : Answers where
  get := ByNodes.get model.safe
  list := ByNodes.list model.safe
  full := ByNodes.full? model.safe
  document := model.safe.documentAt model.safe.root
  branch := ByNodes.branch? model.safe

namespace Payload.Tracker

/-- The payloads that a tracker emits for models one after the other. -/
def emits (context : String) (filter : Pattern) : Tracker → List Model → List (List Json)
  | _, [] => []
  | tracker, model :: models =>
      let rendered := tracker.render model.tree.safe model.resolver context filter
      rendered.1.map Delta.encode :: emits context filter rendered.2 models

/-- The same, read in the slots of copies without private branches. -/
def emitsByNodes (context : String) (filter : Pattern) : Tracker → List Model → List (List Json)
  | _, [] => []
  | tracker, model :: models =>
      let rendered := ByNodes.render tracker model.safe context filter
      rendered.1.map Delta.encode :: emitsByNodes context filter rendered.2 models

end Payload.Tracker

namespace Model

/-- The model is what operations have made of the model of a hub. -/
def Reached (model : Model) : Prop :=
  ∃ id operations, model = run id operations

/-- Models that have the same local vessel and look alike without their private branches. -/
structure Alike (one other : Model) : Prop where
  one_reached : one.Reached
  other_reached : other.Reached
  resolver : one.resolver = other.resolver
  safe : one.safe.tree = other.safe.tree

/-- A node stands in a private branch. -/
def Hides (model : Model) (node : NodeId) : Prop :=
  ∃ keys, model.walk? model.root keys = some node ∧ keys.any Path.isPrivateKey = true

/-- The values of a delta are written inside private branches. -/
def DeltaStaysPrivate (model : Model) (delta : Delta) : Prop :=
  let context := (model.resolver.resolve (model.resolver.resolve delta.context).raw).segments
  model.tree.Opens context ∧
    ∀ batch ∈ delta.batches, ∀ accepted ∈ batch.accepted, model.tree.LeadsPrivate
      (context ++ ((model.resolver.pathBelow context accepted.branch).segments ++ [accepted.key]))

end Model

/-- An operation writes or deletes inside private branches. A path that is written has to lead
there through objects that exist, since anything else on its way would be replaced. -/
def Operation.StaysPrivate (model : Model) : Operation → Prop
  | .addNode start _ => model.Hides start
  | .addPath path => model.tree.LeadsPrivate (model.resolver.resolve path).segments
  | .put node _ _ _ _ => model.Hides node
  | .merge document => model.tree.MergesDocumentPrivately model.resolver document
  | .mergeAt path key _ =>
      model.tree.LeadsPrivate ((model.resolver.resolve path).segments ++ [key])
  | .mergeAtFull path document =>
      let resolved := model.resolver.resolve path
      match resolved.last? with
      | some key => model.tree.LeadsPrivate
          ((model.resolver.resolve resolved.parent.raw).segments ++ [key])
      | none => model.tree.MergesDocumentPrivately model.resolver document
  | .delete node _ => model.Hides node
  | .deleteAt path key =>
      ((model.resolver.resolve path).segments ++ [key]).any Path.isPrivateKey = true
  | .apply _ message =>
      if (message.member? vesselsKey).isSome then
        model.tree.MergesDocumentPrivately model.resolver message
      else ∃ delta, Delta.decode message = .ok delta ∧ model.DeltaStaysPrivate delta
  | .applyDelta _ delta => model.DeltaStaysPrivate delta
  | .duplicate => False
  | .safe => False
  | .safeSubtree _ => False

/-- Operations one after the other write or delete inside private branches. -/
def Model.KeepsPrivate : Model → List Operation → Prop
  | _, [] => True
  | model, operation :: operations =>
      operation.StaysPrivate model ∧ (model.perform operation).KeepsPrivate operations

namespace Model

variable {model one other : Model} {layout : Layout}

/-! ### The copy without private branches -/

theorem Reached.intact (reached : model.Reached) : ∃ layout, model.Intact layout := by
  obtain ⟨id, operations, rfl⟩ := reached
  exact run_intact id operations

/-- The copy holds what is left of the tree without its private branches. -/
theorem safe_spec (intact : model.Intact layout) :
    ∃ copy, model.safe.Intact copy ∧ model.safe.tree = model.tree.safe ∧
      model.safe.resolver = model.resolver := by
  obtain ⟨copy, copy_intact, copy_tree, resolver⟩ := intact_ofTree model.resolver
    (Tree.distinctKeys_safe (distinctKeys_treeOf intact model.root))
  exact ⟨copy, copy_intact, copy_intact.tree_eq.trans copy_tree, resolver⟩

theorem Alike.tree_safe (alike : one.Alike other) : one.tree.safe = other.tree.safe := by
  obtain ⟨layout, intact⟩ := alike.one_reached.intact
  obtain ⟨other_layout, other_intact⟩ := alike.other_reached.intact
  obtain ⟨-, -, one_tree, -⟩ := safe_spec intact
  obtain ⟨-, -, other_tree, -⟩ := safe_spec other_intact
  rw [← one_tree, alike.safe, other_tree]

/-- Reading the slots of the copy gives the answers of the hub. -/
theorem answersByNodes_eq {hub : Hub} (reached : hub.model.Reached) :
    hub.model.answersByNodes = hub.answers := by
  obtain ⟨layout, intact⟩ := reached.intact
  obtain ⟨copy, copy_intact, tree_eq, resolver⟩ := safe_spec intact
  have live : hub.model.safe.contains hub.model.safe.root :=
    copy_intact.at_root ▸ copy_intact.stores.holds.live copy.id_mem_ids
  have document : hub.model.safe.documentAt hub.model.safe.root = hub.apiDocument := by
    rw [documentAt, treeAt?, if_pos live, Hub.apiDocument, ← tree_eq]
    rfl
  rw [answersByNodes, Hub.answers, Answers.mk.injEq]
  refine ⟨?_, ?_, ?_, document, ?_⟩
  · funext request
    rw [ByNodes.get_eq copy_intact, tree_eq, resolver, Hub.get, get]
  · funext request
    rw [ByNodes.list_eq copy_intact, tree_eq, resolver, Hub.list, list]
  · funext context filter
    rw [ByNodes.full?_eq copy_intact, tree_eq, resolver]
  · funext location
    rw [ByNodes.branch?_eq copy_intact, tree_eq, resolver, Hub.apiBranch?]

theorem answers_congr {one other : Hub} (alike : one.model.Alike other.model) :
    one.answers = other.answers := by
  have tree_safe := alike.tree_safe
  have resolver := alike.resolver
  rw [Hub.answers, Hub.answers, Answers.mk.injEq]
  refine ⟨?_, ?_, ?_, ?_, ?_⟩
  · funext request
    rw [Hub.get, Hub.get, get, get, tree_safe, resolver]
  · funext request
    rw [Hub.list, Hub.list, list, list, tree_safe, resolver]
  · rw [tree_safe, resolver]
  · rw [Hub.apiDocument, Hub.apiDocument, tree_safe]
  · funext location
    rw [Hub.apiBranch?, Hub.apiBranch?, tree_safe, resolver]

/-! ### Histories -/

theorem emitsByNodes_eq (context : String) (filter : Pattern) (tracker : Payload.Tracker)
    {models : List Model} (reached : ∀ model ∈ models, model.Reached) :
    tracker.emitsByNodes context filter models = tracker.emits context filter models := by
  induction models generalizing tracker with
  | nil => rfl
  | cons model models induction_step =>
      rw [List.forall_mem_cons] at reached
      obtain ⟨layout, intact⟩ := reached.1.intact
      obtain ⟨copy, copy_intact, tree_eq, resolver⟩ := safe_spec intact
      rw [Payload.Tracker.emitsByNodes, Payload.Tracker.emits,
        ByNodes.render_eq copy_intact, tree_eq, resolver, induction_step _ reached.2]

theorem emits_congr (context : String) (filter : Pattern) (tracker : Payload.Tracker)
    {ones others : List Model} (alike : List.Forall₂ Alike ones others) :
    tracker.emits context filter ones = tracker.emits context filter others := by
  induction alike generalizing tracker with
  | nil => rfl
  | cons first _ induction_step =>
      -- Models that look alike leave the same tracker behind.
      rw [Payload.Tracker.emits, Payload.Tracker.emits, first.tree_safe, first.resolver,
        induction_step]

/-! ### Writing inside private branches -/

/-- A change at a node in a private branch is not seen. -/
private theorem exists_unseen_place (intact : model.Intact layout) {node : NodeId}
    (hides : model.Hides node) :
    ∃ places, model.descend? model.root places = some node ∧
      ∀ change, (model.tree.changeAtPlace places change).safe = model.tree.safe := by
  obtain ⟨keys, found, hidden⟩ := hides
  rw [← intact.at_root, walk?_of_stores intact.stores] at found
  obtain ⟨target, target_eq, rfl⟩ := Option.map_eq_some_iff.1 found
  obtain ⟨places, leads, change_eq⟩ := leads_of_walk? intact.stores target_eq
  refine ⟨places, intact.at_root ▸ descend?_of_leads leads intact.stores, fun change => ?_⟩
  rw [intact.tree_eq, ← change_eq]
  exact Tree.safe_modifyAt (Or.inl hidden) layout.tree

theorem safe_applyDelta (intact : model.Intact layout) (now : Instant) {delta : Delta}
    (privately : model.DeltaStaysPrivate delta) :
    ∃ tree, Becomes model (model.applyDelta now delta).1 tree ∧ tree.safe = model.tree.safe := by
  obtain ⟨writes, written, becomes, -⟩ := applyDelta_spec intact now delta
  refine ⟨_, becomes, Tree.safe_writeBatches privately.1 fun group group_mem write write_mem => ?_⟩
  obtain ⟨batch, batch_mem, batch_written⟩ := exists_left_of_forall₂ written group_mem
  obtain ⟨accepted, accepted_mem, writes_it⟩ := exists_left_of_forall₂ batch_written write_mem
  rw [writes_it.path]
  exact privately.2 batch batch_mem accepted accepted_mem

/-- An operation inside private branches is not seen. -/
theorem exists_unseen (intact : model.Intact layout) {operation : Operation}
    (privately : operation.StaysPrivate model) :
    ∃ tree, Becomes model (model.perform operation) tree ∧ tree.safe = model.tree.safe := by
  -- What each operation does to the tree is known; it is left to show that it is not seen.
  cases operation with
  | addNode start path =>
      obtain ⟨places, found, unseen⟩ := exists_unseen_place intact privately
      obtain ⟨after, node, added, becomes⟩ := becomes_addNode intact found path
      rw [perform, added]
      exact ⟨_, becomes, unseen _⟩
  | addPath path =>
      exact ⟨_, becomes_addPath intact path, Tree.safe_changeAt privately.1 (Or.inl privately.2)⟩
  | put node key value source timestamp =>
      obtain ⟨places, found, unseen⟩ := exists_unseen_place intact privately
      obtain ⟨after, child, put_eq, becomes⟩ :=
        becomes_put intact found key value source timestamp
      rw [perform, put_eq]
      exact ⟨_, becomes, unseen _⟩
  | merge document => exact ⟨_, becomes_merge intact document, Tree.safe_merge privately⟩
  | mergeAt path key document =>
      exact ⟨_, becomes_mergeAt intact path key document, Tree.safe_mergeAt privately document⟩
  | mergeAtFull path document =>
      refine ⟨_, becomes_mergeAtFull intact path document, ?_⟩
      rw [Operation.StaysPrivate] at privately
      rw [Tree.mergeAtFull]
      cases last : (model.resolver.resolve path).last? with
      | some key =>
          rw [last] at privately
          exact Tree.safe_mergeAt privately document
      | none =>
          rw [last] at privately
          exact Tree.safe_merge privately
  | delete node key =>
      obtain ⟨places, found, unseen⟩ := exists_unseen_place intact privately
      exact ⟨_, becomes_delete intact found key, unseen _⟩
  | deleteAt path key =>
      exact ⟨_, becomes_deleteAt intact path key, Tree.safe_deleteAt _ _ privately⟩
  | apply now message =>
      rw [Operation.StaysPrivate] at privately
      rw [perform, apply]
      split at privately
      · rename_i is_document
        rw [if_pos is_document]
        exact ⟨_, becomes_merge intact message, Tree.safe_merge privately⟩
      · rename_i not_document
        obtain ⟨delta, decoded, privately⟩ := privately
        rw [if_neg not_document]
        by_cases no_context : (message.member? "context").isNone
        · rw [if_pos no_context]
          exact ⟨_, intact.becomes_refl, rfl⟩
        · rw [if_neg no_context, decoded]
          exact safe_applyDelta intact now privately
  | applyDelta now delta => exact safe_applyDelta intact now privately
  | duplicate => cases privately
  | safe => cases privately
  | safeSubtree node => cases privately

theorem Reached.perform (reached : model.Reached) (operation : Operation) :
    (model.perform operation).Reached := by
  obtain ⟨id, operations, rfl⟩ := reached
  refine ⟨id, operations ++ [operation], ?_⟩
  rw [run, run, List.foldl_append]
  rfl

/-- What is done inside private branches leaves a model that looks alike. -/
theorem alike_perform (reached : model.Reached) {operation : Operation}
    (privately : operation.StaysPrivate model) : model.Alike (model.perform operation) := by
  obtain ⟨layout, intact⟩ := reached.intact
  obtain ⟨tree, becomes, unseen⟩ := exists_unseen intact privately
  obtain ⟨after, after_intact⟩ := becomes.intact
  obtain ⟨-, -, tree_eq, -⟩ := safe_spec intact
  obtain ⟨-, -, after_eq, -⟩ := safe_spec after_intact
  refine ⟨reached, reached.perform operation, becomes.resolver.symm, ?_⟩
  rw [tree_eq, after_eq, becomes.tree_eq, unseen]

theorem Alike.trans {third : Model} (first : one.Alike other) (second : other.Alike third) :
    one.Alike third :=
  ⟨first.one_reached, second.other_reached, first.resolver.trans second.resolver,
    first.safe.trans second.safe⟩

/-- Any number of such operations leave a model that looks alike. -/
theorem alike_foldl_perform {operations : List Operation} (reached : model.Reached)
    (privately : model.KeepsPrivate operations) :
    model.Alike (operations.foldl Model.perform model) := by
  induction operations generalizing model with
  | nil => exact ⟨reached, reached, rfl, rfl⟩
  | cons operation operations induction_step =>
      have first := alike_perform reached privately.1
      exact first.trans (induction_step first.other_reached privately.2)

end Model

namespace Hub

open Payload (Tracker)

/-- Private branches do not show. Hubs whose models look alike give the same answers, computed from
the tree or read in the slots; trackers that follow models that look alike emit the same payloads;
and whatever is done inside private branches changes no answer. -/
theorem noninterference {one other : Hub} (alike : one.model.Alike other.model)
    {ones others : List Model} (histories : List.Forall₂ Model.Alike ones others)
    (context : String) (filter : Pattern) {hub : Hub} (reached : hub.model.Reached)
    {operations : List Operation} (privately : hub.model.KeepsPrivate operations) :
    (one.answers = other.answers ∧ one.model.answersByNodes = other.model.answersByNodes) ∧
      (Tracker.fresh.emits context filter ones = Tracker.fresh.emits context filter others ∧
        Tracker.fresh.emitsByNodes context filter ones =
          Tracker.fresh.emitsByNodes context filter others) ∧
      hub.model.Alike (operations.foldl Model.perform hub.model) ∧
      { hub with model := operations.foldl Model.perform hub.model }.answers = hub.answers := by
  have same_answers := Model.answers_congr alike
  have same_payloads := Model.emits_congr context filter Tracker.fresh histories
  have unseen := Model.alike_foldl_perform reached privately
  refine ⟨⟨same_answers, ?_⟩, ⟨same_payloads, ?_⟩, unseen, ?_⟩
  · rw [Model.answersByNodes_eq alike.one_reached, Model.answersByNodes_eq alike.other_reached,
      same_answers]
  · have ones_reached : ∀ model ∈ ones, model.Reached := fun model member =>
      (exists_right_of_forall₂ histories member).elim fun _ found => found.2.one_reached
    have others_reached : ∀ model ∈ others, model.Reached := fun model member =>
      (exists_left_of_forall₂ histories member).elim fun _ found => found.2.other_reached
    rw [Model.emitsByNodes_eq context filter _ ones_reached,
      Model.emitsByNodes_eq context filter _ others_reached, same_payloads]
  · have after : { hub with model := operations.foldl Model.perform hub.model }.answers =
        hub.answers := (Model.answers_congr unseen).symm
    exact after

/-- Gives a local vessel a private log and a name. -/
def keepLog : List Operation :=
  [.mergeAt "vessels.self" "_log" (.object [("page", .string "left port")]),
    .mergeAt "vessels.self" "name" (.string "Gull")]

/-- A hub whose local vessel keeps a private log. -/
def loggedHub : Hub :=
  { fresh .standard with model := .run "gull" keepLog }

/-- Writes into the private log, and deletes it. -/
def forgetLog : List Operation :=
  [.mergeAt "vessels.self._log" "page" (.string "at sea"), .deleteAt "vessels.self" "_log"]

/-- The same hub when its local vessel has forgotten the private log. -/
def forgetfulHub : Hub :=
  { loggedHub with model := forgetLog.foldl Model.perform loggedHub.model }

/-- Forgetting a private log takes nodes out of the model, and no answer tells. -/
theorem forgetLog_unseen :
    forgetfulHub.model.nodeCount ≠ loggedHub.model.nodeCount ∧
      forgetfulHub.answers = loggedHub.answers := by
  have reached : loggedHub.model.Reached := ⟨"gull", keepLog, by rw [loggedHub]⟩
  have privately : loggedHub.model.KeepsPrivate forgetLog := by
    rw [forgetLog]
    refine ⟨?_, ?_, trivial⟩
    · rw [Operation.StaysPrivate]
      decide +kernel
    · rw [Operation.StaysPrivate]
      decide +kernel
  have model_eq : forgetLog.foldl Model.perform loggedHub.model = forgetfulHub.model := by
    rw [forgetfulHub]
  have unseen := Model.alike_foldl_perform reached privately
  rw [model_eq] at unseen
  have all := (noninterference unseen (.cons unseen .nil) "vessels.self" ⟨"*", [.wildcard]⟩
    reached privately).2.2.2
  rw [← forgetfulHub] at all
  exact ⟨by decide +kernel, all⟩

end Hub

end VesselHub
