/-
Module: VesselHub.Proofs.Model.Reading
Purpose: Answering requests by following nodes from slot to slot. The answers are those that are
  computed from the tree, so how nodes lie in the slots cannot be told from them.
Main exports: ByNodes.get, ByNodes.list, ByNodes.render, ByNodes.get_eq, ByNodes.list_eq,
  ByNodes.covered_eq, ByNodes.branch?_eq
-/
import VesselHub.Http.Api
import VesselHub.Proofs.Model.Run

namespace VesselHub

/-- The keys of the children that an object node lists. -/
def Model.childKeys (model : Model) (node : NodeId) : List String :=
  match model.content? node with
  | some (.object children) => Entries.keys children
  | _ => []

/-! ### Answers from nodes -/

namespace ByNodes

/-- Adds what a wildcard path selects below a node to an answer. -/
def addMatching (model : Model) (context : Path) (node : NodeId) (wanted : String)
    (answer : Json) : Json :=
  match Pattern.ofText wanted with
  | .error _ => answer
  | .ok pattern =>
      ((model.leaves node).filter fun found => pattern.fits found.1).foldl
        (fun answer found =>
          answer.insertAt (context.join found.1).segments found.2.encode) answer

/-- Adds the document below the node at a path to an answer, if there is one. -/
def addBranch (model : Model) (context : Path) (wanted : String) (answer : Json) : Json :=
  let full := context.join wanted
  match model.nodeAt? full.raw with
  | some node => answer.insertAt full.segments (model.documentAt node)
  | none => answer

/-- Answers a request for values from the nodes of a model without private branches. -/
def get (model : Model) (request : GetRequest) : Json :=
  let context := model.resolver.resolve request.context
  match model.nodeAt? context.raw with
  | none => .object []
  | some node =>
      if request.wanted.isEmpty then
        (Json.object []).insertAt context.segments (model.documentAt node)
      else
        request.wanted.foldl (fun answer wanted =>
          if '*' ∈ wanted.toList then addMatching model context node wanted answer
          else addBranch model context wanted answer) (.object [])

/-- Answers a request for paths from the nodes of a model without private branches. -/
def list (model : Model) (request : ListRequest) : PathList :=
  let context := model.resolver.resolve request.context
  let patterns := Query.patternsOf request.wanted
  let found := match model.nodeAt? context.raw with
    | none => []
    | some node =>
        ((model.leaves node).map Prod.fst).filter fun path =>
          patterns.isEmpty || patterns.any (·.covers path)
  { context := request.context, paths := found.map fun path => (context.join path).text }

/-- The contexts that a text names. -/
def contexts (model : Model) (context : String) : List Path :=
  let resolved := model.resolver.resolve context
  if '*' ∉ context.toList then [resolved]
  else
    match Pattern.ofText resolved.raw, model.nodeAt? vesselsKey with
    | .ok pattern, some node =>
        ((model.childKeys node).map fun key => Path.ofParts [vesselsKey, key]).filter
          fun path => pattern.fits path.raw
    | _, _ => []

/-- The leaves that a subscription covers. -/
def covered (model : Model) (context : String) (filter : Pattern) :
    List Payload.CoveredLeaf :=
  (contexts model context).flatMap fun path =>
    match model.nodeAt? path.raw with
    | none => []
    | some node =>
        ((model.leaves node).filter fun found => filter.covers found.1).map fun found =>
          { context := path, relative := found.1, leaf := found.2 }

/-- The covered leaves as a document. -/
def full? (model : Model) (context : String) (filter : Pattern) : Option Json :=
  match covered model context filter with
  | [] => none
  | leaves =>
      some (leaves.foldl (fun document covered =>
        document.insertAt covered.full.segments covered.leaf.encode) (.object []))

/-- The deltas with what changed, and what is remembered. -/
def render (tracker : Payload.Tracker) (model : Model) (context : String) (filter : Pattern) :
    List Delta × Payload.Tracker :=
  let leaves := covered model context filter
  (Payload.Tracker.deltasOf (tracker.changes leaves), .remembering leaves)

/-- The document at a location. -/
def branch? (model : Model) (location : String) : Option Json :=
  (model.nodeAt? (Http.pathOf location)).map model.documentAt

end ByNodes

namespace Model.Intact

variable {model : Model} {layout : Layout}

/-- The node that keys lead to stores the branch that they lead to. -/
theorem exists_stored (intact : model.Intact layout) {keys : List String} {node : NodeId}
    (found : model.walk? model.root keys = some node) :
    ∃ above target, target.id = node ∧ model.Stores above target ∧
      model.tree.walk? keys = some target.tree := by
  rw [← intact.at_root, walk?_of_stores intact.stores] at found
  obtain ⟨target, target_eq, rfl⟩ := Option.map_eq_some_iff.1 found
  obtain ⟨places, leads, -⟩ := leads_of_walk? intact.stores target_eq
  obtain ⟨above, stored, -⟩ := stores_of_leads leads intact.stores
  refine ⟨above, target, rfl, stored, ?_⟩
  rw [intact.tree_eq, Layout.tree_walk?, target_eq]
  rfl

private theorem walk?_eq_none (intact : model.Intact layout) {keys : List String}
    (nowhere : model.walk? model.root keys = none) : model.tree.walk? keys = none := by
  rw [← intact.at_root, walk?_of_stores intact.stores, Option.map_eq_none_iff] at nowhere
  rw [intact.tree_eq, Layout.tree_walk?, nowhere]
  rfl

/-- At every path there is nothing, or a node that reads like the branch there. -/
theorem at_path (intact : model.Intact layout) (path : String) :
    (model.nodeAt? path = none ∧ model.tree.at? model.resolver path = none) ∨
      ∃ node branch, model.nodeAt? path = some node ∧
        model.tree.at? model.resolver path = some branch ∧
        model.documentAt node = branch.encode ∧ model.leaves node = branch.leaves ∧
        model.childKeys node = Payload.childKeys branch := by
  cases found : model.nodeAt? path with
  | none => exact Or.inl ⟨rfl, intact.walk?_eq_none found⟩
  | some node =>
      obtain ⟨above, target, rfl, stored, branch_eq⟩ := intact.exists_stored found
      have live := stored.holds.live target.id_mem_ids
      have read : model.treeAt? target.id = some target.tree := by
        rw [treeAt?, if_pos live, stored.tree_eq]
      refine Or.inr ⟨target.id, target.tree, rfl, branch_eq, ?_, ?_, ?_⟩
      · rw [documentAt, read]
      · rw [leaves, read]
      · rw [childKeys, stored.holds.content?_eq]
        cases target with
        | leaf id held => rfl
        | array id items => rfl
        | object id children =>
            rw [Layout.content, Layout.tree, Layout.childTrees_eq_map]
            exact (Entries.keys_map_values Layout.id children).trans
              (Entries.keys_map_values Layout.tree children).symm

end Model.Intact

namespace ByNodes

variable {model : Model} {layout : Layout}

theorem addMatching_eq {node : NodeId} {branch : Tree}
    (leaves : model.leaves node = branch.leaves) (context : Path) (wanted : String)
    (answer : Json) : addMatching model context node wanted answer =
      Query.addMatching context branch wanted answer := by
  rw [addMatching, leaves]
  rfl

theorem addBranch_eq (intact : model.Intact layout) (context : Path) (wanted : String)
    (answer : Json) : addBranch model context wanted answer =
      Query.addBranch model.tree model.resolver context wanted answer := by
  rw [addBranch, Query.addBranch]
  rcases intact.at_path (context.join wanted).raw with
    ⟨no_node, no_branch⟩ | ⟨node, branch, node_eq, branch_eq, document, -, -⟩
  · simp only [no_node, no_branch]
  · simp only [node_eq, branch_eq, document]

theorem get_eq (intact : model.Intact layout) (request : GetRequest) :
    get model request = Query.get model.tree model.resolver request := by
  rw [get, Query.get]
  rcases intact.at_path (model.resolver.resolve request.context).raw with
    ⟨no_node, no_branch⟩ | ⟨node, branch, node_eq, branch_eq, document, leaves, -⟩
  · simp only [no_node, no_branch]
  · simp only [node_eq, branch_eq, document, addBranch_eq intact, addMatching_eq leaves]

theorem list_eq (intact : model.Intact layout) (request : ListRequest) :
    list model request = Query.list model.tree model.resolver request := by
  rw [list, Query.list]
  rcases intact.at_path (model.resolver.resolve request.context).raw with
    ⟨no_node, no_branch⟩ | ⟨node, branch, node_eq, branch_eq, -, leaves, -⟩
  · simp only [no_node, no_branch]
  · simp only [node_eq, branch_eq, leaves]

theorem contexts_eq (intact : model.Intact layout) (context : String) :
    contexts model context = Payload.contexts model.tree model.resolver context := by
  rw [contexts, Payload.contexts]
  rcases intact.at_path vesselsKey with
    ⟨no_node, no_branch⟩ | ⟨node, branch, node_eq, branch_eq, -, -, keys⟩
  · rw [no_node, no_branch]
    cases Pattern.ofText (model.resolver.resolve context).raw <;> rfl
  · rw [node_eq, branch_eq]
    cases Pattern.ofText (model.resolver.resolve context).raw with
    | error cause => rfl
    | ok pattern => simp only [keys]

theorem covered_eq (intact : model.Intact layout) (context : String) (filter : Pattern) :
    covered model context filter =
      Payload.covered model.tree model.resolver context filter := by
  rw [covered, Payload.covered, contexts_eq intact]
  congr 1
  funext path
  rcases intact.at_path path.raw with
    ⟨no_node, no_branch⟩ | ⟨node, branch, node_eq, branch_eq, -, leaves, -⟩
  · simp only [no_node, no_branch]
  · simp only [node_eq, branch_eq, leaves]

theorem full?_eq (intact : model.Intact layout) (context : String) (filter : Pattern) :
    full? model context filter = Payload.full? model.tree model.resolver context filter := by
  rw [full?, covered_eq intact]
  rfl

theorem render_eq (intact : model.Intact layout) (tracker : Payload.Tracker) (context : String)
    (filter : Pattern) : render tracker model context filter =
      tracker.render model.tree model.resolver context filter := by
  rw [render, Payload.Tracker.render, covered_eq intact]

theorem branch?_eq (intact : model.Intact layout) (location : String) :
    branch? model location =
      (model.tree.at? model.resolver (Http.pathOf location)).map Tree.encode := by
  rw [branch?]
  rcases intact.at_path (Http.pathOf location) with
    ⟨no_node, no_branch⟩ | ⟨node, branch, node_eq, branch_eq, document, -, -⟩
  · rw [no_node, no_branch]
    rfl
  · rw [node_eq, branch_eq, Option.map_some, Option.map_some, document]

end ByNodes

end VesselHub
