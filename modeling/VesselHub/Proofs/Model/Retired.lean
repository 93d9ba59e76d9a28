/-
Module: VesselHub.Proofs.Model.Retired
Purpose: The ids that each operation on the model retires, in the order in which their slots are
  emptied, and that the operation is a step that retires just these.
Main exports: Retired.release, Retired.mergeChild, Retired.perform, Model.retires_release,
  Model.retires_perform, Model.retires_operations
-/
import VesselHub.Proofs.Model.Retires

namespace VesselHub

/-! ### Accounts of what is retired -/

namespace Retired

/-- What is retired by steps that are taken one after the other. -/
def along {State Item : Type} (step : State → Item → State)
    (retired : State → Item → List NodeId) : List Item → State → List NodeId
  | [], _ => []
  | item :: items, state => retired state item ++ along step retired items (step state item)

/-- An id is retired if it still names a node. -/
def vacate (model : Model) (id : NodeId) : List NodeId :=
  if model.contains id then [id] else []

def release (model : Model) (id : NodeId) : List NodeId :=
  along Model.vacate vacate (model.subtree id) model

def makeObject (model : Model) (id : NodeId) : List NodeId :=
  match model.content? id with
  | some (.array items) => along Model.release release items (model.setContent id (.object []))
  | _ => []

def attach (model : Model) (parent : NodeId) (key : String) (id : NodeId) : List NodeId :=
  match model.content? parent with
  | some (.object children) =>
      match (Entries.get? children key).filter (· ≠ id) with
      | some replaced =>
          release (model.setContent parent (.object (Entries.insert children key id))) replaced
      | none => []
  | _ => []

def ensureObject (model : Model) (parent : NodeId) (key : String) : List NodeId :=
  let made := model.makeObject parent
  makeObject model parent ++
    match made.child? parent key with
    | some child => makeObject made child
    | none =>
        let (born, child) := made.allocate (some parent) (.object [])
        attach born parent key child

def setLeaf (model : Model) (parent : NodeId) (key : String) (leaf : Leaf) : List NodeId :=
  let made := model.makeObject parent
  makeObject model parent ++
    match (made.child? parent key).filter fun child => (made.leaf? child).isSome with
    | some _ => []
    | none =>
        let (born, child) := made.allocate (some parent) (.leaf leaf)
        attach born parent key child

def ensurePath (model : Model) (start : NodeId) : List String → List NodeId
  | [] => []
  | key :: keys =>
      let (ensured, child) := model.ensureObject start key
      ensureObject model start key ++ ensurePath ensured child keys

def addNode (model : Model) (start : NodeId) (path : String) : List NodeId :=
  if model.contains start then ensurePath model start (model.pathBelow start path).segments
  else []

def put (model : Model) (node : NodeId) (key : String) (leaf : Leaf) : List NodeId :=
  if model.contains node then setLeaf model node key leaf else []

mutual

def mergeChild (model : Model) (parent : NodeId) (key : String) : Json → List NodeId
  | .object members =>
      if Entries.contains members "value" then
        match Leaf.decode members with
        | .ok leaf => setLeaf model parent key leaf
        | .error _ => []
      else
        let (ensured, child) := model.ensureObject parent key
        ensureObject model parent key ++ mergeMembers ensured child members
  | .array items =>
      let (born, array) := (model.makeObject parent).allocate (some parent) (.array [])
      let (filled, built) := born.buildItems array items
      makeObject model parent ++ (buildItems born array items ++
        attach (filled.setContent array (.array built)) parent key array)
  | .null => setLeaf model parent key (.bare .null)
  | .bool value => setLeaf model parent key (.bare (.bool value))
  | .number value => setLeaf model parent key (.bare (.number value))
  | .string value => setLeaf model parent key (.bare (.string value))

def mergeMembers (model : Model) (parent : NodeId) : List (String × Json) → List NodeId
  | [] => []
  | (key, value) :: members =>
      mergeChild model parent key value ++
        mergeMembers (model.mergeChild parent key value) parent members

def buildItem (model : Model) (array : NodeId) : Json → List NodeId
  | .object members =>
      if Entries.contains members "value" then []
      else
        let (born, node) := model.allocate (some array) (.object [])
        mergeMembers born node members
  | .array items =>
      let (born, node) := model.allocate (some array) (.array [])
      buildItems born node items
  | _ => []

def buildItems (model : Model) (array : NodeId) : List Json → List NodeId
  | [] => []
  | item :: items =>
      buildItem model array item ++ buildItems (model.buildItem array item).1 array items

end

def mergeVessels (model : Model) (parent : NodeId) : List (String × Json) → List NodeId
  | [] => []
  | (key, value) :: vessels =>
      mergeChild model parent (model.resolver.resolveKey key) value ++
        mergeVessels (model.mergeChild parent (model.resolver.resolveKey key) value) parent vessels

/-- What one top-level member of a document retires. -/
def mergeMember (model : Model) (key : String) (value : Json) : List NodeId :=
  match value with
  | .object vessels =>
      if key = vesselsKey then
        let (ensured, node) := model.ensureObject model.root key
        ensureObject model model.root key ++ mergeVessels ensured node vessels
      else mergeChild model model.root key value
  | _ => mergeChild model model.root key value

def mergeTop (model : Model) : List (String × Json) → List NodeId
  | [] => []
  | (key, value) :: members =>
      mergeMember model key value ++ mergeTop (model.mergeTop [(key, value)]) members

def merge (model : Model) : Json → List NodeId
  | .object members => mergeTop model members
  | _ => []

def mergeAt (model : Model) (path key : String) (document : Json) : List NodeId :=
  let (added, parent) := model.addPath path
  addNode model model.root path ++ mergeChild added parent key document

def mergeAtFull (model : Model) (path : String) (document : Json) : List NodeId :=
  let resolved := model.resolver.resolve path
  match resolved.last? with
  | some key => mergeAt model resolved.parent.raw key document
  | none => merge model document

def delete (model : Model) (node : NodeId) (key : String) : List NodeId :=
  match model.content? node with
  | some (.object children) =>
      match Entries.get? children key with
      | some child => release (model.setContent node (.object (Entries.erase children key))) child
      | none => []
  | _ => []

def deleteAt (model : Model) (path key : String) : List NodeId :=
  match model.nodeAt? path with
  | some node => delete model node key
  | none => []

def writeAccepted (now : Instant) (source : String) (context : NodeId) (model : Model)
    (accepted : AcceptedValue) : List NodeId :=
  match model.addNode? context accepted.branch with
  | some (added, node) =>
      let repeated := added.unchangedSince node accepted.key accepted.value source
      let timestamp := (accepted.stamp.or repeated).getD now
      addNode model context accepted.branch ++
        put added node accepted.key
          { value := accepted.value, source := some source, timestamp := some timestamp }
  | none => []

def applyValues (now : Instant) (batch : Batch) (context : NodeId) :
    List PathValue → Model → List NodeId
  | [], _ => []
  | item :: items, model =>
      match (batch.accept item).toOption with
      | none => applyValues now batch context items model
      | some accepted =>
          match model.writeAccepted now batch.source context accepted with
          | some written =>
              writeAccepted now batch.source context model accepted ++
                applyValues now batch context items written
          | none => applyValues now batch context items model

def applyBatch (now : Instant) (context : Path) (state : Model × MergeReport) (batch : Batch) :
    List NodeId :=
  match state.1.addNode? state.1.root context.raw with
  | some (added, node) =>
      addNode state.1 state.1.root context.raw ++ applyValues now batch node batch.values added
  | none => []

def applyDelta (model : Model) (now : Instant) (delta : Delta) : List NodeId :=
  let context := model.resolver.resolve delta.context
  along (Model.applyBatch now context) (applyBatch now context) delta.batches (model, .start)

def apply (model : Model) (now : Instant) (message : Json) : List NodeId :=
  if (message.member? vesselsKey).isSome then merge model message
  else if (message.member? "context").isNone then []
  else
    match Delta.decode message with
    | .ok delta => applyDelta model now delta
    | .error _ => []

end Retired

/-- Whether an operation changes the model in place. Copying goes on with other slots. -/
def Operation.isInPlace : Operation → Bool
  | .duplicate | .safe | .safeSubtree _ => false
  | _ => true

namespace Retired

/-- What an operation retires that changes the model in place. -/
def perform (model : Model) : Operation → List NodeId
  | .addNode start path => addNode model start path
  | .addPath path => addNode model model.root path
  | .put node key value source timestamp =>
      put model node key { value, source := some source, timestamp := some timestamp }
  | .merge document => merge model document
  | .mergeAt path key document => mergeAt model path key document
  | .mergeAtFull path document => mergeAtFull model path document
  | .delete node key => delete model node key
  | .deleteAt path key => deleteAt model path key
  | .apply now message => apply model now message
  | .applyDelta now delta => applyDelta model now delta
  | .duplicate | .safe | .safeSubtree _ => []

/-- What operations retire that are performed one after the other. -/
def operations (model : Model) (performed : List Operation) : List NodeId :=
  along Model.perform perform performed model

end Retired

/-! ### Emptying slots -/

namespace Model

variable {model : Model}

/-- Steps taken one after the other retire what each of them does. -/
theorem retires_along {State Item : Type} (view : State → Model) {step : State → Item → State}
    {retired : State → Item → List NodeId} {items : List Item}
    (each : ∀ state, ∀ item ∈ items, (view state).FreeExact →
      Retires (view state) (view (step state item)) (retired state item))
    (state : State) (exact : (view state).FreeExact) :
    Retires (view state) (view (items.foldl step state))
      (Retired.along step retired items state) := by
  induction items generalizing state with
  | nil => exact .refl exact
  | cons item items induction_step =>
      have first := each state item List.mem_cons_self exact
      exact first.trans (induction_step
        (fun state item member => each state item (List.mem_cons_of_mem _ member)) _
        first.freeExact)

private theorem retires_vacating (exact : model.FreeExact) (id : NodeId) :
    Retires model (model.vacate id) (Retired.vacate model id) := by
  rw [Retired.vacate]
  split
  · rename_i live
    exact retires_vacate exact live
  · rename_i gone
    rw [vacate, if_neg gone]
    exact .refl exact

theorem retires_release (exact : model.FreeExact) (id : NodeId) :
    Retires model (model.release id) (Retired.release model id) :=
  retires_along (fun model => model) (fun _ id _ exact => retires_vacating exact id) model exact

theorem retires_releaseAll (exact : model.FreeExact) (ids : List NodeId) :
    Retires model (ids.foldl release model) (Retired.along release Retired.release ids model) :=
  retires_along (fun model => model) (fun _ id _ exact => retires_release exact id) model exact

/-- Removing a node retires its id. -/
theorem mem_retired_release {id : NodeId} (live : model.contains id) :
    id ∈ Retired.release model id := by
  have in_range := index_lt_of_contains live
  obtain ⟨node, node_eq⟩ := Option.isSome_iff_exists.1 live
  obtain ⟨depth, size_eq⟩ : ∃ depth, model.slots.size = depth + 1 :=
    ⟨model.slots.size - 1, by omega⟩
  rw [Retired.release, subtree, size_eq, subtreeWithin, node_eq]
  dsimp only
  rw [Retired.along, Retired.vacate, if_pos live]
  exact List.mem_append_left _ (List.mem_singleton_self id)

/-- Removing a node takes nodes away and changes none. -/
theorem node?_release (model : Model) (id other : NodeId) :
    (model.release id).node? other = none ∨
      (model.release id).node? other = model.node? other := by
  have vacated : ∀ (ids : List NodeId) (model : Model),
      (ids.foldl vacate model).node? other = none ∨
        (ids.foldl vacate model).node? other = model.node? other := by
    intro ids
    induction ids with
    | nil => exact fun _ => .inr rfl
    | cons id ids induction_step =>
        intro model
        have first := node?_vacate model id other
        rcases induction_step (model.vacate id) with gone | same
        · exact .inl gone
        · rw [List.foldl_cons, same, first]
          split
          · exact .inl rfl
          · exact .inr rfl
  exact vacated (model.subtree id) model

/-- What is removed and still there is retired. -/
theorem mem_retired_releaseAll {ids : List NodeId} (exact : model.FreeExact) {id : NodeId}
    (live : model.contains id) (member : id ∈ ids) :
    id ∈ Retired.along release Retired.release ids model := by
  induction ids generalizing model with
  | nil => cases member
  | cons first ids induction_step =>
      rw [Retired.along, List.mem_append]
      by_cases is_first : id ∈ Retired.release model first
      · exact .inl is_first
      · have step := retires_release exact first
        rcases List.mem_cons.1 member with rfl | later
        · exact absurd (mem_retired_release live) is_first
        · exact .inr (induction_step step.freeExact (step.contains live is_first) later)

/-! ### Writing -/

variable {id parent : NodeId} {key : String}

/-- Whatever stands at an id points to a parent. -/
def Points (model : Model) (id parent : NodeId) : Prop :=
  ∀ node, model.node? id = some node → node.parent = some parent

theorem Points.setContent (points : model.Points id parent) (other : NodeId) (content : Content) :
    (model.setContent other content).Points id parent := by
  intro node node_eq
  rw [Model.setContent, node?_modifyNode] at node_eq
  split at node_eq
  · rename_i same
    obtain ⟨before, before_eq, rfl⟩ := Option.map_eq_some_iff.1 node_eq
    exact points before (same ▸ before_eq)
  · exact points node node_eq

theorem Points.release (points : model.Points id parent) (other : NodeId) :
    (model.release other).Points id parent := by
  intro node node_eq
  rcases node?_release model other id with gone | same
  · rw [gone] at node_eq
    cases node_eq
  · exact points node (same ▸ node_eq)

theorem points_allocate (exact : model.FreeExact) (parent : NodeId) (content : Content) :
    (model.allocate (some parent) content).1.Points (model.allocate (some parent) content).2
      parent := by
  intro node node_eq
  rw [node?_allocate exact, if_pos rfl] at node_eq
  cases node_eq
  rfl

theorem freeExact_setContent (exact : model.FreeExact) (id : NodeId) (content : Content) :
    (model.setContent id content).FreeExact :=
  freeExact_modifyNode exact id _

theorem retires_makeObject (exact : model.FreeExact) (id : NodeId) :
    Retires model (model.makeObject id) (Retired.makeObject model id) := by
  rw [makeObject, Retired.makeObject]
  cases content_eq : model.content? id with
  | none => exact .refl exact
  | some content =>
      obtain ⟨node, node_eq, rfl⟩ := Option.map_eq_some_iff.1 content_eq
      cases held : node.content with
      | object children => exact .refl exact
      | leaf leaf =>
          refine retires_setContent exact fun other other_eq => ?_
          rw [node_eq, Option.some.injEq] at other_eq
          rw [← other_eq, held]
          exact List.nil_subset _
      | array items =>
          have emptied := freeExact_setContent exact id (.object [])
          refine (retires_releaseAll emptied items).rewired fun other other_eq key child listed live
            kept => absurd ?_ kept
          rw [node_eq, Option.some.injEq] at other_eq
          rw [← other_eq, held] at listed
          obtain ⟨⟨_, position⟩, entry_mem, same⟩ := List.mem_map.1 listed
          cases same
          exact mem_retired_releaseAll emptied (contains_setContent live)
            (List.mem_of_getElem? (List.mem_zipIdx_iff_getElem?.1 entry_mem))

/-- A node is told its parent, and what stood under its key is removed. -/
theorem retires_attach (exact : model.FreeExact) (points : model.Points id parent) (key : String) :
    Retires model (model.attach parent key id) (Retired.attach model parent key id) := by
  have pointing : ∀ {attached retired}, Retires model attached retired →
      attached.Points id parent → Retires model (attached.setParent id parent) retired := by
    intro attached retired step still_points
    have told := step.trans (retires_setParent step.freeExact still_points)
    rwa [List.append_nil] at told
  rw [attach, Retired.attach]
  cases content_eq : model.content? parent with
  | none => exact pointing (.refl exact) points
  | some content =>
      obtain ⟨node, node_eq, rfl⟩ := Option.map_eq_some_iff.1 content_eq
      cases held : node.content with
      | leaf leaf => exact pointing (.refl exact) points
      | array items => exact pointing (.refl exact) points
      | object children =>
          have named : ∀ other, model.node? parent = some other →
              other.content.named = children := by
            intro other other_eq
            rw [node_eq, Option.some.injEq] at other_eq
            rw [← other_eq, held]
            rfl
          dsimp only
          cases replaced_eq : (Entries.get? children key).filter (· ≠ id) with
          | none =>
              refine pointing (retires_setContent exact fun other other_eq => ?_)
                (points.setContent _ _)
              rw [named other other_eq]
              intro entry listed
              rcases Entries.mem_insert_or listed key id with stays | replaced
              · exact stays
              · -- What stands under the key is the node itself.
                rw [replaced, Option.filter_eq_none_iff] at replaced_eq
                have same : entry.2 = id := by simpa using replaced_eq entry.2 rfl
                rw [same] at replaced
                obtain ⟨before, after, rfl, absent⟩ := Entries.exists_split_of_get? replaced
                exact (Entries.insert_of_split absent after id id).symm ▸ listed
          | some replaced =>
              have found := (Option.filter_eq_some_iff.1 replaced_eq).1
              refine pointing ?_ ((points.setContent _ _).release replaced)
              refine (retires_release (freeExact_setContent exact parent _) replaced).rewired
                fun other other_eq name child listed live kept => ?_
              rw [named other other_eq] at listed
              refine (Entries.mem_insert_or listed key id).resolve_right fun is_replaced => kept ?_
              obtain rfl : replaced = child := Option.some.inj (found.symm.trans is_replaced)
              exact mem_retired_release (contains_setContent live)

theorem retires_ensureObject (exact : model.FreeExact) (parent : NodeId) (key : String) :
    Retires model (model.ensureObject parent key).1 (Retired.ensureObject model parent key) := by
  have made := retires_makeObject exact parent
  rw [ensureObject, Retired.ensureObject]
  dsimp only
  cases (model.makeObject parent).child? parent key with
  | some child => exact made.trans (retires_makeObject made.freeExact child)
  | none =>
      have born := retires_allocate made.freeExact (some parent) (.object [])
      have points := points_allocate made.freeExact parent (.object [])
      exact made.trans (born.trans (retires_attach born.freeExact points key))

theorem retires_setLeaf (exact : model.FreeExact) (parent : NodeId) (key : String) (leaf : Leaf) :
    Retires model (model.setLeaf parent key leaf).1 (Retired.setLeaf model parent key leaf) := by
  have made := retires_makeObject exact parent
  rw [setLeaf, Retired.setLeaf]
  dsimp only
  cases found : ((model.makeObject parent).child? parent key).filter
      fun child => ((model.makeObject parent).leaf? child).isSome with
  | some child =>
      -- What is overwritten in place is a leaf, which lists nothing.
      refine made.trans (retires_setContent made.freeExact fun node node_eq => ?_)
      have is_leaf := (Option.filter_eq_some_iff.1 found).2
      rw [leaf?, content?, node_eq, Option.map_some] at is_leaf
      cases held : node.content with
      | leaf other => exact List.nil_subset _
      | object | array =>
          rw [held] at is_leaf
          cases is_leaf
  | none =>
      have born := retires_allocate made.freeExact (some parent) (.leaf leaf)
      have points := points_allocate made.freeExact parent (.leaf leaf)
      exact made.trans (born.trans (retires_attach born.freeExact points key))

theorem retires_ensurePath (exact : model.FreeExact) (start : NodeId) (keys : List String) :
    Retires model (model.ensurePath start keys).1 (Retired.ensurePath model start keys) := by
  induction keys generalizing model start with
  | nil => exact .refl exact
  | cons key keys induction_step =>
      have ensured := retires_ensureObject exact start key
      exact ensured.trans (induction_step ensured.freeExact _)

theorem retires_addNode (exact : model.FreeExact) {start node : NodeId} {path : String}
    {after : Model} (added : model.addNode? start path = some (after, node)) :
    Retires model after (Retired.addNode model start path) := by
  rw [addNode?] at added
  rw [Retired.addNode]
  split at added
  · rename_i live
    rw [if_pos live]
    have ensured := retires_ensurePath exact start (model.pathBelow start path).segments
    rwa [Option.some.inj added] at ensured
  · cases added

theorem retires_addPath (exact : model.FreeExact) (path : String) :
    Retires model (model.addPath path).1 (Retired.addNode model model.root path) := by
  rw [addPath, addNode?, Retired.addNode]
  split
  · exact retires_ensurePath exact model.root _
  · exact .refl exact

theorem retires_put (exact : model.FreeExact) {node child : NodeId} {value : Json}
    {source : String} {timestamp : Instant} {after : Model}
    (put : model.put? node key value source timestamp = some (after, child)) :
    Retires model after (Retired.put model node key
      { value, source := some source, timestamp := some timestamp }) := by
  rw [put?] at put
  rw [Retired.put]
  split at put
  · rename_i live
    rw [if_pos live]
    have written := retires_setLeaf exact node key
      { value, source := some source, timestamp := some timestamp }
    rwa [Option.some.inj put] at written
  · cases put

/-! ### Merging -/

/-- A new array gets the items that were built below it. It listed none of them before. -/
theorem retires_filled (exact : model.FreeExact) (parent : NodeId) (items : List Json)
    {retired : List NodeId} :
    let born := model.allocate (some parent) (.array [])
    let filled := born.1.buildItems born.2 items
    Retires born.1 filled.1 retired →
      Retires model (filled.1.setContent born.2 (.array filled.2)) retired ∧
        (filled.1.setContent born.2 (.array filled.2)).Points born.2 parent := by
  intro born filled built
  have birth := retires_allocate exact (some parent) (.array [])
  obtain ⟨_, builds, -, -⟩ := buildItems_spec items birth.freeExact born.2
  have array_eq : born.1.node? born.2 = some ⟨some parent, .array []⟩ := by
    rw [node?_allocate exact, if_pos rfl]
  have still_empty : filled.1.node? born.2 = some ⟨some parent, .array []⟩ :=
    builds.change.keeps array_eq List.not_mem_nil
  constructor
  · have filling : Retires filled.1 (filled.1.setContent born.2 (.array filled.2)) [] := by
      refine retires_setContent built.freeExact fun node node_eq => ?_
      rw [still_empty, Option.some.injEq] at node_eq
      rw [← node_eq]
      exact List.nil_subset _
    have step := (birth.trans built).trans filling
    rwa [List.append_nil] at step
  · intro node node_eq
    rw [node?_setContent still_empty, Option.some.injEq] at node_eq
    rw [← node_eq]

mutual

theorem retires_mergeChild : ∀ (document : Json) {model : Model}, model.FreeExact →
    ∀ (parent : NodeId) (key : String), Retires model (model.mergeChild parent key document)
      (Retired.mergeChild model parent key document)
  | .null, _, exact, parent, key => retires_setLeaf exact parent key _
  | .bool _, _, exact, parent, key => retires_setLeaf exact parent key _
  | .number _, _, exact, parent, key => retires_setLeaf exact parent key _
  | .string _, _, exact, parent, key => retires_setLeaf exact parent key _
  | .array items, model, exact, parent, key => by
      have made := retires_makeObject exact parent
      have born := retires_allocate made.freeExact (some parent) (.array [])
      obtain ⟨filled, points⟩ := retires_filled made.freeExact parent items
        (retires_buildItems items born.freeExact _)
      have attached := retires_attach filled.freeExact points key
      exact made.trans (filled.trans attached)
  | .object members, model, exact, parent, key => by
      rw [mergeChild, Retired.mergeChild]
      split
      · cases Leaf.decode members with
        | error cause => exact .refl exact
        | ok leaf => exact retires_setLeaf exact parent key leaf
      · have ensured := retires_ensureObject exact parent key
        exact ensured.trans (retires_mergeMembers members ensured.freeExact _)

theorem retires_mergeMembers : ∀ (members : List (String × Json)) {model : Model},
    model.FreeExact → ∀ parent : NodeId, Retires model (model.mergeMembers parent members)
      (Retired.mergeMembers model parent members)
  | [], _, exact, _ => .refl exact
  | (key, value) :: members, _, exact, parent => by
      have first := retires_mergeChild value exact parent key
      exact first.trans (retires_mergeMembers members first.freeExact parent)

theorem retires_buildItem : ∀ (item : Json) {model : Model}, model.FreeExact →
    ∀ array : NodeId, Retires model (model.buildItem array item).1
      (Retired.buildItem model array item)
  | .null, _, exact, array => retires_allocate exact (some array) _
  | .bool _, _, exact, array => retires_allocate exact (some array) _
  | .number _, _, exact, array => retires_allocate exact (some array) _
  | .string _, _, exact, array => retires_allocate exact (some array) _
  | .array items, model, exact, array =>
      have born := retires_allocate exact (some array) (.array [])
      (retires_filled exact array items (retires_buildItems items born.freeExact _)).1
  | .object members, model, exact, array => by
      rw [buildItem, Retired.buildItem]
      split
      · cases Leaf.decode members with
        | error cause => exact .refl exact
        | ok leaf => exact retires_allocate exact (some array) (.leaf leaf)
      · have born := retires_allocate exact (some array) (.object [])
        exact born.trans (retires_mergeMembers members born.freeExact _)

theorem retires_buildItems : ∀ (items : List Json) {model : Model}, model.FreeExact →
    ∀ array : NodeId, Retires model (model.buildItems array items).1
      (Retired.buildItems model array items)
  | [], _, exact, _ => .refl exact
  | item :: items, _, exact, array => by
      have first := retires_buildItem item exact array
      exact first.trans (retires_buildItems items first.freeExact array)

end

theorem retires_mergeVessels (vessels : List (String × Json)) (exact : model.FreeExact)
    (parent : NodeId) : Retires model (model.mergeVessels parent vessels)
      (Retired.mergeVessels model parent vessels) := by
  induction vessels generalizing model with
  | nil => exact .refl exact
  | cons vessel vessels induction_step =>
      have first := retires_mergeChild vessel.2 exact parent (model.resolver.resolveKey vessel.1)
      exact first.trans (induction_step first.freeExact)

theorem retires_mergeMember (exact : model.FreeExact) (key : String) (value : Json) :
    Retires model (model.mergeTop [(key, value)]) (Retired.mergeMember model key value) := by
  have plain := retires_mergeChild value exact model.root key
  cases value with
  | object vessels =>
      rw [mergeTop, mergeTop, Retired.mergeMember]
      split
      · have ensured := retires_ensureObject exact model.root key
        exact ensured.trans (retires_mergeVessels vessels ensured.freeExact _)
      · exact plain
  | null | bool | number | string | array => exact plain

theorem retires_mergeTop (members : List (String × Json)) (exact : model.FreeExact) :
    Retires model (model.mergeTop members) (Retired.mergeTop model members) := by
  induction members generalizing model with
  | nil => exact .refl exact
  | cons member members induction_step =>
      have first := retires_mergeMember exact member.1 member.2
      exact first.trans (induction_step first.freeExact)

theorem retires_merge (exact : model.FreeExact) (document : Json) :
    Retires model (model.merge document) (Retired.merge model document) := by
  cases document with
  | object members => exact retires_mergeTop members exact
  | null | bool | number | string | array => exact .refl exact

theorem retires_mergeAt (exact : model.FreeExact) (path key : String) (document : Json) :
    Retires model (model.mergeAt path key document)
      (Retired.mergeAt model path key document) := by
  have added := retires_addPath exact path
  exact added.trans (retires_mergeChild document added.freeExact _ key)

theorem retires_mergeAtFull (exact : model.FreeExact) (path : String) (document : Json) :
    Retires model (model.mergeAtFull path document)
      (Retired.mergeAtFull model path document) := by
  rw [mergeAtFull, Retired.mergeAtFull]
  cases (model.resolver.resolve path).last? with
  | some key => exact retires_mergeAt exact _ key document
  | none => exact retires_merge exact document

/-! ### Deleting -/

theorem retires_delete (exact : model.FreeExact) (node : NodeId) (key : String) :
    Retires model (model.delete node key).1 (Retired.delete model node key) := by
  rw [delete, Retired.delete]
  cases content_eq : model.content? node with
  | none => exact .refl exact
  | some content =>
      obtain ⟨held, held_eq, rfl⟩ := Option.map_eq_some_iff.1 content_eq
      cases content_held : held.content with
      | leaf leaf => exact .refl exact
      | array items => exact .refl exact
      | object children =>
          dsimp only
          cases found : Entries.get? children key with
          | none => exact .refl exact
          | some child =>
              refine (retires_release (freeExact_setContent exact node _) child).rewired
                fun other other_eq name kid listed live kept => ?_
              rw [held_eq, Option.some.injEq] at other_eq
              rw [← other_eq, content_held, Content.named] at listed
              refine (Entries.mem_erase_or listed key).resolve_right fun is_child => kept ?_
              obtain rfl : child = kid := Option.some.inj (found.symm.trans is_child)
              exact mem_retired_release (contains_setContent live)

theorem retires_deleteAt (exact : model.FreeExact) (path key : String) :
    Retires model (model.deleteAt path key).1 (Retired.deleteAt model path key) := by
  rw [deleteAt, Retired.deleteAt]
  cases model.nodeAt? path with
  | some node => exact retires_delete exact node key
  | none => exact .refl exact

/-! ### Applying -/

theorem retires_writeAccepted (exact : model.FreeExact) {now : Instant} {source : String}
    {context : NodeId} {accepted : AcceptedValue} {written : Model}
    (written_eq : model.writeAccepted now source context accepted = some written) :
    Retires model written (Retired.writeAccepted now source context model accepted) := by
  obtain ⟨⟨added, node⟩, added_eq, put_eq⟩ := Option.bind_eq_some_iff.1 written_eq
  obtain ⟨⟨after, child⟩, put_eq, same⟩ := Option.bind_eq_some_iff.1 put_eq
  cases same
  have step := retires_addNode exact added_eq
  rw [Retired.writeAccepted, added_eq]
  exact step.trans (retires_put step.freeExact put_eq)

theorem retires_applyValues (exact : model.FreeExact) (now : Instant) (batch : Batch)
    (context : NodeId) (items : List PathValue) (report : MergeReport) :
    Retires model (applyValues now batch context items model report).1
      (Retired.applyValues now batch context items model) := by
  induction items generalizing model report with
  | nil => exact .refl exact
  | cons item items induction_step =>
      rw [applyValues, Retired.applyValues]
      cases (batch.accept item).toOption with
      | none => exact induction_step exact _
      | some accepted =>
          rw [Option.bind_some]
          dsimp only
          cases written_eq : model.writeAccepted now batch.source context accepted with
          | none => exact induction_step exact _
          | some written =>
              have step := retires_writeAccepted exact written_eq
              exact step.trans (induction_step step.freeExact _)

theorem retires_applyBatch (now : Instant) (context : Path) (state : Model × MergeReport)
    (batch : Batch) (exact : state.1.FreeExact) :
    Retires state.1 (applyBatch now context state batch).1
      (Retired.applyBatch now context state batch) := by
  rw [applyBatch, Retired.applyBatch]
  cases added_eq : state.1.addNode? state.1.root context.raw with
  | none => exact .refl exact
  | some added =>
      have step := retires_addNode exact added_eq
      exact step.trans (retires_applyValues step.freeExact now batch _ batch.values state.2)

theorem retires_applyDelta (exact : model.FreeExact) (now : Instant) (delta : Delta) :
    Retires model (model.applyDelta now delta).1 (Retired.applyDelta model now delta) :=
  retires_along Prod.fst
    (fun state batch _ => retires_applyBatch now (model.resolver.resolve delta.context) state batch)
    (model, .start) exact

/-! ### Operations -/

/-- An operation in place retires what the account says. -/
theorem retires_perform (exact : model.FreeExact) {operation : Operation}
    (in_place : operation.isInPlace = true) :
    Retires model (model.perform operation) (Retired.perform model operation) := by
  cases operation with
  | addNode start path =>
      rw [perform, addNode?, Retired.perform, Retired.addNode]
      split
      · exact retires_ensurePath exact start _
      · exact .refl exact
  | addPath path => exact retires_addPath exact path
  | put node key value source timestamp =>
      rw [perform, put?, Retired.perform, Retired.put]
      split
      · exact retires_setLeaf exact node key _
      · exact .refl exact
  | merge document => exact retires_merge exact document
  | mergeAt path key document => exact retires_mergeAt exact path key document
  | mergeAtFull path document => exact retires_mergeAtFull exact path document
  | delete node key => exact retires_delete exact node key
  | deleteAt path key => exact retires_deleteAt exact path key
  | apply now message =>
      rw [perform, apply, Retired.perform, Retired.apply]
      split_ifs
      · exact retires_merge exact message
      · exact .refl exact
      · cases Delta.decode message with
        | ok delta => exact retires_applyDelta exact now delta
        | error cause => exact .refl exact
  | applyDelta now delta => exact retires_applyDelta exact now delta
  | duplicate | safe | safeSubtree => cases in_place

/-- A run in place retires what its operations do. -/
theorem retires_operations (exact : model.FreeExact) {operations : List Operation}
    (in_place : ∀ operation ∈ operations, operation.isInPlace = true) :
    Retires model (operations.foldl perform model) (Retired.operations model operations) :=
  retires_along (fun model => model)
    (fun _ operation member exact => retires_perform exact (in_place operation member)) model exact

end Model

end VesselHub
