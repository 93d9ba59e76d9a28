/-
Module: VesselHub.Proofs.Model.Projection
Purpose: Copies of a model, with or without its private branches. A copy is an intact model that
  holds what it should, and copying node by node gives the same slots as planting the tree.
Main exports: Tree.RedactsTo, ByNodes.project, ByNodes.project_eq, Model.FaithfulCopies,
  Model.run_faithfulCopies
-/
import VesselHub.Proofs.Model.WellFormed

namespace VesselHub

/-! ### Trees without their private branches -/

namespace Tree

mutual

/-- A tree and what is left of it when private branches are taken out at every depth. -/
inductive RedactsTo : Tree → Tree → Prop where
  | leaf (held : Leaf) : RedactsTo (.leaf held) (.leaf held)
  | object {children left : List (String × Tree)} (kept : ChildrenRedactTo children left) :
      RedactsTo (.object children) (.object left)
  | array {items left : List Tree} (kept : ItemsRedactTo items left) :
      RedactsTo (.array items) (.array left)

/-- Of children those under public keys are left, in their order. -/
inductive ChildrenRedactTo : List (String × Tree) → List (String × Tree) → Prop where
  | nil : ChildrenRedactTo [] []
  | hidden {key : String} {child : Tree} {children left : List (String × Tree)}
      (is_private : Path.isPrivateKey key = true) (rest : ChildrenRedactTo children left) :
      ChildrenRedactTo ((key, child) :: children) left
  | shown {key : String} {child part : Tree} {children left : List (String × Tree)}
      (is_public : Path.isPrivateKey key = false) (first : RedactsTo child part)
      (rest : ChildrenRedactTo children left) :
      ChildrenRedactTo ((key, child) :: children) ((key, part) :: left)

/-- Of an array every item is left. -/
inductive ItemsRedactTo : List Tree → List Tree → Prop where
  | nil : ItemsRedactTo [] []
  | cons {item part : Tree} {items left : List Tree} (first : RedactsTo item part)
      (rest : ItemsRedactTo items left) : ItemsRedactTo (item :: items) (part :: left)

end

mutual

theorem redactsTo_safe : ∀ tree : Tree, RedactsTo tree tree.safe
  | .leaf held => .leaf held
  | .object children => .object (childrenRedactTo_safeChildren children)
  | .array items => .array (itemsRedactTo_safeItems items)

theorem childrenRedactTo_safeChildren : ∀ children : List (String × Tree),
    ChildrenRedactTo children (safeChildren children)
  | [] => .nil
  | (key, child) :: children => by
      rw [safeChildren]
      split
      · rename_i is_private
        exact .hidden is_private (childrenRedactTo_safeChildren children)
      · rename_i is_public
        exact .shown (Bool.eq_false_of_not_eq_true is_public) (redactsTo_safe child)
          (childrenRedactTo_safeChildren children)

theorem itemsRedactTo_safeItems : ∀ items : List Tree, ItemsRedactTo items (safeItems items)
  | [] => .nil
  | item :: items => .cons (redactsTo_safe item) (itemsRedactTo_safeItems items)

end

mutual

/-- Only one tree is left. -/
theorem RedactsTo.eq_safe : ∀ {tree left : Tree}, RedactsTo tree left → left = tree.safe
  | _, _, .leaf _ => rfl
  | _, _, .object kept => congrArg Tree.object kept.eq_safeChildren
  | _, _, .array kept => congrArg Tree.array kept.eq_safeItems

theorem ChildrenRedactTo.eq_safeChildren : ∀ {children left : List (String × Tree)},
    ChildrenRedactTo children left → left = safeChildren children
  | _, _, .nil => rfl
  | _, _, .hidden is_private rest => by
      rw [safeChildren, if_pos is_private, rest.eq_safeChildren]
  | _, _, .shown is_public first rest => by
      rw [safeChildren, if_neg (Bool.not_eq_true _ ▸ is_public), first.eq_safe,
        rest.eq_safeChildren]

theorem ItemsRedactTo.eq_safeItems : ∀ {items left : List Tree}, ItemsRedactTo items left →
    left = safeItems items
  | _, _, .nil => rfl
  | _, _, .cons first rest => by rw [safeItems, first.eq_safe, rest.eq_safeItems]

end

theorem redactsTo_iff {tree left : Tree} : tree.RedactsTo left ↔ left = tree.safe :=
  ⟨RedactsTo.eq_safe, fun same => same ▸ redactsTo_safe tree⟩

mutual

/-- What has no private branches loses none. -/
theorem safe_safe : ∀ tree : Tree, tree.safe.safe = tree.safe
  | .leaf _ => rfl
  | .object children => congrArg Tree.object (safeChildren_safeChildren children)
  | .array items => congrArg Tree.array (safeItems_safeItems items)

theorem safeChildren_safeChildren : ∀ children : List (String × Tree),
    safeChildren (safeChildren children) = safeChildren children
  | [] => rfl
  | (key, child) :: children => by
      by_cases hidden : Path.isPrivateKey key = true
      · rw [safeChildren, if_pos hidden, safeChildren_safeChildren children]
      · rw [safeChildren, if_neg hidden, safeChildren, if_neg hidden, safe_safe child,
          safeChildren_safeChildren children]

theorem safeItems_safeItems : ∀ items : List Tree, safeItems (safeItems items) = safeItems items
  | [] => rfl
  | item :: items => by
      rw [safeItems, safeItems, safe_safe item, safeItems_safeItems items]

end

end Tree

/-! ### Copying node by node -/

namespace ByNodes

/-- Copies the children of an object one after the other, but for private ones if `hide` says so. -/
def copyChildren (copy : NodeId → Model → Model × NodeId) (hide : Bool) :
    List (String × NodeId) → Model → Model × List (String × NodeId)
  | [], target => (target, [])
  | (key, child) :: children, target =>
      if hide && Path.isPrivateKey key then copyChildren copy hide children target
      else
        let (target, node) := copy child target
        let (target, copied) := copyChildren copy hide children target
        (target, (key, node) :: copied)

/-- Copies the items of an array one after the other. -/
def copyItems (copy : NodeId → Model → Model × NodeId) :
    List NodeId → Model → Model × List NodeId
  | [], target => (target, [])
  | item :: items, target =>
      let (target, node) := copy item target
      let (target, copied) := copyItems copy items target
      (target, node :: copied)

/-- Copies a node and what is below it, down to `depth` levels, into another model. The copy of a
node gets its slot before the nodes below it, and is told its children when they are there. -/
def copyNode (source : Model) (hide : Bool) :
    Nat → NodeId → Option NodeId → Model → Model × NodeId
  | 0, _, parent, target => target.allocate parent (.object [])
  | depth + 1, id, parent, target =>
      match source.content? id with
      | none => target.allocate parent (.object [])
      | some (.leaf held) => target.allocate parent (.leaf held)
      | some (.object children) =>
          let (target, node) := target.allocate parent (.object [])
          let (target, copied) := copyChildren
            (fun child target => copyNode source hide depth child (some node) target)
            hide children target
          (target.setContent node (.object copied), node)
      | some (.array items) =>
          let (target, node) := target.allocate parent (.array [])
          let (target, copied) := copyItems
            (fun item target => copyNode source hide depth item (some node) target) items target
          (target.setContent node (.array copied), node)

/-- A copy of the branch at a node, in slots of its own. The first slot is that of the root. -/
def project (source : Model) (hide : Bool) (id : NodeId) : Model :=
  (copyNode source hide source.slots.size id none (Model.unplanted source.resolver)).1

/-- Telling a new node what it holds already changes nothing. -/
theorem setContent_allocate (target : Model) (parent : Option NodeId) (content : Content) :
    (target.allocate parent content).1.setContent (target.allocate parent content).2 content =
      (target.allocate parent content).1 := by
  unfold Model.allocate Model.setContent Model.modifyNode
  cases target.free with
  | nil =>
      simp only [Model.mk.injEq, and_true]
      apply Array.ext_getElem?
      intro index
      rw [Array.getElem?_modify, Array.getElem?_push]
      by_cases same : target.slots.size = index
      · simp [same]
      · simp [same]
  | cons first free =>
      simp only [Model.mk.injEq, and_true]
      apply Array.ext_getElem?
      intro index
      simp only [Array.getElem?_modify]
      by_cases same : first = index
      · subst same
        simp only [if_true, Option.map_map]
        rcases Option.eq_none_or_eq_some target.slots[first]? with slot_eq | ⟨slot, slot_eq⟩ <;>
          simp [slot_eq]
      · simp [same]

/-- Planting an empty object takes one slot. -/
private theorem plant_empty (target : Model) (parent : NodeId) :
    target.plant parent .empty = target.allocate (some parent) (.object []) :=
  Prod.ext (setContent_allocate target (some parent) (.object [])) rfl

private theorem ofTree_empty (resolver : Resolver) :
    Model.ofTree resolver .empty = ((Model.unplanted resolver).allocate none (.object [])).1 :=
  setContent_allocate (Model.unplanted resolver) none (.object [])

/-- What is copied of a tree. -/
def shown (hide : Bool) (tree : Tree) : Tree :=
  if hide then tree.safe else tree

theorem copyChildren_eq {source : Model} {hide : Bool} {depth : Nat} {parent : NodeId}
    (copied : ∀ child target, copyNode source hide depth child (some parent) target =
      target.plant parent (shown hide (source.treeWithin depth child)))
    (children : List (String × NodeId)) (target : Model) :
    copyChildren (fun child target => copyNode source hide depth child (some parent) target)
        hide children target =
      target.plantChildren parent (if hide then
        Tree.safeChildren (children.map fun entry => (entry.1, source.treeWithin depth entry.2))
        else children.map fun entry => (entry.1, source.treeWithin depth entry.2)) := by
  induction children generalizing target with
  | nil => cases hide <;> rfl
  | cons entry children induction_step =>
      obtain ⟨key, child⟩ := entry
      cases hide with
      | false =>
          simp only [copyChildren, List.map_cons, Model.plantChildren, Bool.false_and,
            Bool.false_eq_true, if_false, copied, shown] at induction_step ⊢
          rw [induction_step]
      | true =>
          simp only [copyChildren, List.map_cons, Tree.safeChildren, Bool.true_and, if_true,
            copied, shown] at induction_step ⊢
          by_cases hidden : Path.isPrivateKey key = true
          · simp only [if_pos hidden, induction_step]
          · simp only [if_neg hidden, Model.plantChildren, induction_step]

theorem copyItems_eq {source : Model} {hide : Bool} {depth : Nat} {parent : NodeId}
    (copied : ∀ child target, copyNode source hide depth child (some parent) target =
      target.plant parent (shown hide (source.treeWithin depth child)))
    (items : List NodeId) (target : Model) :
    copyItems (fun item target => copyNode source hide depth item (some parent) target)
        items target =
      target.plantItems parent (if hide then
        Tree.safeItems (items.map (source.treeWithin depth))
        else items.map (source.treeWithin depth)) := by
  induction items generalizing target with
  | nil => cases hide <;> rfl
  | cons item items induction_step =>
      cases hide with
      | false =>
          simp only [copyItems, List.map_cons, Model.plantItems, Bool.false_eq_true, if_false,
            copied, shown] at induction_step ⊢
          rw [induction_step]
      | true =>
          simp only [copyItems, List.map_cons, Tree.safeItems, Model.plantItems, if_true,
            copied, shown] at induction_step ⊢
          rw [induction_step]

/-- Copying nodes below a parent plants the tree that is read off from them. -/
theorem copyNode_eq (source : Model) (hide : Bool) (depth : Nat) (id parent : NodeId)
    (target : Model) : copyNode source hide depth id (some parent) target =
      target.plant parent (shown hide (source.treeWithin depth id)) := by
  induction depth generalizing id parent target with
  | zero => cases hide <;> exact (plant_empty target parent).symm
  | succ depth induction_step =>
      rw [copyNode, Model.treeWithin]
      cases source.content? id with
      | none => cases hide <;> exact (plant_empty target parent).symm
      | some content =>
          cases content with
          | leaf held => cases hide <;> rfl
          | object children =>
              simp only [copyChildren_eq fun child target => induction_step child _ target]
              cases hide <;> rfl
          | array items =>
              simp only [copyItems_eq fun child target => induction_step child _ target]
              cases hide <;> rfl

/-- Copying a branch node by node plants its tree as a model of its own. -/
theorem project_eq (source : Model) (hide : Bool) (id : NodeId) :
    project source hide id = Model.ofTree source.resolver (shown hide (source.treeOf id)) := by
  rw [project, Model.treeOf]
  cases source.slots.size with
  | zero => cases hide <;> exact (ofTree_empty source.resolver).symm
  | succ depth =>
      rw [copyNode, Model.treeWithin]
      cases source.content? id with
      | none => cases hide <;> exact (ofTree_empty source.resolver).symm
      | some content =>
          cases content with
          | leaf held => cases hide <;> rfl
          | object children =>
              simp only [copyChildren_eq fun child target => copyNode_eq source hide depth child _
                target]
              cases hide <;> rfl
          | array items =>
              simp only [copyItems_eq fun child target => copyNode_eq source hide depth child _
                target]
              cases hide <;> rfl

end ByNodes

/-! ### Faithful copies -/

namespace Model

/-- A model that was planted for another: an intact one of the same vessel that holds a tree. -/
structure Plants (copy model : Model) (tree : Tree) : Prop where
  tree_eq : copy.tree = tree
  resolver_eq : copy.resolver = model.resolver
  wellFormed : copy.WellFormed
  nodeCount_eq : copy.nodeCount = tree.size
  leafCount_eq : copy.leafCount = tree.leafTrails.length

private theorem plants_ofTree (model : Model) {tree : Tree} (distinct : tree.DistinctKeys) :
    (ofTree model.resolver tree).Plants model tree := by
  obtain ⟨layout, intact, layout_tree, resolver_eq⟩ := intact_ofTree model.resolver distinct
  have tree_eq := intact.tree_eq.trans layout_tree
  exact {
    tree_eq
    resolver_eq
    wellFormed := intact.wellFormed
    nodeCount_eq := intact.nodeCount_eq_size.trans (congrArg Tree.size tree_eq)
    leafCount_eq := intact.leafCount_eq_length.trans
      (congrArg (fun tree => tree.leafTrails.length) tree_eq) }

/-- The copies of a model are models of their own that hold what they should. -/
structure FaithfulCopies (model : Model) : Prop where
  duplicate_tree : model.duplicate.tree = model.tree
  duplicate_nodeCount : model.duplicate.nodeCount = model.nodeCount
  duplicate_leafCount : model.duplicate.leafCount = model.leafCount
  /-- The copy holds just what is left of the tree without its private branches. -/
  safe_tree_iff : ∀ left, model.safe.tree = left ↔ model.tree.RedactsTo left
  safeSubtree_tree_iff : ∀ node left,
    (model.safeSubtree node).tree = left ↔ (model.treeOf node).RedactsTo left
  /-- Of a node that is gone, an empty object is left. -/
  safeSubtree_gone : ∀ node, ¬ model.contains node → (model.safeSubtree node).tree = .empty
  safe_safe : model.safe.safe.tree = model.safe.tree
  safe_duplicate : model.duplicate.safe.tree = model.safe.tree
  /-- Every copy is of the same local vessel. -/
  sameVessel : model.duplicate.resolver = model.resolver ∧ model.safe.resolver = model.resolver ∧
    ∀ node, (model.safeSubtree node).resolver = model.resolver
  wellFormed : model.duplicate.WellFormed ∧ model.safe.WellFormed ∧
    ∀ node, (model.safeSubtree node).WellFormed
  /-- Copying node by node gives these models, slot by slot. -/
  byNodes : ByNodes.project model false model.root = model.duplicate ∧
    ByNodes.project model true model.root = model.safe ∧
    ∀ node, ByNodes.project model true node = model.safeSubtree node

theorem Intact.faithfulCopies {model : Model} {layout : Layout} (intact : model.Intact layout) :
    model.FaithfulCopies := by
  have distinct : model.tree.DistinctKeys := distinctKeys_treeOf intact model.root
  have duplicated : model.duplicate.Plants model model.tree := plants_ofTree model distinct
  have projected : ∀ node, (model.safeSubtree node).Plants model (model.treeOf node).safe :=
    fun node => plants_ofTree model (Tree.distinctKeys_safe (distinctKeys_treeOf intact node))
  have safe_tree : model.safe.tree = model.tree.safe := (projected model.root).tree_eq
  have safe_of_copy : ∀ {copy : Model} {tree : Tree}, copy.Plants model tree →
      tree.DistinctKeys → copy.safe.tree = tree.safe := by
    intro copy tree plants distinct
    have below_root : copy.treeOf copy.root = tree := plants.tree_eq
    rw [safe, safeSubtree, below_root]
    exact (plants_ofTree copy (Tree.distinctKeys_safe distinct)).tree_eq
  exact {
    duplicate_tree := duplicated.tree_eq
    duplicate_nodeCount := duplicated.nodeCount_eq.trans intact.nodeCount_eq_size.symm
    duplicate_leafCount := duplicated.leafCount_eq.trans intact.leafCount_eq_length.symm
    safe_tree_iff := fun left => by rw [safe_tree, Tree.redactsTo_iff, eq_comm]
    safeSubtree_tree_iff := fun node left => by
      rw [(projected node).tree_eq, Tree.redactsTo_iff, eq_comm]
    safeSubtree_gone := fun node gone => by
      rw [(projected node).tree_eq, treeOf_of_gone gone]
      rfl
    safe_safe := (safe_of_copy (projected model.root) (Tree.distinctKeys_safe distinct)).trans
      (model.tree.safe_safe.trans safe_tree.symm)
    safe_duplicate := (safe_of_copy duplicated distinct).trans safe_tree.symm
    sameVessel := ⟨duplicated.resolver_eq, (projected model.root).resolver_eq,
      fun node => (projected node).resolver_eq⟩
    wellFormed := ⟨duplicated.wellFormed, (projected model.root).wellFormed,
      fun node => (projected node).wellFormed⟩
    byNodes := ⟨ByNodes.project_eq model false model.root, ByNodes.project_eq model true model.root,
      ByNodes.project_eq model true⟩ }

/-- The copies of whatever model a run leaves are faithful. -/
theorem run_faithfulCopies (id : String) (operations : List Operation) :
    (run id operations).FaithfulCopies := by
  obtain ⟨layout, intact⟩ := run_intact id operations
  exact intact.faithfulCopies

end Model

end VesselHub
