/-
Module: VesselHub.Payload.Covered
Purpose: The leaves that a subscription's context and filter select, and the full payload that
  holds them.
Main exports: Payload.contexts, Payload.covered, Payload.full?
-/
import VesselHub.Json.Insert
import VesselHub.Path.Pattern
import VesselHub.Tree.Basic

namespace VesselHub.Payload

/-- The keys of an object's children. -/
def childKeys : Tree → List String
  | .object children => Entries.keys children
  | _ => []

/-- The contexts that a text names: one, or with a wildcard every vessel that it selects. -/
def contexts (tree : Tree) (resolver : Resolver) (context : String) : List Path :=
  let resolved := resolver.resolve context
  if '*' ∉ context.toList then [resolved]
  else
    match Pattern.ofText resolved.raw, tree.at? resolver vesselsKey with
    | .ok pattern, some vessels =>
        ((childKeys vessels).map fun key => Path.ofParts [vesselsKey, key]).filter
          fun path => pattern.fits path.raw
    | _, _ => []

/-- A leaf that a subscription covers. -/
structure CoveredLeaf where
  context : Path
  /-- The dotted path of the leaf below its context. -/
  relative : String
  leaf : Leaf

/-- The full path of a covered leaf. -/
def CoveredLeaf.full (covered : CoveredLeaf) : Path :=
  covered.context.join covered.relative

/-- The leaves below each context that the filter covers, in order. -/
def covered (tree : Tree) (resolver : Resolver) (context : String) (filter : Pattern) :
    List CoveredLeaf :=
  (contexts tree resolver context).flatMap fun path =>
    match tree.at? resolver path.raw with
    | none => []
    | some branch =>
        (branch.leaves.filter fun found => filter.covers found.1).map fun found =>
          { context := path, relative := found.1, leaf := found.2 }

/-- The covered leaves as a document shaped like the model; none if nothing is covered. -/
def full? (tree : Tree) (resolver : Resolver) (context : String) (filter : Pattern) :
    Option Json :=
  match covered tree resolver context filter with
  | [] => none
  | leaves =>
      some (leaves.foldl (fun document covered =>
        document.insertAt covered.full.segments covered.leaf.encode) (.object []))

end VesselHub.Payload
