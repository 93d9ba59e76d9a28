/-
Module: VesselHub.Query
Purpose: Answer requests for values and for path lists from the tree without private branches.
Main exports: Query.get, Query.list, Model.get, Model.list
-/
import VesselHub.Json.Insert
import VesselHub.Message.Server
import VesselHub.Model.Copy
import VesselHub.Path.Pattern

namespace VesselHub

namespace Query

/-- Adds what a wildcard path selects below a context to an answer. A text that is no pattern
adds nothing. -/
def addMatching (context : Path) (branch : Tree) (wanted : String) (answer : Json) : Json :=
  match Pattern.ofText wanted with
  | .error _ => answer
  | .ok pattern =>
      (branch.leaves.filter fun found => pattern.fits found.1).foldl
        (fun answer found =>
          answer.insertAt (context.join found.1).segments found.2.encode) answer

/-- Adds the branch at a path below a context to an answer, if there is one. -/
def addBranch (tree : Tree) (resolver : Resolver) (context : Path) (wanted : String)
    (answer : Json) : Json :=
  let full := context.join wanted
  match tree.at? resolver full.raw with
  | some found => answer.insertAt full.segments found.encode
  | none => answer

/-- Answers a request for values from a tree without private branches. The answer has the shape
of the document and holds only what was asked for; asking for no path asks for the context. -/
def get (tree : Tree) (resolver : Resolver) (request : GetRequest) : Json :=
  let context := resolver.resolve request.context
  match tree.at? resolver context.raw with
  | none => .object []
  | some branch =>
      if request.wanted.isEmpty then
        (Json.object []).insertAt context.segments branch.encode
      else
        request.wanted.foldl (fun answer wanted =>
          if '*' ∈ wanted.toList then addMatching context branch wanted answer
          else addBranch tree resolver context wanted answer) (.object [])

/-- The patterns among the texts of a request. -/
def patternsOf (texts : List String) : List Pattern :=
  texts.filterMap fun text => (Pattern.ofText text).toOption

/-- Answers a request for paths from a tree without private branches: the full paths of the
leaves that a pattern covers, or of all leaves if there is no pattern. -/
def list (tree : Tree) (resolver : Resolver) (request : ListRequest) : PathList :=
  let context := resolver.resolve request.context
  let patterns := patternsOf request.wanted
  let found := match tree.at? resolver context.raw with
    | none => []
    | some branch =>
        (branch.leaves.map Prod.fst).filter fun path =>
          patterns.isEmpty || patterns.any (·.covers path)
  { context := request.context, paths := found.map fun path => (context.join path).text }

end Query

namespace Model

/-- Answers a request for values. -/
def get (model : Model) (request : GetRequest) : Json :=
  Query.get model.tree.safe model.resolver request

/-- Answers a request for paths. -/
def list (model : Model) (request : ListRequest) : PathList :=
  Query.list model.tree.safe model.resolver request

end Model

end VesselHub
